import Concurrencia.Futex.FairMutexBitset.Theorems.Order

open Function

namespace FairMutexBitset

open FifoLock (Event Attended)

namespace Pc

def Sleeps (v : BitVec 32) (p : Pc) : Prop :=
  ∃ b, p = asleep v b

-- Inside of `unlock` after the increment of `turn`, with the given value of `current`.
def Unlocks (c : ℤ) (p : Pc) : Prop :=
  p = test c ∨ p = wake c

-- The values of `current` come from tickets whose masks agree.
def Passes : Pc → Prop
  | test c | wake c                                      => ∃ v : BitVec 32, c = v.toInt ∧ Fits v
  | idle | fetchAdd | loadTurn _ | wait _ _ | asleep _ _ => True
  | storeCurrent _ | critical | addFetch                 => True

variable {p : Pc} {v b : BitVec 32} {c : ℤ}

theorem Sleeps.of_woken (h : (p.woken b).Sleeps v) : p.Sleeps v := by
  cases p <;> simp only [woken] at h
  case asleep =>
    split_ifs at h
    · obtain ⟨_, h⟩ := h
      cases h
    · exact h
  all_goals exact h

theorem Unlocks.woken (h : p.Unlocks c) : (p.woken b).Unlocks c := by
  obtain rfl | rfl := h
  · exact .inl rfl
  · exact .inr rfl

theorem passes_woken (h : p.Passes) : (p.woken b).Passes := by
  cases p <;> simp only [Pc.woken]
  case asleep =>
    split_ifs
    all_goals trivial
  all_goals exact h

end Pc

variable {n : ℕ} {s s' : State n} {i j : Fin n} {p : Pc} {a : Label n}
variable {t : FifoLock.State (Fin n)} {l : List (Event (Fin n))} {e : Option (Event (Fin n))}

namespace Refines

variable (ref : Refines s l t)
include ref

-- The wake of the `unlock` which has set `turn` reaches its sleepers.
theorem woken_of_turn {b : BitVec 32} (hb : mask s.turn.toInt = some b)
    (hj : (s.pc j).Sleeps s.turn) : (s.pc j).woken b = .loadTurn s.turn := by
  obtain ⟨b', hj⟩ := hj
  have hf : Fits s.turn := by
    by_contra hf
    simp [mask_undefined hf] at hb
  rw [mask_toInt hf] at hb
  obtain rfl : b' = b := Option.some.inj <| (ref.sleeps hj).symm.trans hb
  rw [hj, woken_of_mask hb]

theorem attended (hq : (FifoLock.left l).length + t.queue.length < 2 ^ 32) (h : Step s e s')
    (ha : Attended (Pc.Sleeps s.turn) (Pc.Unlocks s.turn.toInt) s.pc l) :
    Attended (Pc.Sleeps s'.turn) (Pc.Unlocks s'.turn.toInt) s'.pc (l ++ e.toList) := by
  cases h
  case call hp | storeCurrent hp | leave hp | early hp _ | rouse hp _ =>
    exact ha.keep (by simp) (by simp [Pc.Sleeps]) (by simp [hp, Pc.Unlocks])
  case retry hp =>
    refine ha.keep (by simp) (by simp [Pc.Sleeps]) ?_
    cases hp <;> simp [*, Pc.Unlocks]
  case fetchAdd hp | enter hp =>
    exact ha.keep (by simp [FifoLock.left_append, Event.left]) (by simp [Pc.Sleeps])
      (by simp [hp, Pc.Unlocks])
  case sleep hp _ =>
    refine ha.keep (by simp) ?_ (by simp [hp, Pc.Unlocks])
    intro h
    obtain ⟨_, h⟩ := h
    exact absurd (Pc.asleep.inj h).left (ref.waits hp)
  case addFetch => exact .leave (.inl rfl)
  case done c hp hc =>
    by_cases ht : c = s.turn.toInt
    case neg => exact ha.keep (by simp) (by simp [Pc.Sleeps]) (by simp [hp, Pc.Unlocks, ht])
    case pos =>
      rw [ht, BitVec.ofInt_toInt] at hc
      exact absurd (ref.turn_le_number hq) hc
  case wake i c b hp hb =>
    by_cases ht : c = s.turn.toInt
    case neg =>
      have hm : Attended (Pc.Sleeps s.turn) (Pc.Unlocks s.turn.toInt)
          (fun j => (s.pc j).woken b) l :=
        ha.map (g := Pc.woken b) (fun _ => .of_woken) fun _ => .woken
      exact hm.keep (by simp) (by simp [Pc.Sleeps]) (by simp [hp, Pc.woken, Pc.Unlocks, ht])
    case pos =>
      refine .of_none <| Threads.not_update (by simp [Pc.Sleeps]) fun j _ hj => ?_
      have hj : ((s.pc j).woken b).Sleeps s.turn := hj
      rw [ref.woken_of_turn (ht ▸ hb) hj.of_woken] at hj
      obtain ⟨_, hj⟩ := hj
      cases hj

end Refines

theorem attended_of_reachable (r : ((machine n).logging event).Reachable (s, l))
    (hl : (FifoLock.enqueued l).length < 2 ^ 32) :
    Attended (Pc.Sleeps s.turn) (Pc.Unlocks s.turn.toInt) s.pc l := by
  have ⟨_, _, _, ha⟩ := FifoLock.simulation_below r hl
    (R := fun s l t => Refines s l t ∧
      Attended (Pc.Sleeps s.turn) (Pc.Unlocks s.turn.toInt) s.pc l) ?start ?step
  case start =>
    intro s hs
    obtain rfl : s = FairMutexBitset.init n := hs
    exact ⟨.init, .of_none fun _ => by simp [FairMutexBitset.init, Pc.Sleeps]⟩
  case step =>
    intro s a s' l t ⟨ref, ha⟩ hq h
    have h : Step s (event s a) s' := .of_step h
    have ⟨t', run, ref'⟩ := ref.step hq h
    exact ⟨t', run, ref', ref.attended hq h ha⟩
  exact ha

theorem SetsFitting.of_leave (ha : SetsFitting s a) (he : event s a = some (.leave j)) :
    Fits (s.turn + 1) := by
  cases a <;> simp only [event, reduceCtorEq] at he
  case thread i =>
    cases hp : s.pc i <;> simp only [hp, reduceCtorEq] at he
    case addFetch          => exact ha hp
    case fetchAdd          => simp at he
    case loadTurn          => simp at he

-- The values for which `unlock` computes masks.
structure Fitting (s : State n) : Prop where
  turn   : Fits s.turn
  passes : ∀ i, (s.pc i).Passes

namespace Fitting

theorem init : Fitting (init n) where
  turn     := .inl (Nat.two_pow_pos 31)
  passes _ := trivial

variable (h : Fitting s)
include h

theorem goto (hp : p.Passes) : Fitting (s.goto i p) where
  turn   := h.turn
  passes := Threads.forall_update (P := Pc.Passes) hp fun j _ => h.passes j

theorem step (hs : Step s e s') (he : ∀ i, e = some (.leave i) → Fits (s.turn + 1)) :
    Fitting s' := by
  cases hs
  case call | early | sleep | retry | leave | enter | done => exact h.goto trivial
  case rouse i c hp _ =>
    have hc := h.passes i
    rw [hp] at hc
    exact h.goto (p := .wake c) hc
  case fetchAdd     =>
    exact goto (s := { s with number := s.number + 1 }) ⟨h.turn, h.passes⟩ trivial
  case storeCurrent => exact goto (s := { s with current := _ }) ⟨h.turn, h.passes⟩ trivial
  case addFetch     =>
    have hf := he _ rfl
    exact goto (s := { s with turn := s.turn + 1 }) ⟨hf, h.passes⟩ ⟨_, rfl, hf⟩
  case wake         =>
    exact goto (s := { s with pc := _ }) ⟨h.turn, fun j => Pc.passes_woken (h.passes j)⟩ trivial

end Fitting

theorem fitting_of_reachable (r : ((machine n).only SetsFitting).Reachable s) : Fitting s := by
  apply r.invariant
  case init =>
    intro s hs
    obtain rfl : s = FairMutexBitset.init n := hs
    exact .init
  case step =>
    intro s a s' _ h hs
    have ⟨ha, hs⟩ := Machine.only_step.mp hs
    exact h.step (.of_step hs) fun _ => ha.of_leave

-- The mask of `unlock` is the one of the sleeper if and only if the ticket fits. While `unlock`
-- sets `turn` to such tickets only, no wake-up is lost before the tickets wrap.
theorem wakeup_of_fitting
    (r : (((machine n).only SetsFitting).logging event).Reachable (s, l))
    (hl : (FifoLock.enqueued l).length < 2 ^ 32) :
    (∀ v : BitVec 32, (∃ b, mask v.toInt = some b ∧ mask v.toNat = some b) ↔ Fits v) ∧
    (∀ i v b, s.pc i = .asleep v b → mask v.toNat = some b) ∧
    (∀ j c, (s.pc j).Unlocks c → ∃ v : BitVec 32, c = v.toInt ∧
      ∃ b, mask c = some b ∧ mask v.toNat = some b) ∧
    ∀ i b, s.pc i = .asleep s.turn b → ∃ j, (FifoLock.left l).getLast? = some j ∧
      (s.pc j = .test s.turn.toInt ∧ s.number ≥ .ofInt 32 s.turn.toInt ∨
        s.pc j = .wake s.turn.toInt ∧ ∃ s', step s (.thread j) = some s' ∧
          s'.pc i = .loadTurn s.turn) := by
  have fits := fitting_of_reachable r.of_logging
  have ⟨t, run, ref⟩ := refines_of_reachable r.logging_of_only hl
  refine ⟨fun v => agree_iff, fun _ _ _ => ref.sleeps, fun j c hj => ?_, fun i b hi => ?_⟩
  · obtain ⟨v, rfl, hv⟩ : ∃ v : BitVec 32, c = v.toInt ∧ Fits v := by
      have := fits.passes j
      obtain h | h := hj
      all_goals rwa [h] at this
    exact ⟨v, rfl, agree_iff.mpr hv⟩
  · have ⟨j, hj, hp⟩ := attended_of_reachable r.logging_of_only hl i ⟨b, hi⟩
    refine ⟨j, hj, ?_⟩
    obtain hp | hp := hp
    · refine .inl ⟨hp, ?_⟩
      rw [BitVec.ofInt_toInt]
      exact ref.turn_le_number (FifoLock.left_add_queue run ▸ hl)
    · refine .inr ⟨hp, ?_⟩
      have ⟨m, hm, _⟩ := agree_iff.mpr fits.turn
      have hs : step s (.thread j) =
          some ({ s with pc := fun j => (s.pc j).woken m }.goto j .idle) := by
        simp [step, threadStep, hp, hm]
      refine ⟨_, hs, ?_⟩
      have hij : i ≠ j := by
        rintro rfl
        rw [hi] at hp
        cases hp
      rw [State.goto_pc, update_of_ne hij]
      exact ref.woken_of_turn hm ⟨b, hi⟩

-- Thread 1 sleeps with ticket 1, and thread 0 is about to wake it.
theorem wakeup_of_fitting_two :
    ∃ (s : State 2) (l : List (Event (Fin 2))),
      s.turn = 1 ∧ s.pc 1 = .asleep s.turn 2 ∧ s.pc 0 = .wake s.turn.toInt ∧
      (∀ v : BitVec 32, (∃ b, mask v.toInt = some b ∧ mask v.toNat = some b) ↔ Fits v) ∧
      (∀ i v b, s.pc i = .asleep v b → mask v.toNat = some b) ∧
      (∀ j c, (s.pc j).Unlocks c → ∃ v : BitVec 32, c = v.toInt ∧
        ∃ b, mask c = some b ∧ mask v.toNat = some b) ∧
      ∀ i b, s.pc i = .asleep s.turn b → ∃ j, (FifoLock.left l).getLast? = some j ∧
        (s.pc j = .test s.turn.toInt ∧ s.number ≥ .ofInt 32 s.turn.toInt ∨
          s.pc j = .wake s.turn.toInt ∧ ∃ s', step s (.thread j) = some s' ∧
            s'.pc i = .loadTurn s.turn) :=
  have ⟨s, l, h, ht, hi, hj, hl⟩ : ∃ s l,
      (((machine 2).only SetsFitting).logging event).exec (init 2, [])
        (Machine.schedule [(4, .thread 0), (4, .thread 1), (3, .thread 0)]) = some (s, l) ∧
      s.turn = 1 ∧ s.pc 1 = .asleep s.turn 2 ∧ s.pc 0 = .wake s.turn.toInt ∧
      (FifoLock.enqueued l).length = 2 :=
    ⟨_, _, rfl, rfl, rfl, rfl, rfl⟩
  ⟨s, l, ht, hi, hj, wakeup_of_fitting (.of_exec (by exact ⟨rfl, rfl⟩) h) (hl.trans_lt (by decide))⟩

-- Nobody is inside, and the next ticket is the given one.
def paused (v : BitVec 32) (current : BitVec 32) : State 2 where
  pc _    := .idle
  number  := v
  turn    := v
  current := current

-- Thread 0 locks and unlocks.
theorem exec_cycle {v u : BitVec 32} {l : List (Event (Fin 2))} (hv : Fits (v + 1)) :
    ((machine 2).logging event).exec (paused v u, l) (.replicate 8 (.thread 0)) =
      some (paused (v + 1) v, l ++ [.enqueue 0, .enter 0, .leave 0]) := by
  have ⟨b, hb, _⟩ := agree_iff.mpr hv
  have hp (p : Pc) : update (fun j => (update (fun _ : Fin 2 => Pc.idle) 0 p j).woken b) 0 .idle =
      fun _ => Pc.idle := by
    funext j
    match j with
    | 0 => simp
    | 1 => simp [Pc.woken]
  simp [Machine.exec, List.replicate, Machine.logging, machine, FairMutexBitset.step, event,
    threadStep, paused, State.goto, -BitVec.toInt_add]
  exact ⟨b, hb, hp _⟩

-- There have been as many calls as tickets.
theorem paused_reachable {k : ℕ} (hk : k ≤ 2 ^ 31) :
    ∃ l, ((machine 2).logging event).Reachable (paused (.ofNat 32 k) (.ofNat 32 (k - 1)), l) ∧
      (FifoLock.enqueued l).length = k := by
  induction k
  case zero      => exact ⟨[], .init ⟨rfl, rfl⟩, rfl⟩
  case succ k ih =>
    obtain ⟨l, r, hl⟩ := ih (by omega)
    have hs : BitVec.ofNat 32 (k + 1) = .ofNat 32 k + 1 := BitVec.ofNat_add k 1
    have ht : (BitVec.ofNat 32 k + 1).toNat = k + 1 := by
      rw [← hs, BitVec.toNat_ofNat, Nat.mod_eq_of_lt (by omega)]
    have hf : Fits (.ofNat 32 k + 1) := by
      rw [Fits, ht]
      omega
    refine ⟨_, hs ▸ (Machine.Run.iff_exec.mpr (exec_cycle hf)).reachable r, ?_⟩
    rw [FifoLock.enqueued, List.filterMap_append, List.length_append, ← FifoLock.enqueued, hl]
    rfl

-- After 2^31 calls, the next thread which has to wait is not woken.
theorem undefined_wake :
    ∃ (s : State 2) (l : List (Event (Fin 2))), ((machine 2).logging event).Reachable (s, l) ∧
      (FifoLock.enqueued l).length < 2 ^ 32 ∧
      s.pc 1 = .asleep s.turn 2 ∧ s.pc 0 = .wake s.turn.toInt ∧ mask s.turn.toInt = none := by
  obtain ⟨l, r, hl⟩ := paused_reachable (le_refl (2 ^ 31))
  have ⟨s, l', h, ht, h₀, h₁, hl'⟩ : ∃ s l',
      ((machine 2).logging event).exec
        (paused (.ofNat 32 (2 ^ 31)) (.ofNat 32 (2 ^ 31 - 1)), [])
        (Machine.schedule [(4, .thread 0), (4, .thread 1), (3, .thread 0)]) = some (s, l') ∧
      s.turn = .ofNat 32 (2 ^ 31 + 1) ∧ s.pc 1 = .asleep s.turn 2 ∧ s.pc 0 = .wake s.turn.toInt ∧
      (FifoLock.enqueued l').length = 2 :=
    ⟨_, _, rfl, rfl, rfl, rfl, rfl⟩
  have run := Machine.Run.iff_exec.mpr (Machine.logging_exec_append h l)
  refine ⟨s, l ++ l', run.reachable ((List.append_nil l).symm ▸ r), ?_, h₀, h₁, ?_⟩
  · rw [FifoLock.enqueued, List.filterMap_append, List.length_append, ← FifoLock.enqueued,
      ← FifoLock.enqueued, hl, hl']
    decide
  · rw [ht]
    exact mask_undefined (by decide)

end FairMutexBitset
