import Concurrencia.Futex.FairMutex.Theorems.Order

open Function

namespace FairMutex

open FifoLock (Event Stage Attended)

namespace Pc

-- Inside of `unlock` after the increment of `turn`, with the given value of `current`.
def Unlocks (c : ℤ) (p : Pc) : Prop :=
  p = test c ∨ p = wake c

end Pc

-- The schedulers under which `number` wraps only if no other ticket is out.
def Unwrapped {n : ℕ} (s : State n) : Label n → Prop
  | .thread i   => s.pc i = .fetchAdd → s.number = .allOnes 32 → s.turn = .allOnes 32
  | .spurious _ => True

instance {n : ℕ} (s : State n) : (l : Label n) → Decidable (Unwrapped s l)
  | .thread i   => inferInstanceAs <|
    Decidable (s.pc i = .fetchAdd → s.number = .allOnes 32 → s.turn = .allOnes 32)
  | .spurious _ => inferInstanceAs <| Decidable True

variable {n : ℕ} {s s' : State n} {i j : Fin n} {p : Pc} {v u : BitVec 32} {a : Label n}
variable {t : FifoLock.State (Fin n)} {l : List (Event (Fin n))} {e : Option (Event (Fin n))}

theorem Unwrapped.of_enqueue (ha : Unwrapped s a) (he : event s a = some (.enqueue j)) :
    s.number = .allOnes 32 → s.turn = .allOnes 32 := by
  cases a <;> simp only [event, reduceCtorEq] at he
  case thread i =>
    cases hp : s.pc i <;> simp only [hp, reduceCtorEq] at he
    case fetchAdd => exact ha hp
    case loadTurn | addFetch => simp at he

theorem eq_allOnes : v = .allOnes 32 ↔ v.toNat = 2 ^ 32 - 1 := by
  rw [← BitVec.toNat_inj, BitVec.toNat_allOnes]

theorem Refines.toNat_number (ref : Refines s t) :
    s.number.toNat = (s.turn.toNat + t.queue.length) % 2 ^ 32 := by
  rw [ref.counted.number, FifoLock.toNat_turns]

theorem Refines.queue_lt (ref : Refines s t) (hn : n < 2 ^ 32) : t.queue.length < 2 ^ 32 :=
  ref.counted.serves.length_le.trans_lt (by simpa)

-- While the tickets which are out have wrapped, the last ticket before the wrap does not wait for
-- anybody.
structure Inv (s : State n) : Prop where
  room   : s.turn ≤ s.number ∨ s.turn = .allOnes 32
  prompt : s.turn = .allOnes 32 → ∀ {i}, (s.pc i).stage = .waiting s.turn →
    s.pc i = .loadTurn s.turn

namespace Inv

theorem init : Inv (init n) where
  room     := .inl (BitVec.le_refl _)
  prompt h := by simp [FairMutex.init] at h

variable (inv : Inv s)
include inv

theorem goto (hp : p.stage = .waiting s.turn → p = .loadTurn s.turn) : Inv (s.goto i p) where
  room := inv.room
  prompt h {j} hj := by
    by_cases hji : j = i
    case pos => simpa [hji] using hp (by simpa [hji] using hj)
    case neg => simpa [hji] using inv.prompt h (by simpa [hji] using hj)

theorem fetchAdd (h : s.number = .allOnes 32 → s.turn = .allOnes 32) :
    Inv ({ s with number := s.number + 1 }.goto i (.loadTurn s.number)) := by
  refine goto (s := { s with number := s.number + 1 }) ⟨?_, inv.prompt⟩ ?_
  · cases inv.room
    case inr h => exact .inr h
    case inl hr =>
      by_cases hm : s.number = .allOnes 32
      case pos => exact .inr (h hm)
      case neg =>
        rw [eq_allOnes] at hm
        have hl := s.number.isLt
        rw [BitVec.le_def, BitVec.toNat_add_of_lt (by simp; omega)]
        exact .inl (Nat.le_succ_of_le hr)
  · simp [Pc.stage]

theorem addFetch (hn : n < 2 ^ 32) (ref : Refines s t) (hi : s.pc i = .addFetch) :
    Inv ({ s with turn := s.turn + 1 }.goto i (.test (s.turn + 1).toInt)) := by
  have hq := ref.queue_lt hn
  have hl := ref.toNat_number
  have hh := ref.counted.serves.inside (i := i) (by simp [hi, Pc.stage])
  have hp : 0 < t.queue.length := List.length_pos_iff.mpr (ref.counted.serves.nonempty hh.right)
  have hr := inv.room.imp BitVec.le_def.mp eq_allOnes.mp
  have hs : (s.turn + 1).toNat = (s.turn.toNat + 1) % 2 ^ 32 := BitVec.toNat_add ..
  have hlt := s.turn.isLt
  refine goto (s := { s with turn := s.turn + 1 }) ⟨?_, ?_⟩ (by simp [Pc.stage])
  · left
    rw [BitVec.le_def, hs]
    dsimp only
    omega
  · intro hm j hj
    rw [eq_allOnes, hs] at hm
    obtain ⟨k, hk, hv, _⟩ := ref.counted.serves.waiting hj
    have hv := congrArg BitVec.toNat hv
    have hlk := (List.getElem?_eq_some_iff.mp hk).choose
    rw [hs, FifoLock.toNat_turns] at hv
    omega

theorem woken : Inv { s with pc := fun j => (s.pc j).woken } where
  room := inv.room
  prompt h {i} hi := by
    have hi := inv.prompt h (Pc.stage_woken.symm.trans hi)
    simp [hi, Pc.woken]

theorem step (hn : n < 2 ^ 32) (ref : Refines s t) (h : Step s e s')
    (he : ∀ i, e = some (.enqueue i) → s.number = .allOnes 32 → s.turn = .allOnes 32) :
    Inv s' := by
  cases h
  case call | enter | leave | rouse | done => exact inv.goto (by simp [Pc.stage])
  case early hv    => exact inv.goto fun h => absurd (Stage.waiting.inj h) hv
  case sleep hp    => exact inv.goto fun h => absurd (Stage.waiting.inj h) (ref.waits hp)
  case retry       => exact inv.goto fun h => congrArg Pc.loadTurn (Stage.waiting.inj h)
  case addFetch hp => exact inv.addFetch hn ref hp
  case wake        => exact inv.woken.goto (by simp [Pc.stage])
  case fetchAdd hp => exact inv.fetchAdd (he _ rfl)

-- The test of the `unlock` which has set `turn` succeeds.
theorem le_number (hi : s.pc i = .asleep s.turn) : s.number ≥ .ofInt 32 s.turn.toInt := by
  rw [BitVec.ofInt_toInt]
  refine inv.room.resolve_right fun h => ?_
  have := inv.prompt h (i := i) (by simp [hi, Pc.stage])
  simp [hi] at this

theorem attended (ref : Refines s t) (h : Step s e s')
    (ha : Attended (· = .asleep s.turn) (Pc.Unlocks s.turn.toInt) s.pc l) :
    Attended (· = .asleep s'.turn) (Pc.Unlocks s'.turn.toInt) s'.pc (l ++ e.toList) := by
  cases h
  case call hp | leave hp     => exact ha.keep (by simp) (by simp) (by simp [hp, Pc.Unlocks])
  case retry hp               =>
    refine ha.keep (by simp) (by simp) ?_
    cases hp <;> simp [*, Pc.Unlocks]
  case early hp _             => exact ha.keep (by simp) (by simp) (by simp [hp, Pc.Unlocks])
  case rouse hp _             => exact ha.keep (by simp) (by simp) (by simp [hp, Pc.Unlocks])
  case fetchAdd hp | enter hp =>
    exact ha.keep (by simp [FifoLock.left_append, Event.left]) (by simp) (by simp [hp, Pc.Unlocks])
  case sleep hp =>
    refine ha.keep (by simp) ?_ (by simp [hp, Pc.Unlocks])
    intro h
    exact absurd (Pc.asleep.inj h) (ref.waits hp)
  case addFetch => exact .leave (.inl rfl)
  case done c hp hc =>
    by_cases ht : c = s.turn.toInt
    case pos =>
      refine ha.finish ?_ fun hj => absurd (ht ▸ inv.le_number hj) hc
      simp
    case neg => exact ha.keep (by simp) (by simp) (by simp [hp, Pc.Unlocks, ht])
  case wake =>
    refine .of_none <| Threads.not_update (P := (· = _)) ?_ fun j _ hj => ?_
    · simp
    · cases hp : s.pc j <;> simp [hp, Pc.woken] at hj

end Inv

theorem inv_of_reachable (hn : n < 2 ^ 32) (r : ((machine n).only Unwrapped).Reachable s) :
    Inv s := by
  apply r.invariant
  case init =>
    intro s hs
    obtain rfl : s = FairMutex.init n := hs
    exact .init
  case step =>
    intro s a s' r inv h
    obtain ⟨_, ref⟩ := exists_refines hn.le r.of_only
    have ⟨ha, h⟩ := Machine.only_step.mp h
    exact inv.step hn ref (.of_step h) fun _ => ha.of_enqueue

theorem attended_of_reachable (hn : n < 2 ^ 32)
    (r : (((machine n).only Unwrapped).logging event).Reachable (s, l)) :
    Attended (· = .asleep s.turn) (Pc.Unlocks s.turn.toInt) s.pc l := by
  apply r.logging_invariant
    (I := fun s l => Attended (· = .asleep s.turn) (Pc.Unlocks s.turn.toInt) s.pc l)
  case init =>
    intro s hs
    exact .of_none fun _ => by simp [show s = FairMutex.init n from hs, FairMutex.init]
  case step =>
    intro s a s' l r ha h
    obtain ⟨_, ref⟩ := exists_refines hn.le r.of_only
    exact (inv_of_reachable hn r).attended ref (.of_step (Machine.only_step.mp h).right) ha

theorem wakeup_unless_wrapped (hn : n < 2 ^ 32)
    (r : (((machine n).only Unwrapped).logging event).Reachable (s, l))
    (hi : s.pc i = .asleep s.turn) :
    ∃ j, (FifoLock.left l).getLast? = some j ∧
      (s.pc j = .wake s.turn.toInt ∨
        s.pc j = .test s.turn.toInt ∧ s.number ≥ .ofInt 32 s.turn.toInt) := by
  have inv := inv_of_reachable hn r.of_logging
  have ⟨j, hl, hj⟩ := attended_of_reachable hn r i hi
  refine ⟨j, hl, ?_⟩
  cases hj
  case inl hj => exact .inr ⟨hj, inv.le_number hi⟩
  case inr hj => exact .inl hj

-- Thread 1 sleeps with ticket 1 while thread 0 is about to make its test.
theorem wakeup_unless_wrapped_two :
    ∃ (s : State 2) (l : List (Event (Fin 2))), s.turn = 1 ∧ s.pc 1 = .asleep s.turn ∧
      ∃ j, (FifoLock.left l).getLast? = some j ∧
        (s.pc j = .wake s.turn.toInt ∨
          s.pc j = .test s.turn.toInt ∧ s.number ≥ .ofInt 32 s.turn.toInt) :=
  have ⟨s, l, h, ht, hi⟩ : ∃ s l, (((machine 2).only Unwrapped).logging event).exec (init 2, [])
      (Machine.schedule [(3, .thread 0), (4, .thread 1), (2, .thread 0)]) = some (s, l) ∧
      s.turn = 1 ∧ s.pc 1 = .asleep s.turn :=
    ⟨_, _, rfl, rfl, rfl⟩
  ⟨s, l, ht, hi, wakeup_unless_wrapped (by decide) (.of_exec (by exact ⟨rfl, rfl⟩) h) hi⟩

-- Nobody is inside, and the next ticket is the given one.
def paused (v : BitVec 32) : State 2 where
  pc _   := .idle
  number := v
  turn   := v

-- Thread 0 locks and unlocks.
theorem run_cycle (v : BitVec 32) :
    (machine 2).Run (paused v) (.replicate 7 (.thread 0)) (paused (v + 1)) := by
  have hp (p : Pc) : update (fun j => (update (fun _ : Fin 2 => Pc.idle) 0 p j).woken) 0 .idle =
      fun _ => Pc.idle := by
    funext j
    match j with
    | 0 => simp
    | 1 => simp [Pc.woken]
  rw [Machine.Run.iff_exec]
  simp [Machine.exec, List.replicate, machine, FairMutex.step, threadStep, paused, State.goto, hp,
    -BitVec.toInt_add]

theorem paused_reachable (k : ℕ) : (machine 2).Reachable (paused (.ofNat 32 k)) := by
  induction k
  case zero      => exact .init rfl
  case succ k hr => exact BitVec.ofNat_add k 1 ▸ (run_cycle _).reachable hr

-- Thread 0 has the last ticket but one, and `number` wraps when thread 1 takes the last one.
theorem wrapped_number_leaves_sleeper :
    ∃ (s : State 2) (l : List (Event (Fin 2))), ((machine 2).logging event).Reachable (s, l) ∧
      s.pc 0 = .idle ∧ s.pc 1 = .asleep s.turn ∧
      ¬∃ j, (FifoLock.left l).getLast? = some j ∧
        (s.pc j = .wake s.turn.toInt ∨
          s.pc j = .test s.turn.toInt ∧ s.number ≥ .ofInt 32 s.turn.toInt) := by
  have ⟨s, h, h₀, h₁⟩ : ∃ s, (machine 2).exec (paused (.ofNat 32 (2 ^ 32 - 2))) (Machine.schedule
      [(3, .thread 0), (4, .thread 1), (3, .thread 0)]) = some s ∧
      s.pc 0 = .idle ∧ s.pc 1 = .asleep s.turn :=
    ⟨_, rfl, rfl, rfl⟩
  have r := (Machine.Run.iff_exec.mpr h).reachable (paused_reachable _)
  obtain ⟨l, r⟩ : ∃ l, ((machine 2).logging event).Reachable (s, l) := r.exists_logging
  refine ⟨s, l, r, h₀, h₁, ?_⟩
  intro ⟨j, _, hj⟩
  match j with
  | 0 => simp [h₀] at hj
  | 1 => simp [h₁] at hj

end FairMutex
