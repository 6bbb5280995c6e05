import Concurrencia.Futex.FairMutexSpin.Theorems.Order

open Function

namespace FairMutexSpin

open FifoLock (Event Distinct Attended turns)

namespace Pc

-- Inside of `unlock` after the increment of `turn` and before the last test, with the given value
-- of `current`.
def Tests (c : ℤ) (p : Pc) : Prop :=
  (∃ k, p = spinCurrent c k) ∨ p = test c

def Unlocks (c : ℤ) (p : Pc) : Prop :=
  p.Tests c ∨ p = wake c

end Pc

variable {n : ℕ} {s s' s₀ : State n} {i j : Fin n} {p : Pc} {as : List (Label n)}
variable {t : FifoLock.State (Fin n)} {l l₀ : List (Event (Fin n))} {e : Option (Event (Fin n))}

namespace Refines

variable (ref : Refines s l t)
include ref

theorem current_le (h : Step s e s') : s.current ≤ s'.current := by
  cases h
  case storeCurrent hp => exact ref.stores hp ▸ ref.current
  all_goals exact BitVec.le_refl _

-- While the thread whose turn it is sleeps, nobody has stored its ticket since the last `unlock`.
theorem current_lt (hq : t.queue.length < 2 ^ 32) (hi : s.pc i = .asleep s.turn)
    (hl : FifoLock.left l ≠ []) : s.current < s.turn := by
  have hd : Distinct (turns s.turn) t := FifoLock.distinct_turns hq.le
  have ⟨_, ht⟩ := ref.counted.serves.head_of_turn (i := i) hd
    (by simp [hi, Pc.stage, FifoLock.turns_zero])
  refine ref.late (fun j hj => ref.counted.serves.not_inside ht j ?_) hl
  cases hj <;> simp [*, Pc.stage]

theorem attended (hq : t.queue.length < 2 ^ 32) (h : Step s e s')
    (ha : Attended (· = .asleep s.turn) (Pc.Unlocks s.turn.toInt) s.pc l) :
    Attended (· = .asleep s'.turn) (Pc.Unlocks s'.turn.toInt) s'.pc (l ++ e.toList) := by
  cases h
  case call hp | spin hp | spun hp | early hp _ | storeCurrent hp | leave hp =>
    exact ha.keep (by simp) (by simp) (by simp [hp, Pc.Unlocks, Pc.Tests])
  case retry hp =>
    refine ha.keep (by simp) (by simp) ?_
    cases hp <;> simp [*, Pc.Unlocks, Pc.Tests]
  case spinCurrent hp | spunCurrent hp | rouse hp _ =>
    exact ha.keep (by simp) (by simp) (by simp [hp, Pc.Unlocks, Pc.Tests])
  case fetchAdd hp | enter hp =>
    exact ha.keep (by simp [FifoLock.left_append, Event.left]) (by simp)
      (by simp [hp, Pc.Unlocks, Pc.Tests])
  case sleep hp =>
    refine ha.keep (by simp) ?_ (by simp [hp, Pc.Unlocks, Pc.Tests])
    exact fun h => absurd (Pc.asleep.inj h) (ref.waits hp)
  case addFetch => exact .leave (.inl (.inl ⟨0, rfl⟩))
  case done c hp hc =>
    by_cases ht : c = s.turn.toInt
    case pos =>
      refine ha.finish ?_ fun hj => ?_
      · simp
      · by_contra hl
        refine hc ?_
        rw [ht, BitVec.ofInt_toInt]
        exact ref.current_lt hq hj hl
    case neg => exact ha.keep (by simp) (by simp) (by simp [hp, Pc.Unlocks, Pc.Tests, ht])
  case wake =>
    refine .of_none <| Threads.not_update (P := (· = _)) ?_ fun j _ hj => ?_
    · simp
    · cases hp : s.pc j <;> simp [hp, Pc.woken] at hj

end Refines

theorem attended_of_reachable (r : ((machine n).logging event).Reachable (s, l))
    (hl : (FifoLock.enqueued l).length < 2 ^ 32) :
    Attended (· = .asleep s.turn) (Pc.Unlocks s.turn.toInt) s.pc l := by
  have h := FifoLock.simulation_below (R := fun s l t => Refines s l t ∧
    Attended (· = .asleep s.turn) (Pc.Unlocks s.turn.toInt) s.pc l) r hl ?start ?step
  case start =>
    intro s hs
    obtain rfl : s = FairMutexSpin.init n := hs
    exact ⟨.init, .of_none fun _ => by simp [FairMutexSpin.init]⟩
  case step =>
    intro s a s' l t ⟨ref, ha⟩ hq h
    have h := Step.of_step h
    obtain ⟨t', run, ref'⟩ := ref.step hq h
    exact ⟨t', run, ref', ref.attended ((Nat.le_add_left ..).trans_lt hq) h ha⟩
  obtain ⟨_, _, _, ha⟩ := h
  exact ha

theorem current_mono (r₀ : ((machine n).logging event).Reachable (s₀, l₀))
    (r : ((machine n).logging event).Run (s₀, l₀) as (s, l))
    (hl : (FifoLock.enqueued l).length < 2 ^ 32) : s₀.current ≤ s.current := by
  have h := r.invariant (I := fun p => ((machine n).logging event).Reachable p ∧
    ((FifoLock.enqueued p.snd).length < 2 ^ 32 → s₀.current ≤ p.fst.current)) ?start ?step
  case start => exact ⟨r₀, fun _ => BitVec.le_refl _⟩
  case step =>
    intro ⟨s, l⟩ a ⟨s', l'⟩ ⟨r, hi⟩ h
    refine ⟨r.step h, fun hl => ?_⟩
    obtain ⟨hs, rfl⟩ := Machine.logging_step.mp h
    have hl := FifoLock.enqueued_prefix.length_le.trans_lt hl
    have ⟨t, _, ref⟩ := refines_of_reachable r hl
    exact BitVec.le_trans (hi hl) (ref.current_le (.of_step hs))
  exact h.right hl

theorem spin_wakeup (r₀ : ((machine n).logging event).Reachable (s₀, l₀))
    (r : ((machine n).logging event).Run (s₀, l₀) as (s, l))
    (hl : (FifoLock.enqueued l).length < 2 ^ 32) :
    (∀ i j, (s.pc i).Inside → (s.pc j).Inside → i = j) ∧
    FifoLock.entered l <+: FifoLock.enqueued l ∧
    s₀.current ≤ s.current ∧
    ∀ i, s.pc i = .asleep s.turn → ∃ j, (FifoLock.left l).getLast? = some j ∧
      (s.pc j = .wake s.turn.toInt ∨
        (s.pc j).Tests s.turn.toInt ∧ .ofInt 32 s.turn.toInt > s.current) := by
  have hr := r.reachable r₀
  have ⟨t, run, ref⟩ := refines_of_reachable hr hl
  refine ⟨fun _ _ => ref.inside_unique, FifoLock.entered_enqueued run, current_mono r₀ r hl, ?_⟩
  intro i hi
  have ⟨j, hj, hp⟩ := attended_of_reachable hr hl i hi
  refine ⟨j, hj, ?_⟩
  cases hp
  case inr hp => exact .inl hp
  case inl hp =>
    refine .inr ⟨hp, ?_⟩
    rw [BitVec.ofInt_toInt]
    exact ref.current_lt (FifoLock.queue_length_le run |>.trans_lt hl) hi fun h => by simp [h] at hj

-- Thread 1 sleeps with ticket 1, and thread 0 has spun a hundred times in `unlock`.
set_option maxRecDepth 8192 in
theorem spin_wakeup_two :
    ∃ (s₀ s : State 2) (l : List (Event (Fin 2))),
      s.turn = 1 ∧ s.pc 1 = .asleep s.turn ∧ s.pc 0 = .test s.turn.toInt ∧
      (∀ i j, (s.pc i).Inside → (s.pc j).Inside → i = j) ∧
      FifoLock.entered l <+: FifoLock.enqueued l ∧
      s₀.current ≤ s.current ∧
      ∀ i, s.pc i = .asleep s.turn → ∃ j, (FifoLock.left l).getLast? = some j ∧
        (s.pc j = .wake s.turn.toInt ∨
          (s.pc j).Tests s.turn.toInt ∧ .ofInt 32 s.turn.toInt > s.current) :=
  have ⟨s, l, h, ht, hi, hj, hl⟩ : ∃ s l, ((machine 2).logging event).exec (init 2, [])
      (Machine.schedule [(5, .thread 0), (105, .thread 1), (103, .thread 0)]) = some (s, l) ∧
      s.turn = 1 ∧ s.pc 1 = .asleep s.turn ∧ s.pc 0 = .test s.turn.toInt ∧
      (FifoLock.enqueued l).length = 2 :=
    ⟨_, _, rfl, rfl, rfl, rfl, rfl⟩
  ⟨init 2, s, l, ht, hi, hj, spin_wakeup (.init (by exact ⟨rfl, rfl⟩)) (Machine.Run.iff_exec.mpr h)
    (hl.trans_lt (by decide))⟩

end FairMutexSpin
