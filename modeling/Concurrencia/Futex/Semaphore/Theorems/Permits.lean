import Concurrencia.Futex.Semaphore.Basic
import Concurrencia.Threads.Basic
import Concurrencia.Threads.Count
import Mathlib.Tactic.SplitIfs

open Function Threads

namespace Semaphore

section Step

open CountingSemaphore (Event)

-- The schedulers under which a `FUTEX_WAIT` returns only because of a `FUTEX_WAKE`.
def Woken {n : ℕ} (_ : State n) : Label n → Prop
  | .wait _ | .signal _ | .thread _ | .wake _ _ => True
  | .spurious _                                 => False

instance {n : ℕ} (s : State n) : (l : Label n) → Decidable (Woken s l)
  | .wait _ | .signal _ | .thread _ | .wake _ _ => inferInstanceAs <| Decidable True
  | .spurious _                                 => inferInstanceAs <| Decidable False

-- One constructor for each way through a statement, with the event it causes.
inductive Step {n : ℕ} (s : State n) : Option (Event (Fin n)) → State n → Prop
  | callWait : (s.pc i = .idle) → Step s none (s.goto i .subFetch)
  | callSignal : (s.pc i = .idle) → Step s (some (.signal i)) (s.goto i .addFetch)
  | pass : (s.pc i = .subFetch) → (0 < s.value) →
    Step s (some (.wait i)) ({ s with value := s.value - 1 }.goto i .idle)
  | register : (s.pc i = .subFetch) → (s.value ≤ 0) →
    Step s none ({ s with value := s.value - 1 }.goto i .futexWait)
  | sleep : (s.pc i = .futexWait) → Step s none (s.goto i .asleep)
  | post : (s.pc i = .addFetch) → (0 ≤ s.value) →
    Step s none ({ s with value := s.value + 1 }.goto i .idle)
  | rouse : (s.pc i = .addFetch) → (s.value < 0) →
    Step s none ({ s with value := s.value + 1 }.goto i .futexWake)
  | retry : (s.pc i = .futexWake) → Step s none (s.goto i .futexWake)
  | wake : (s.pc i = .futexWake) → (s.pc j = .asleep) →
    Step s (some (.wait j)) ((s.goto i .idle).goto j .idle)

variable {n : ℕ} {s s' : State n} {i : Fin n} {l : Label n}

theorem Step.of_thread (h : threadStep s i = some s') : Step s (event s (.thread i)) s' := by
  cases hp : s.pc i <;> simp only [threadStep, event, hp, reduceCtorEq, false_and, if_false] at h ⊢
  case subFetch =>
    split_ifs at h with hv
    all_goals cases h
    · rw [if_neg (by simp [hv])]
      exact .register hp (by omega)
    · rw [if_pos ⟨trivial, hv⟩]
      exact .pass hp (by omega)
  case addFetch =>
    split_ifs at h with hv
    all_goals cases h
    · exact .rouse hp (by omega)
    · exact .post hp (by omega)
  case futexWake =>
    split_ifs at h with hj
    cases h
    exact .retry hp
  all_goals cases h
  case futexWait => exact .sleep hp

theorem Step.of_step (hl : Woken s l) (h : step s l = some s') : Step s (event s l) s' := by
  cases l <;> simp only [step, wakeStep, Option.ite_none_right_eq_some, Option.some.injEq] at h
  case thread   => exact .of_thread h
  case spurious => exact hl.elim
  case wait     => exact h.right ▸ .callWait h.left
  case signal   => exact h.right ▸ .callSignal h.left
  case wake     => exact h.right ▸ .wake h.left.left h.left.right

end Step

open CountingSemaphore (Event waits signals)

namespace Pc

-- A waiter which is asleep or on its way from the registration to `FUTEX_WAIT`.
def Registered (p : Pc) : Prop :=
  p = futexWait ∨ p = asleep

instance : DecidablePred Registered :=
  fun _ => inferInstanceAs <| Decidable (_ ∨ _)

-- In the loop around `FUTEX_WAKE`.
def Rouses (p : Pc) : Prop :=
  p = futexWake

instance : DecidablePred Rouses :=
  fun _ => inferInstanceAs <| Decidable (_ = _)

-- The signal has begun and has not left its permit yet.
def Signals (p : Pc) : Prop :=
  p = addFetch

instance : DecidablePred Signals :=
  fun _ => inferInstanceAs <| Decidable (_ = _)

end Pc

variable {n v t : ℕ} {s s' : State n} {i j : Fin n} {p : Pc} {e : Option (Event (Fin n))}
variable {l : List (Event (Fin n))}

-- A negative value counts the waiters which no signal has been matched with yet.
structure Refines (s : State n) (t : ℕ) : Prop where
  permits : t = s.value + count s.pc Pc.Registered + count s.pc Pc.Signals
  matched : count s.pc Pc.Registered = count s.pc Pc.Rouses + (-s.value).toNat

namespace Refines

theorem init : Refines (init n v) v where
  permits := by
    simp [Semaphore.init, count_eq_zero, Pc.Registered, Pc.Signals]
  matched := by
    simp [Semaphore.init, count_eq_zero, Pc.Registered, Pc.Rouses]

variable (ref : Refines s t)
include ref

-- There are not more waiters than threads, and not more permits than signals.
theorem value_range : -n ≤ s.value ∧ s.value ≤ t := by
  have hp := ref.permits
  have hm := ref.matched
  have hn := count_le_card (f := s.pc) (P := Pc.Registered)
  rw [Fintype.card_fin] at hn
  omega

-- The step of a thread which stays in each of the counts it is in.
theorem goto (hr : p.Registered ↔ (s.pc i).Registered) (hw : p.Rouses ↔ (s.pc i).Rouses)
    (hs : p.Signals ↔ (s.pc i).Signals) : Refines (s.goto i p) t where
  permits := by
    rw [State.goto_pc, count_keep hr, count_keep hs]
    exact ref.permits
  matched := by
    rw [State.goto_pc, count_keep hr, count_keep hw]
    exact ref.matched

theorem callSignal (hi : s.pc i = .idle) : Refines (s.goto i .addFetch) (t + 1) where
  permits := by
    have hp := ref.permits
    have hs := count_enter (f := s.pc) (P := Pc.Signals) (p := .addFetch) (i := i)
      (by simp [hi, Pc.Signals]) rfl
    rw [State.goto_pc, count_keep (by simp [hi, Pc.Registered]), hs, State.goto_value]
    omega
  matched := by
    rw [State.goto_pc, count_keep (by simp [hi, Pc.Registered]),
      count_keep (by simp [hi, Pc.Rouses])]
    exact ref.matched

theorem pass (hi : s.pc i = .subFetch) (hv : 0 < s.value) :
    ∃ t', CountingSemaphore.Step t (.wait i) t' ∧
      Refines ({ s with value := s.value - 1 }.goto i .idle) t' := by
  have hp := ref.permits
  obtain ⟨t, rfl⟩ : ∃ t', t = t' + 1 := ⟨t - 1, by omega⟩
  refine ⟨t, .wait, ?_⟩
  have hm := ref.matched
  exact {
    permits := by
      rw [State.goto_pc, count_keep (by simp [hi, Pc.Registered]),
        count_keep (by simp [hi, Pc.Signals]), State.goto_value]
      dsimp only
      omega
    matched := by
      rw [State.goto_pc, count_keep (by simp [hi, Pc.Registered]),
        count_keep (by simp [hi, Pc.Rouses]), State.goto_value]
      dsimp only
      omega
  }

theorem register (hi : s.pc i = .subFetch) (hv : s.value ≤ 0) :
    Refines ({ s with value := s.value - 1 }.goto i .futexWait) t := by
  have hp := ref.permits
  have hm := ref.matched
  have hr := count_enter (f := s.pc) (P := Pc.Registered) (i := i) (p := .futexWait)
    (by simp [hi, Pc.Registered]) (.inl rfl)
  exact {
    permits := by
      rw [State.goto_pc, hr, count_keep (by simp [hi, Pc.Signals]), State.goto_value]
      dsimp only
      omega
    matched := by
      rw [State.goto_pc, hr, count_keep (by simp [hi, Pc.Rouses]), State.goto_value]
      dsimp only
      omega
  }

theorem post (hi : s.pc i = .addFetch) (hv : 0 ≤ s.value) :
    Refines ({ s with value := s.value + 1 }.goto i .idle) t := by
  have hp := ref.permits
  have hm := ref.matched
  have hs := count_leave (f := s.pc) (P := Pc.Signals) (i := i) (p := .idle) hi
    (by simp [Pc.Signals])
  exact {
    permits := by
      rw [State.goto_pc, count_keep (by simp [hi, Pc.Registered]), State.goto_value]
      dsimp only
      omega
    matched := by
      rw [State.goto_pc, count_keep (by simp [hi, Pc.Registered]),
        count_keep (by simp [hi, Pc.Rouses]), State.goto_value]
      dsimp only
      omega
  }

theorem rouse (hi : s.pc i = .addFetch) (hv : s.value < 0) :
    Refines ({ s with value := s.value + 1 }.goto i .futexWake) t := by
  have hp := ref.permits
  have hm := ref.matched
  have hs := count_leave (f := s.pc) (P := Pc.Signals) (i := i) (p := .futexWake) hi
    (by simp [Pc.Signals])
  have hw := count_enter (f := s.pc) (P := Pc.Rouses) (i := i) (p := .futexWake)
    (by simp [hi, Pc.Rouses]) rfl
  exact {
    permits := by
      rw [State.goto_pc, count_keep (by simp [hi, Pc.Registered]), State.goto_value]
      dsimp only
      omega
    matched := by
      rw [State.goto_pc, count_keep (by simp [hi, Pc.Registered]), hw, State.goto_value]
      dsimp only
      omega
  }

theorem wake (hi : s.pc i = .futexWake) (hj : s.pc j = .asleep) :
    ∃ t', CountingSemaphore.Step t (.wait j) t' ∧ Refines ((s.goto i .idle).goto j .idle) t' := by
  have hp := ref.permits
  have hm := ref.matched
  have hn : j ≠ i := fun h => by simp [← h, hj] at hi
  have hj : (s.goto i .idle).pc j = .asleep := by simpa [hn] using hj
  have hw := count_leave (f := s.pc) (P := Pc.Rouses) (i := i) (p := .idle) hi
    (by simp [Pc.Rouses])
  have hr := count_leave (f := (s.goto i .idle).pc) (P := Pc.Registered) (i := j) (p := .idle)
    (.inr hj) (by simp [Pc.Registered])
  rw [State.goto_pc, count_keep (f := s.pc) (by simp [hi, Pc.Registered])] at hr
  obtain ⟨t, rfl⟩ : ∃ t', t = t' + 1 := ⟨t - 1, by omega⟩
  refine ⟨t, .wait, ?_⟩
  exact {
    permits := by
      rw [State.goto_pc, count_keep (P := Pc.Signals) (by simp [hj, Pc.Signals]), State.goto_pc,
        count_keep (P := Pc.Signals) (by simp [hi, Pc.Signals])]
      dsimp only [State.goto_value]
      omega
    matched := by
      rw [State.goto_pc, count_keep (P := Pc.Rouses) (by simp [hj, Pc.Rouses]), State.goto_pc]
      dsimp only [State.goto_value]
      omega
  }

-- Each step of the code is one of the specification, or none.
theorem step (h : Step s e s') :
    ∃ t', (CountingSemaphore.machine (Fin n) v).Run t e.toList t' ∧ Refines s' t' := by
  cases h <;> simp only [Option.toList]
  case callSignal hi  => exact CountingSemaphore.run_of_step ⟨_, .signal, ref.callSignal hi⟩
  case pass hi hv     => exact CountingSemaphore.run_of_step <| ref.pass hi hv
  case wake hi hj     => exact CountingSemaphore.run_of_step <| ref.wake hi hj
  case register hi hv => exact ⟨t, .refl, ref.register hi hv⟩
  case post hi hv     => exact ⟨t, .refl, ref.post hi hv⟩
  case rouse hi hv    => exact ⟨t, .refl, ref.rouse hi hv⟩
  case callWait hi | sleep hi | retry hi =>
    refine ⟨t, .refl, ref.goto ?_ ?_ ?_⟩
    all_goals simp [hi, Pc.Registered, Pc.Rouses, Pc.Signals]

end Refines

theorem refines_of_reachable (r : (((machine n v).only Woken).logging event).Reachable (s, l)) :
    ∃ t, (CountingSemaphore.machine (Fin n) v).Run v l t ∧ Refines s t := by
  apply r.simulation (R := fun s _ t => Refines s t)
  case init =>
    intro s hs
    exact hs ▸ .init
  case step =>
    intro s a s' l t _ ref h
    have ⟨ha, h⟩ := Machine.only_step.mp h
    exact ref.step (.of_step ha h)

end Semaphore
