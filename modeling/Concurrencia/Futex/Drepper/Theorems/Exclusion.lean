import Concurrencia.Futex.Drepper.Basic
import Mathlib.Tactic.SplitIfs
import Mathlib.Data.Set.Subsingleton

open Function

namespace Drepper

section Step

-- One constructor for each way through a statement.
inductive Step {n : ℕ} (s : State n) : Label n → State n → Prop
  | call     : (s.pc i = .idle) → Step s (.thread i) (s.goto i .compareExchange)
  | acquire  : (s.pc i = .compareExchange) → (s.futex = 0) →
    Step s (.thread i) ({ s with futex := 1 }.goto i .critical)
  | contend  : (s.pc i = .compareExchange) → (s.futex ≠ 0) → (p = .exchange ∨ p = .wait) →
    Step s (.thread i) (s.goto i p)
  | obtain   : (s.pc i = .exchange) → (s.futex = 0) →
    Step s (.thread i) ({ s with futex := 2 }.goto i .critical)
  | exchange : (s.pc i = .exchange) → (s.futex ≠ 0) →
    Step s (.thread i) ({ s with futex := 2 }.goto i .wait)
  | sleep    : (s.pc i = .wait) → (s.futex = 2) → Step s (.thread i) (s.goto i .asleep)
  | retry    : (s.pc i = .wait) → (s.futex ≠ 2) → Step s (.thread i) (s.goto i .exchange)
  | leave    : (s.pc i = .critical) → Step s (.thread i) (s.goto i .fetchSub)
  | release  : (s.pc i = .fetchSub) → (s.futex = 1) →
    Step s (.thread i) ({ s with futex := 0 }.goto i .idle)
  | fetchSub : (s.pc i = .fetchSub) → (s.futex ≠ 1) →
    Step s (.thread i) ({ s with futex := s.futex - 1 }.goto i .store)
  | store    : (s.pc i = .store) → Step s (.thread i) ({ s with futex := 0 }.goto i .wake)
  | wakeNone : (s.pc i = .wake) → (∀ j, s.pc j ≠ .asleep) → Step s (.thread i) (s.goto i .idle)
  | wake     : (s.pc i = .wake) → (s.pc j = .asleep) →
    Step s (.wake i j) ((s.goto i .idle).goto j .exchange)
  | spurious : (s.pc i = .wait ∨ s.pc i = .asleep) → Step s (.spurious i) (s.goto i .exchange)

variable {n : ℕ} {s s' : State n} {i j k : Fin n} {l : Label n} {p : Pc}

theorem Step.of_thread (h : threadStep s i = some s') : Step s (.thread i) s' := by
  cases hp : s.pc i <;> simp only [threadStep, hp] at h
  case compareExchange =>
    split_ifs at h with h₁ h₂
    all_goals cases h
    · exact .acquire hp h₁
    · exact .contend hp h₁ <| .inl rfl
    · exact .contend hp h₁ <| .inr rfl
  case exchange =>
    split_ifs at h with h₁
    all_goals cases h
    · exact .exchange hp h₁
    · exact .obtain hp (not_not.mp h₁)
  case wait =>
    split_ifs at h with h₁
    all_goals cases h
    · exact .sleep hp h₁
    · exact .retry hp h₁
  case fetchSub =>
    split_ifs at h with h₁
    all_goals cases h
    · exact .fetchSub hp h₁
    · rw [not_not.mp h₁]
      exact .release hp (not_not.mp h₁)
  case wake =>
    split_ifs at h with h₁
    cases h
    exact .wakeNone hp (not_exists.mp h₁)
  all_goals cases h
  case idle     => exact .call hp
  case critical => exact .leave hp
  case store    => exact .store hp

theorem Step.of_step (h : step s l = some s') : Step s l s' := by
  cases l <;> simp only [step, wakeStep, spuriousStep] at h
  case thread => exact .of_thread h
  case wake =>
    split_ifs at h with hp
    cases h
    exact .wake hp.left hp.right
  case spurious =>
    split_ifs at h with hp
    cases h
    exact .spurious hp

end Step

variable {n : ℕ} {s s' : State n} {i j : Fin n} {l : Label n} {p : Pc}

-- Between `lock` and the write of `unlock` which frees the mutex.
def Pc.Holds : Pc → Prop
  | critical | fetchSub | store => True
  | _                           => False

structure Inv (s : State n) : Prop where
  range : s.futex = 0 ∨ s.futex = 1 ∨ s.futex = 2
  free  : s.futex = 0 → ∀ i, ¬(s.pc i).Holds
  held  : s.futex ≠ 0 → ∃ i, ∀ j, (s.pc j).Holds ↔ j = i

theorem holds_goto (h : p.Holds ↔ (s.pc i).Holds) (j : Fin n) :
    ((s.goto i p).pc j).Holds ↔ (s.pc j).Holds := by
  by_cases hj : j = i
  case pos => simp [hj, h]
  case neg => simp [hj]

namespace Inv

theorem init : Inv (init n) where
  range  := .inl rfl
  free _ := fun _ => id
  held h := absurd rfl h

variable (inv : Inv s)
include inv

theorem ne_zero (h : (s.pc i).Holds) : s.futex ≠ 0 :=
  fun hf => inv.free hf i h

theorem eq_of_holds (hi : (s.pc i).Holds) (hj : (s.pc j).Holds) : i = j :=
  have ⟨_, hk⟩ := inv.held (inv.ne_zero hi)
  ((hk i).mp hi).trans ((hk j).mp hj).symm

-- The step neither takes the mutex nor frees it.
theorem keep
    (hr : s'.futex = 0 ∨ s'.futex = 1 ∨ s'.futex = 2) (hf : s'.futex = 0 ↔ s.futex = 0)
    (hp : ∀ j, (s'.pc j).Holds ↔ (s.pc j).Holds) : Inv s' where
  range  := hr
  free h := fun i hi => inv.free (hf.mp h) i <| (hp i).mp hi
  held h :=
    have ⟨i, hi⟩ := inv.held (hf.not.mp h)
    ⟨i, fun j => (hp j).trans (hi j)⟩

theorem acquire (hf : s.futex = 0) (hr : s'.futex = 1 ∨ s'.futex = 2)
    (hp : s'.pc = update s.pc i .critical) : Inv s' where
  range  := .inr hr
  free h := by omega
  held _ := by
    refine ⟨i, fun j => ?_⟩
    by_cases hj : j = i
    case pos => simp [hp, hj, Pc.Holds]
    case neg => simp [hp, hj, inv.free hf j]

theorem release (hi : (s.pc i).Holds) (hf : s'.futex = 0) (hp : s'.pc = update s.pc i p)
    (hn : ¬p.Holds) : Inv s' where
  range  := .inl hf
  held h := absurd hf h
  free _ := by
    intro j hj
    by_cases hji : j = i
    case pos => simp [hp, hji, hn] at hj
    case neg => exact hji <| inv.eq_of_holds (by simpa [hp, hji] using hj) hi

theorem step (h : Step s l s') : Inv s' := by
  cases h
  case call hp | sleep hp _ | retry hp _ | leave hp | wakeNone hp _ =>
    exact inv.keep inv.range .rfl <| holds_goto (by simp [hp, Pc.Holds])
  case contend hp hf hq =>
    exact inv.keep inv.range .rfl <| holds_goto (by cases hq <;> simp_all [Pc.Holds])
  case spurious hp =>
    exact inv.keep inv.range .rfl <| holds_goto (by cases hp <;> simp_all [Pc.Holds])
  case exchange hp hf =>
    exact inv.keep (.inr <| .inr rfl) (by simp [hf]) <| holds_goto (by simp [hp, Pc.Holds])
  case fetchSub hp hf =>
    have hn := inv.ne_zero (show (s.pc _).Holds by rw [hp]; trivial)
    have hr := inv.range
    refine inv.keep ?_ ?_ <| holds_goto (by simp [hp, Pc.Holds])
    all_goals simp only [State.goto_futex]; omega
  case acquire hp hf => exact inv.acquire hf (.inl rfl) rfl
  case obtain hp hf  => exact inv.acquire hf (.inr rfl) rfl
  case release hp _  => exact inv.release (by simp [hp, Pc.Holds]) rfl rfl id
  case store hp      => exact inv.release (by simp [hp, Pc.Holds]) rfl rfl id
  case wake i j hi hj =>
    have hn : j ≠ i := by
      intro h
      simp [← h, hj] at hi
    refine inv.keep inv.range .rfl fun k => ?_
    rw [holds_goto (by simp [hn, hj, Pc.Holds]), holds_goto (by simp [hi, Pc.Holds])]

end Inv

theorem inv_of_reachable (r : (machine n).Reachable s) : Inv s := by
  apply r.invariant
  case init =>
    intro _ h
    exact h ▸ .init
  case step =>
    intro _ _ _ _ inv h
    exact inv.step (.of_step h)

theorem one_holder (r : (machine n).Reachable s) :
    {i | (s.pc i).Holds}.Subsingleton ∧ (s.futex = 0 ∨ s.futex = 1 ∨ s.futex = 2) ∧
    ∀ i, s.pc i = .fetchSub → s.futex ≠ 0 :=
  have inv := inv_of_reachable r
  ⟨fun _ hi _ hj => inv.eq_of_holds hi hj, inv.range,
    fun i hi => inv.ne_zero (i := i) (by simp [hi, Pc.Holds])⟩

-- Thread 1 has marked the mutex as contended while thread 0 is between its decrement and the write
-- which frees the mutex.
theorem one_holder_two :
    ∃ s : State 2, s.pc 0 = .store ∧ s.futex = 2 ∧ {i | (s.pc i).Holds}.Subsingleton ∧
      (s.futex = 0 ∨ s.futex = 1 ∨ s.futex = 2) ∧ ∀ i, s.pc i = .fetchSub → s.futex ≠ 0 :=
  have ⟨s, h, hp, hf⟩ : ∃ s, (machine 2).exec (init 2) (Machine.schedule
      [(2, .thread 0), (3, .thread 1), (2, .thread 0), (1, .spurious 1), (1, .thread 1)]) = some s ∧
      s.pc 0 = .store ∧ s.futex = 2 :=
    ⟨_, rfl, rfl, rfl⟩
  ⟨s, hp, hf, one_holder (.of_exec rfl h)⟩

end Drepper
