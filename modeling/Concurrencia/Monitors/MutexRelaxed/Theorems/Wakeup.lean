import Concurrencia.Monitors.MutexRelaxed.Basic
import Concurrencia.Threads.Basic
import Mathlib.Tactic.SplitIfs

open Function Threads

namespace MutexRelaxed

section Step

-- One constructor for each way through a statement.
inductive Step {n : ℕ} (s : State n) : Label n → State n → Prop
  | call : (s.pc i = .idle) → Step s (.thread i) (s.goto i .lockMutex)
  | take : (s.pc i = .lockMutex ∨ s.pc i = .relock) → (s.mutex = false) →
    Step s (.thread i) ({ s with mutex := true }.goto i .test)
  | taken : (s.pc i = .test) → (s.locked ≠ 0) → Step s (.thread i) (s.goto i .wait)
  | free : (s.pc i = .test) → (s.locked = 0) → Step s (.thread i) (s.goto i .set)
  | wait : (s.pc i = .wait) → Step s (.thread i) ({ s with mutex := false }.goto i .waiting)
  | set : (s.pc i = .set) → Step s (.thread i) ({ s with locked := 1 }.goto i .unlockMutex)
  | acquire : (s.pc i = .unlockMutex) →
    Step s (.thread i) ({ s with mutex := false }.goto i .critical)
  | leave : (s.pc i = .critical) → Step s (.thread i) (s.goto i .store)
  | store : (s.pc i = .store) → Step s (.thread i) ({ s with locked := 0 }.goto i .signal)
  | signalNone : (s.pc i = .signal) → (∀ j, s.pc j ≠ .waiting) →
    Step s (.thread i) (s.goto i .idle)
  | signal : (s.pc i = .signal) → (s.pc j = .waiting) →
    Step s (.signal i j) ((s.goto i .idle).goto j .relock)
  | spurious : (s.pc i = .waiting) → Step s (.spurious i) (s.goto i .relock)

variable {n : ℕ} {s s' : State n} {i : Fin n} {l : Label n}

theorem Step.of_thread (h : threadStep s i = some s') : Step s (.thread i) s' := by
  cases hp : s.pc i <;> simp only [threadStep, takeMutex, hp] at h
  case lockMutex =>
    split_ifs at h with hm
    cases h
    exact .take (.inl hp) (Bool.not_eq_true _ ▸ hm)
  case relock =>
    split_ifs at h with hm
    cases h
    exact .take (.inr hp) (Bool.not_eq_true _ ▸ hm)
  case test =>
    split_ifs at h with hl
    all_goals cases h
    · exact .taken hp hl
    · exact .free hp (not_not.mp hl)
  case signal =>
    split_ifs at h with hj
    cases h
    exact .signalNone hp (not_exists.mp hj)
  all_goals cases h
  case idle        => exact .call hp
  case wait        => exact .wait hp
  case set         => exact .set hp
  case unlockMutex => exact .acquire hp
  case critical    => exact .leave hp
  case store       => exact .store hp

theorem Step.of_step (h : step s l = some s') : Step s l s' := by
  cases l <;> simp only [step, signalStep, spuriousStep] at h
  case thread => exact .of_thread h
  case signal =>
    split_ifs at h with hp
    cases h
    exact .signal hp.left hp.right
  case spurious =>
    split_ifs at h with hp
    cases h
    exact .spurious hp

end Step

namespace Pc

def HasMutex : Pc → Prop
  | test | wait | set | unlockMutex => True
  | _                               => False

-- Between the two stores to `locked`.
def Holds : Pc → Prop
  | unlockMutex | critical | store => True
  | _                              => False

-- A thread which is awake inside of `lock`.
def Contends : Pc → Prop
  | lockMutex | test | wait | relock | set | unlockMutex => True
  | _                                                    => False

-- Inside of `unlock` with the signal ahead.
def Signals : Pc → Prop
  | store | signal => True
  | _              => False

-- These threads care for the sleepers: they will signal, or they will take the lock and then
-- signal, or they will sleep themselves while another thread cares.
def Cares (p : Pc) : Prop :=
  p ≠ idle ∧ p ≠ waiting

theorem Cares.cases {p : Pc} (h : p.Cares) : p.Contends ∨ p = critical ∨ p.Signals := by
  cases p <;> simp_all [Cares, Contends, Signals]

end Pc

-- The signal is issued while a thread has found the lock taken but is not in the queue yet, and
-- there is nobody else around.
def Lost {n : ℕ} (s : State n) (i : Fin n) : Prop :=
  s.pc i = .signal ∧ (∃ j, s.pc j = .wait) ∧ ∀ j ≠ i, s.pc j = .idle ∨ s.pc j = .wait

def Timely {n : ℕ} (s : State n) : Label n → Prop
  | .thread i                  => ¬Lost s i
  | .signal _ _ | .spurious _ => True

instance {n : ℕ} (s : State n) : (l : Label n) → Decidable (Timely s l)
  | .thread _                  => inferInstanceAs <| Decidable (¬(_ ∧ _))
  | .signal _ _ | .spurious _ => inferInstanceAs <| Decidable True

variable {n : ℕ} {s s' : State n} {i j : Fin n} {l : Label n} {p : Pc}

structure Inv (s : State n) : Prop where
  mutex : Exclusive s.pc Pc.HasMutex (s.mutex = true)
  held  : s.locked ≠ 0 → ∃ i, (s.pc i).Holds

namespace Inv

theorem init : Inv (init n) where
  mutex  := ⟨False.elim, False.elim⟩
  held h := absurd rfl h

variable (inv : Inv s)
include inv

theorem held_goto (hp : p.Holds ↔ (s.pc i).Holds) (h : s.locked ≠ 0) :
    ∃ j, (update s.pc i p j).Holds :=
  have ⟨j, hj⟩ := inv.held h
  ⟨j, (update_iff hp j).mpr hj⟩

theorem goto (hm : p.HasMutex ↔ (s.pc i).HasMutex) (hp : p.Holds ↔ (s.pc i).Holds) :
    Inv (s.goto i p) where
  mutex := inv.mutex.keep hm
  held  := inv.held_goto hp

theorem step (h : Step s l s') : Inv s' := by
  cases h
  case call hp | taken hp _ | free hp _ | leave hp | signalNone hp _ | spurious hp =>
    exact inv.goto (by simp [hp, Pc.HasMutex]) (by simp [hp, Pc.Holds])
  case signal i j hi hj =>
    have hn : j ≠ i := fun h => by simp [← h, hj] at hi
    have inv := inv.goto (i := i) (p := .idle) (by simp [hi, Pc.HasMutex]) (by simp [hi, Pc.Holds])
    exact inv.goto (by simp [hn, hj, Pc.HasMutex]) (by simp [hn, hj, Pc.Holds])
  case take hp hm =>
    exact {
      mutex := inv.mutex.take (by simp [hm]) rfl
      held  := inv.held_goto (by cases hp <;> simp_all [Pc.Holds])
    }
  case wait hp =>
    exact {
      mutex := inv.mutex.free (by simp [hp, Pc.HasMutex]) id
      held  := inv.held_goto (by simp [hp, Pc.Holds])
    }
  case acquire hp =>
    exact {
      mutex := inv.mutex.free (by simp [hp, Pc.HasMutex]) id
      held  := inv.held_goto (by simp [hp, Pc.Holds])
    }
  case set i hp =>
    exact {
      mutex  := inv.mutex.keep (by simp [hp, Pc.HasMutex])
      held _ := ⟨i, by simp [Pc.Holds]⟩
    }
  case store hp =>
    exact {
      mutex  := inv.mutex.keep (by simp [hp, Pc.HasMutex])
      held h := absurd rfl h
    }

end Inv

theorem inv_of_reachable (r : (machine n).Reachable s) : Inv s := by
  apply r.invariant
  case init =>
    intro _ h
    exact h ▸ .init
  case step =>
    intro _ _ _ _ inv h
    exact inv.step (.of_step h)

-- Also the threads which have decided to sleep are cared for.
def Attended (s : State n) : Prop :=
  ∀ i, s.pc i = .wait ∨ s.pc i = .waiting → ∃ j ≠ i, (s.pc j).Cares

namespace Attended

theorem of_cares (hp : s'.pc = update s.pc i p) (hc : p.Cares) (hw : p ≠ .wait) : Attended s' := by
  intro j hj
  refine ⟨i, ?_, by simpa [hp] using hc⟩
  intro hij
  cases hj <;> simp_all [Pc.Cares]

theorem step (h : Attended s) (inv : Inv s) (ht : Timely s l) (hs : Step s l s') :
    Attended s' := by
  cases hs
  case call | take | free | set | acquire | leave | store | spurious =>
    exact .of_cares rfl (by simp [Pc.Cares]) (by simp)
  case signal => exact .of_cares rfl (by simp [Pc.Cares]) (by simp)
  case taken i hp hl =>
    have ⟨k, hk⟩ := inv.held hl
    have hki : k ≠ i := fun h => by simp [h, hp, Pc.Holds] at hk
    have hkc : (s.pc k).Cares := by cases hp : s.pc k <;> simp_all [Pc.Holds, Pc.Cares]
    intro j hj
    by_cases hji : j = i
    case pos => exact ⟨k, hji ▸ hki, by simpa [hki] using hkc⟩
    case neg => exact ⟨i, Ne.symm hji, by simp [Pc.Cares]⟩
  case wait i hp =>
    have ⟨k, hki, hk⟩ := h i (.inl hp)
    intro j hj
    refine ⟨k, ?_, by simpa [hki] using hk⟩
    rintro rfl
    have hi : (s.pc i).HasMutex := by simp [hp, Pc.HasMutex]
    cases hj
    case inl hj =>
      have hj : s.pc k = .wait := by simpa [hki] using hj
      exact hki <| inv.mutex.unique (by simp [hj, Pc.HasMutex]) hi
    case inr hj =>
      have hj : s.pc k = .waiting := by simpa [hki] using hj
      simp [hj, Pc.Cares] at hk
  case signalNone i hp hn =>
    intro j hj
    have hji : j ≠ i := by
      rintro rfl
      simp at hj
    have hj : s.pc j = .wait := by simpa [hji, hn j] using hj
    by_contra hc
    refine ht ⟨hp, ⟨j, hj⟩, fun k hki => ?_⟩
    by_contra hk
    have ⟨hk₀, hk₁⟩ := not_or.mp hk
    have hkj : k ≠ j := fun h => hk₁ (h ▸ hj)
    exact hc ⟨k, hkj, by simpa [hki] using ⟨hk₀, hn k⟩⟩

end Attended

theorem attended_of_reachable (r : ((machine n).only Timely).Reachable s) : Attended s := by
  apply r.invariant
  case init =>
    intro _ h _ hi
    simp [show _ = MutexRelaxed.init n from h, MutexRelaxed.init] at hi
  case step =>
    intro _ _ _ r h hs
    have ⟨ht, hs⟩ := Machine.only_step.mp hs
    exact h.step (inv_of_reachable r.of_only) ht (.of_step hs)

theorem timely_signal (r : ((machine n).only Timely).Reachable s) (hs : s.pc i = .waiting) :
    ∃ j, (s.pc j).Contends ∨ s.pc j = .critical ∨ (s.pc j).Signals :=
  have ⟨j, _, hj⟩ := attended_of_reachable r i (.inr hs)
  ⟨j, hj.cases⟩

-- Thread 1 waits when thread 0 has freed the lock and has the signal ahead.
theorem timely_signal_two :
    ∃ s : State 2, s.pc 1 = .waiting ∧ s.locked = 0 ∧
      ∃ j, (s.pc j).Contends ∨ s.pc j = .critical ∨ (s.pc j).Signals :=
  have ⟨s, h, hs, hl⟩ : ∃ s, ((machine 2).only Timely).exec (init 2)
      (Machine.schedule [(5, .thread 0), (4, .thread 1), (2, .thread 0)]) = some s ∧
      s.pc 1 = .waiting ∧ s.locked = 0 :=
    ⟨_, rfl, rfl, rfl⟩
  ⟨s, hs, hl, timely_signal (.of_exec rfl h) hs⟩

-- Thread 0 frees the lock and signals between the test of thread 1 and its wait.
theorem early_signal_leaves_sleeper :
    ∃ s : State 2, (machine 2).Reachable s ∧ s.pc 0 = .idle ∧ s.pc 1 = .waiting ∧ s.locked = 0 ∧
      ¬∃ j, (s.pc j).Contends ∨ s.pc j = .critical ∨ (s.pc j).Signals := by
  have ⟨s, h, h₀, h₁, hl⟩ : ∃ s, (machine 2).exec (init 2) (Machine.schedule
      [(5, .thread 0), (3, .thread 1), (3, .thread 0), (1, .thread 1)]) = some s ∧
      s.pc 0 = .idle ∧ s.pc 1 = .waiting ∧ s.locked = 0 :=
    ⟨_, rfl, rfl, rfl, rfl⟩
  refine ⟨s, .of_exec rfl h, h₀, h₁, hl, ?_⟩
  intro ⟨j, hj⟩
  match j with
  | 0 => simp [h₀, Pc.Contends, Pc.Signals] at hj
  | 1 => simp [h₁, Pc.Contends, Pc.Signals] at hj

end MutexRelaxed
