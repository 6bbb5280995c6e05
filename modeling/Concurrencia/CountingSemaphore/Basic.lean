import Concurrencia.Machine.Basic
import Concurrencia.Machine.History
import Mathlib.Algebra.BigOperators.Group.Finset.Basic
import Mathlib.Algebra.Order.BigOperators.Group.Finset
import Mathlib.Data.Fintype.BigOperators
import Mathlib.Logic.Function.Basic

open Function

-- The purpose of a semaphore: each `signal` leaves a permit, and each `wait` takes one. The state
-- is the number of the permits which are left.
namespace CountingSemaphore

inductive Event (ι : Type*)
  | wait (i : ι)
  | signal (i : ι)
  deriving DecidableEq

inductive Step {ι : Type*} : ℕ → Event ι → ℕ → Prop
  | wait   : Step (s + 1) (.wait i) s
  | signal : Step s (.signal i) (s + 1)

def step {ι : Type*} (s : ℕ) : Event ι → Option ℕ
  | .wait _   => if s = 0 then none else some (s - 1)
  | .signal _ => some (s + 1)

def machine (ι : Type*) (v : ℕ) : Machine ℕ (Event ι) where
  init s := s = v
  step   := step

variable {ι : Type*} {s t v : ℕ} {e : Event ι}

theorem step_iff : step s e = some t ↔ Step s e t := by
  constructor
  case mp =>
    intro h
    cases e <;> simp only [step] at h
    case wait =>
      simp only [Option.ite_none_left_eq_some, Option.some.injEq] at h
      obtain ⟨t, rfl⟩ := Nat.exists_eq_succ_of_ne_zero h.left
      exact h.right ▸ .wait
    case signal =>
      cases h
      exact .signal
  case mpr =>
    intro h
    cases h
    case wait   => simp [step]
    case signal => rfl

-- A step which establishes `R` is a run which does.
theorem run_of_step {R : ℕ → Prop} (h : ∃ t, Step s e t ∧ R t) :
    ∃ t, (machine ι v).Run s [e] t ∧ R t :=
  have ⟨t, ht, hr⟩ := h
  ⟨t, .single (step_iff.mpr ht), hr⟩

variable [Fintype ι] [DecidableEq ι] {l : List (Event ι)} {i j : ι}

-- The waits which are over and the signals which have begun.
def waits (l : List (Event ι)) : ℕ :=
  ∑ i, l.count (.wait i)

def signals (l : List (Event ι)) : ℕ :=
  ∑ i, l.count (.signal i)

@[simp] theorem waits_nil : waits ([] : List (Event ι)) = 0 := by
  simp [waits]

@[simp] theorem signals_nil : signals ([] : List (Event ι)) = 0 := by
  simp [signals]

@[simp] theorem waits_wait : waits (.wait i :: l) = waits l + 1 := by
  simp [waits, List.count_cons, Finset.sum_add_distrib]

@[simp] theorem waits_signal : waits (.signal i :: l) = waits l := by
  simp [waits]

@[simp] theorem signals_wait : signals (.wait i :: l) = signals l := by
  simp [signals]

@[simp] theorem signals_signal : signals (.signal i :: l) = signals l + 1 := by
  simp [signals, List.count_cons, Finset.sum_add_distrib]

end CountingSemaphore

-- A semaphore as its callers see it. A call of `signal` leaves its permit when it begins, and a
-- call of `wait` takes one when it returns.
namespace SemaphoreCalls

inductive Event (ι : Type*)
  | callWait (i : ι)
  | returnWait (i : ι)
  | callSignal (i : ι)
  | returnSignal (i : ι)
  deriving DecidableEq

inductive Phase
  | idle | waiting | signalling
  deriving DecidableEq

structure State (ι : Type*) where
  phase : ι → Phase
  permits : ℕ

variable {ι : Type*} [DecidableEq ι]

def init (v : ℕ) : State ι where
  phase _ := .idle
  permits := v

def step (s : State ι) : Event ι → Option (State ι)
  | .callWait i     =>
    if s.phase i = .idle then some { s with phase := update s.phase i .waiting } else none
  | .returnWait i   =>
    if s.phase i = .waiting ∧ 0 < s.permits then
      some ⟨update s.phase i .idle, s.permits - 1⟩
    else none
  | .callSignal i   =>
    if s.phase i = .idle then some ⟨update s.phase i .signalling, s.permits + 1⟩ else none
  | .returnSignal i =>
    if s.phase i = .signalling then some { s with phase := update s.phase i .idle } else none

def machine (ι : Type*) [DecidableEq ι] (v : ℕ) : Machine (State ι) (Event ι) where
  init s := s = init v
  step   := step

def Event.isReturnWait : Event ι → Bool
  | returnWait _ => true
  | _            => false

def Event.isCallSignal : Event ι → Bool
  | callSignal _ => true
  | _            => false

variable {v : ℕ} {s t : State ι} {l : List (Event ι)}

-- The permits are those of the calls of `signal` which have begun, without those of the calls of
-- `wait` which have returned.
theorem permits_of_run (r : (machine ι v).Run s l t) :
    t.permits + l.countP Event.isReturnWait = s.permits + l.countP Event.isCallSignal := by
  induction r
  case refl => rfl
  case step e _ _ _ h _ hi =>
    cases e <;> simp only [machine, step, Option.ite_none_right_eq_some, Option.some.injEq] at h
    all_goals
      obtain ⟨hp, rfl⟩ := h
      simp only [List.countP_cons, Event.isReturnWait, Event.isCallSignal] at hi ⊢
      simp
      omega

variable {i : ι}

theorem trace_callWait (h : s.phase i = .idle) :
    (machine ι v).Trace Machine.label s [.callWait i]
      { s with phase := update s.phase i .waiting } :=
  .of_step (if_pos h)

theorem trace_returnWait {k : ℕ} (h : s.phase i = .waiting) (hk : s.permits = k + 1) :
    (machine ι v).Trace Machine.label s [.returnWait i] ⟨update s.phase i .idle, k⟩ := by
  apply Machine.Trace.of_step
  simp [machine, step, h, hk]

theorem trace_callSignal (h : s.phase i = .idle) :
    (machine ι v).Trace Machine.label s [.callSignal i]
      ⟨update s.phase i .signalling, s.permits + 1⟩ :=
  .of_step (if_pos h)

theorem trace_returnSignal (h : s.phase i = .signalling) :
    (machine ι v).Trace Machine.label s [.returnSignal i]
      { s with phase := update s.phase i .idle } :=
  .of_step (if_pos h)

end SemaphoreCalls
