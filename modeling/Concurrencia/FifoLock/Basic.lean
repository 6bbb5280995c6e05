import Concurrencia.Machine.Basic
import Mathlib.Data.List.Basic
import Mathlib.Tactic.SplitIfs

-- The purpose of a queue lock: threads queue up, and the one at the head of the queue may enter. The
-- head stays in the queue until it leaves.
namespace FifoLock

inductive Event (ι : Type*)
  | enqueue (i : ι)
  | enter (i : ι)
  | leave (i : ι)

structure State (ι : Type*) where
  queue  : List ι
  inside : Bool

inductive Step {ι : Type*} (s : State ι) : Event ι → State ι → Prop
  | enqueue : (i ∉ s.queue) → Step s (.enqueue i) ⟨s.queue ++ [i], s.inside⟩
  | enter : (s.queue = i :: q) → (s.inside = false) → Step s (.enter i) ⟨i :: q, true⟩
  | leave : (s.queue = i :: q) → (s.inside = true) → Step s (.leave i) ⟨q, false⟩

def init (ι : Type*) : State ι where
  queue  := []
  inside := false

variable {ι : Type*}

namespace Event

def enqueued : Event ι → Option ι
  | enqueue i => some i
  | _         => none

def entered : Event ι → Option ι
  | enter i => some i
  | _       => none

def left : Event ι → Option ι
  | leave i => some i
  | _       => none

end Event

def enqueued (l : List (Event ι)) : List ι :=
  l.filterMap Event.enqueued

def entered (l : List (Event ι)) : List ι :=
  l.filterMap Event.entered

def left (l : List (Event ι)) : List ι :=
  l.filterMap Event.left

variable {s s₁ s₂ : State ι} {e : Event ι} {l l₁ l₂ : List (Event ι)}

theorem enqueued_append : enqueued (l ++ [e]) = enqueued l ++ e.enqueued.toList := by
  cases e <;> simp [enqueued, Event.enqueued, List.filterMap_cons]

theorem entered_append : entered (l ++ [e]) = entered l ++ e.entered.toList := by
  cases e <;> simp [entered, Event.entered, List.filterMap_cons]

theorem left_append : left (l ++ [e]) = left l ++ e.left.toList := by
  cases e <;> simp [left, Event.left, List.filterMap_cons]

theorem enqueued_prefix : enqueued l₁ <+: enqueued (l₁ ++ l₂) := by
  rw [enqueued, enqueued, List.filterMap_append]
  exact List.prefix_append ..

-- Who has entered is who has left, and the head of the queue if it is inside.
structure Inv (l : List (Event ι)) (s : State ι) : Prop where
  queue   : enqueued l = left l ++ s.queue
  outside : s.inside = false → entered l = left l
  inside  : s.inside = true → ∃ i q, s.queue = i :: q ∧ entered l = left l ++ [i]

namespace Inv

theorem init : Inv [] (init ι) := by
  constructor <;> simp [FifoLock.init, enqueued, entered, left]

variable (inv : Inv l s₁)
include inv

theorem step (h : Step s₁ e s₂) : Inv (l ++ [e]) s₂ := by
  have ⟨hq, ho, hi⟩ := inv
  cases h
  case enqueue i hn =>
    constructor <;> simp only [enqueued_append, entered_append, left_append]
    · simp [hq, Event.enqueued, Event.left]
    · simpa [Event.entered, Event.left] using ho
    · intro hin
      have ⟨j, q, hj, he⟩ := hi hin
      exact ⟨j, q ++ [i], by simp [hj], by simpa [Event.entered, Event.left] using he⟩
  case enter i q h hin =>
    constructor <;> simp only [enqueued_append, entered_append, left_append]
    · simp [hq, h, Event.enqueued, Event.left]
    · simp
    · exact fun _ => ⟨i, q, rfl, by simp [ho hin, Event.entered, Event.left]⟩
  case leave i q h hin =>
    have ⟨j, q, hj, he⟩ := hi hin
    simp only [h, List.cons.injEq] at hj
    constructor <;> simp only [enqueued_append, entered_append, left_append]
    · simp [hq, h, Event.enqueued, Event.left]
    · simp [he, hj.left, Event.entered, Event.left]
    · simp

theorem entered_enqueued : entered l <+: enqueued l := by
  rw [inv.queue]
  cases hi : s₁.inside
  case false =>
    rw [inv.outside hi]
    exact List.prefix_append ..
  case true =>
    have ⟨i, q, hq, he⟩ := inv.inside hi
    rw [he, hq]
    exact ⟨q, by simp⟩

end Inv

variable [DecidableEq ι]

def step (s : State ι) : Event ι → Option (State ι)
  | .enqueue i => if i ∈ s.queue then none else some { s with queue := s.queue ++ [i] }
  | .enter i   =>
    if s.queue.head? = some i ∧ s.inside = false then some { s with inside := true } else none
  | .leave i   =>
    if s.queue.head? = some i ∧ s.inside = true then some ⟨s.queue.tail, false⟩ else none

def machine (ι : Type*) [DecidableEq ι] : Machine (State ι) (Event ι) where
  init s := s = init ι
  step   := step

theorem step_iff : step s₁ e = some s₂ ↔ Step s₁ e s₂ := by
  constructor
  case mp =>
    intro h
    cases e <;> simp only [step] at h
    case enqueue =>
      split_ifs at h with hi
      cases h
      exact .enqueue hi
    case enter =>
      split_ifs at h with hi
      have ⟨q, hq⟩ := List.head?_eq_some_iff.mp hi.left
      cases h
      rw [hq]
      exact .enter hq hi.right
    case leave =>
      split_ifs at h with hi
      have ⟨q, hq⟩ := List.head?_eq_some_iff.mp hi.left
      cases h
      rw [hq]
      exact .leave hq hi.right
  case mpr =>
    intro h
    cases h
    case enqueue h  => simp [step, h]
    case enter hq h => simp [step, hq, h]
    case leave hq h => simp [step, hq, h]

-- A step which establishes `R` is a run which does.
theorem run_of_step {R : State ι → Prop} (h : ∃ t, Step s e t ∧ R t) :
    ∃ t, (machine ι).Run s [e] t ∧ R t :=
  have ⟨t, ht, hr⟩ := h
  ⟨t, .single (step_iff.mpr ht), hr⟩

theorem inv_of_run (r : (machine ι).Run s₁ l₂ s₂) (inv : Inv l₁ s₁) : Inv (l₁ ++ l₂) s₂ := by
  induction r generalizing l₁
  case refl        => simpa using inv
  case step h _ hi => simpa using hi (inv.step (step_iff.mp h))

-- Whoever has queued up has left or is still in the queue.
theorem enqueued_eq (r : (machine ι).Run (init ι) l s) : enqueued l = left l ++ s.queue :=
  (inv_of_run r .init).queue

theorem queue_length_le (r : (machine ι).Run (init ι) l s) :
    s.queue.length ≤ (enqueued l).length := by
  rw [enqueued_eq r, List.length_append]
  exact Nat.le_add_left ..

theorem left_add_queue (r : (machine ι).Run (init ι) l s) :
    (left l).length + s.queue.length = (enqueued l).length := by
  rw [enqueued_eq r, List.length_append]

-- The rule of forward simulation for as long as fewer than `k` threads have queued up.
theorem simulation_below {σ α : Type*} {m : Machine σ α} {event : σ → α → Option (Event ι)}
    {R : σ → List (Event ι) → State ι → Prop} {x : σ} {k : ℕ}
    (r : (m.logging event).Reachable (x, l)) (hl : (enqueued l).length < k)
    (start : ∀ x, m.init x → R x [] (init ι))
    (step : ∀ x a x' l t, R x l t → (left l).length + t.queue.length < k → m.step x a = some x' →
      ∃ t', (machine ι).Run t (event x a).toList t' ∧ R x' (l ++ (event x a).toList) t') :
    ∃ t, (machine ι).Run (init ι) l t ∧ R x l t := by
  revert hl
  apply r.logging_invariant (I := fun x l => (enqueued l).length < k →
    ∃ t, (machine ι).Run (init ι) l t ∧ R x l t)
  case init => exact fun x h _ => ⟨_, .refl, start x h⟩
  case step =>
    intro x a x' l _ hi h hl
    have hl := enqueued_prefix.length_le.trans_lt hl
    have ⟨t, run, ref⟩ := hi hl
    have ⟨t', run', ref⟩ := step x a x' l t ref (left_add_queue run ▸ hl) h
    exact ⟨t', run.trans run', ref⟩

-- Who enters does so in the order of the queue.
theorem entered_enqueued (r : (machine ι).Run (init ι) l s) : entered l <+: enqueued l :=
  (inv_of_run r .init).entered_enqueued

end FifoLock
