import Concurrencia.Machine.Basic
import Mathlib.Data.Fintype.Defs
import Mathlib.Logic.Function.Basic

open Function

-- The purpose of a barrier: threads arrive in calls, and a turn is taken when all of them have. Nobody
-- leaves its call before the turn.
namespace CyclicBarrier

inductive Event (ι : Type*)
  | call (i : ι)
  | arrive (i : ι)
  | turn
  | leave (i : ι)
  deriving DecidableEq

inductive Stage
  | outside | calling | arrived | released
  deriving DecidableEq

variable {ι : Type*} [DecidableEq ι]

inductive Step (s : ι → Stage) : Event ι → (ι → Stage) → Prop
  | call   : (s i = .outside)      → Step s (.call i) (update s i .calling)
  | arrive : (s i = .calling)      → Step s (.arrive i) (update s i .arrived)
  | turn   : (∀ i, s i = .arrived) → Step s .turn fun _ => .released
  | leave  : (s i = .released)     → Step s (.leave i) (update s i .outside)

def init (ι : Type*) : ι → Stage :=
  fun _ => .outside

variable {s t : ι → Stage} {i j : ι} {e : Event ι} {l : List (Event ι)}

-- How the events between two states add up for thread `i`.
structure Tally (s : ι → Stage) (l : List (Event ι)) (t : ι → Stage) (i : ι) : Prop where
  called : l.count (.call i) + (if s i = .calling then 1 else 0) =
    l.count (.arrive i) + (if t i = .calling then 1 else 0)
  turned : l.count (.arrive i) + (if s i = .arrived then 1 else 0) =
    l.count .turn + (if t i = .arrived then 1 else 0)
  left   : l.count (.arrive i) + (if s i = .arrived ∨ s i = .released then 1 else 0) =
    l.count (.leave i) + (if t i = .arrived ∨ t i = .released then 1 else 0)

theorem Step.tally (h : Step s e t) (i : ι) : Tally s [e] t i := by
  cases h
  case turn h => constructor <;> simp [h]
  case call j h | arrive j h | leave j h =>
    by_cases hi : j = i
    case pos => subst hi; constructor <;> simp [h]
    case neg => constructor <;> simp [hi, update_of_ne (Ne.symm hi)]

namespace Tally

theorem refl : Tally s [] s i := by
  constructor <;> simp

theorem trans {u : ι → Stage} {l₁ l₂ : List (Event ι)} (h₁ : Tally s l₁ t i)
    (h₂ : Tally t l₂ u i) : Tally s (l₁ ++ l₂) u i := by
  have ⟨hc₁, ht₁, hl₁⟩ := h₁
  have ⟨hc₂, ht₂, hl₂⟩ := h₂
  constructor <;> simp only [List.count_append] <;> omega

variable (h : Tally (init ι) l t i)
include h

theorem turn_le_call : l.count .turn ≤ l.count (.call i) := by
  have ⟨hc, ht, _⟩ := h
  simp only [init, reduceCtorEq, if_false] at hc ht
  cases hs : t i <;> simp [hs] at hc ht <;> omega

theorem leave_le_turn : l.count (.leave i) ≤ l.count .turn := by
  have ⟨_, ht, hl⟩ := h
  simp only [init, reduceCtorEq, or_self, if_false] at ht hl
  cases hs : t i <;> simp [hs] at ht hl <;> omega

end Tally

variable [Fintype ι]

def step (s : ι → Stage) : Event ι → Option (ι → Stage)
  | .call i   => if s i = .outside then some (update s i .calling) else none
  | .arrive i => if s i = .calling then some (update s i .arrived) else none
  | .turn     => if ∀ i, s i = .arrived then some fun _ => .released else none
  | .leave i  => if s i = .released then some (update s i .outside) else none

def machine (ι : Type*) [DecidableEq ι] [Fintype ι] : Machine (ι → Stage) (Event ι) where
  init s := s = init ι
  step   := step

theorem step_iff : step s e = some t ↔ Step s e t := by
  constructor
  case mp =>
    intro h
    cases e <;> simp only [step, Option.ite_none_right_eq_some, Option.some.injEq] at h
    case call   => exact h.right ▸ .call h.left
    case arrive => exact h.right ▸ .arrive h.left
    case turn   => exact h.right ▸ .turn h.left
    case leave  => exact h.right ▸ .leave h.left
  case mpr =>
    intro h
    cases h
    case call h   => exact if_pos h
    case arrive h => exact if_pos h
    case turn h   => exact if_pos h
    case leave h  => exact if_pos h

theorem tally_of_run (r : (machine ι).Run s l t) (i : ι) : Tally s l t i := by
  induction r
  case refl        => exact .refl
  case step h _ hi => exact .trans ((step_iff.mp h).tally i) hi

-- Nobody leaves its `k`-th call before everybody has made theirs.
theorem leave_le_call (r : (machine ι).Run (init ι) l t) (i j : ι) :
    l.count (.leave i) ≤ l.count (.call j) :=
  (tally_of_run r i).leave_le_turn.trans (tally_of_run r j).turn_le_call

end CyclicBarrier
