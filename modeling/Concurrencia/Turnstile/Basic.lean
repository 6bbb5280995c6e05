import Concurrencia.Machine.History

-- Readers and writers pass through a turnstile one after the other. It is locked until the reader
-- has entered, or until the writer has entered and left again.
namespace Turnstile

inductive Event (ι : Type*)
  | readerEntry (i : ι)
  | writerEntry (i : ι)
  | enter (i : ι)
  | leave (i : ι)
  deriving DecidableEq

def Event.IsEntry : Event ι → Prop
  | readerEntry _ | writerEntry _ => True
  | _                             => False

-- How far the thread is which has locked the turnstile.
inductive Stage
  | reading | waiting | writing
  deriving DecidableEq

variable {ι : Type*} [DecidableEq ι]

def step : Option (ι × Stage) → Event ι → Option (Option (ι × Stage))
  | none, .readerEntry i         => some (some (i, .reading))
  | none, .writerEntry i         => some (some (i, .waiting))
  | some (i, .reading), .enter j => if i = j then some none else none
  | some (i, .waiting), .enter j => if i = j then some (some (i, .writing)) else none
  | some (i, .writing), .leave j => if i = j then some none else none
  | _, _                         => none

def machine (ι : Type*) [DecidableEq ι] : Machine (Option (ι × Stage)) (Event ι) where
  init s := s = none
  step   := step

variable {s t : Option (ι × Stage)} {i : ι} {e : Event ι} {l l₁ l₂ l₃ : List (Event ι)}

theorem leave_mem_of_run (r : (machine ι).Run (some (i, .writing)) l none) : .leave i ∈ l := by
  cases r
  case step e _ s h r =>
    cases e <;> simp only [machine, step, Option.ite_none_right_eq_some, reduceCtorEq] at h
    case leave j => exact h.left ▸ List.mem_cons_self

-- A writer which has locked the turnstile enters and leaves before it is free again.
theorem sublist_of_run (r : (machine ι).Run (some (i, .waiting)) l none) :
    [.enter i, .leave i].Sublist l := by
  cases r
  case step e _ s h r =>
    cases e <;> simp only [machine, step, Option.ite_none_right_eq_some, Option.some.injEq,
      reduceCtorEq] at h
    case enter j =>
      obtain ⟨rfl, rfl⟩ := h
      exact .cons_cons _ (List.singleton_sublist.mpr (leave_mem_of_run r))

theorem eq_none_of_entry (h : (machine ι).step s e = some t) (he : e.IsEntry) : s = none := by
  cases s
  case none => rfl
  case some p =>
    obtain ⟨j, st⟩ := p
    cases e
    case readerEntry | writerEntry => cases st <;> cases h
    all_goals exact absurd he id

-- No thread passes after a writer which has not entered and left.
theorem no_overtaking (r : (machine ι).Run s (l₁ ++ .writerEntry i :: l₂ ++ e :: l₃) t)
    (he : e.IsEntry) : [.enter i, .leave i].Sublist l₂ := by
  rw [List.append_assoc] at r
  obtain ⟨u, _, r⟩ := r.of_append
  cases r
  case step v h r =>
    obtain ⟨w, r₂, r₃⟩ := r.of_append
    have hu := eq_none_of_entry h trivial
    subst hu
    cases h
    cases r₃
    case step h _ =>
      have hw := eq_none_of_entry h he
      subst hw
      exact sublist_of_run r₂

end Turnstile
