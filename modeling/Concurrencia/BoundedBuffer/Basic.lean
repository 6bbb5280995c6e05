import Concurrencia.Machine.History
import Mathlib.Data.List.Basic

-- A buffer as its users see it: a queue with room for `size` values.
namespace BoundedBuffer

inductive Event (α : Type*)
  | append (data : α)
  | take (data : α)
  deriving DecidableEq

variable {α : Type*}

def Event.appended : Event α → Option α
  | append data => some data
  | take _      => none

def Event.taken : Event α → Option α
  | append _  => none
  | take data => some data

-- The values of a history, in the order in which they have been appended or taken.
def appended (l : List (Event α)) : List α :=
  l.filterMap Event.appended

def taken (l : List (Event α)) : List α :=
  l.filterMap Event.taken

section

variable {data : α} {l : List (Event α)}

@[simp] theorem appended_append : appended (.append data :: l) = data :: appended l := rfl
@[simp] theorem appended_take : appended (.take data :: l) = appended l := rfl
@[simp] theorem taken_append : taken (.append data :: l) = taken l := rfl
@[simp] theorem taken_take : taken (.take data :: l) = data :: taken l := rfl

end

def step [DecidableEq α] (size : ℕ) (buffer : List α) : Event α → Option (List α)
  | .append data => if buffer.length < size then some (buffer ++ [data]) else none
  | .take data   => if buffer.head? = some data then some buffer.tail else none

def machine (α : Type*) [DecidableEq α] (size : ℕ) : Machine (List α) (Event α) where
  init buffer := buffer = []
  step        := step size

variable [DecidableEq α] {size : ℕ} {b c : List α} {data : α} {l : List (Event α)}

theorem trace_append (h : b.length < size) :
    (machine α size).Trace Machine.label b [.append data] (b ++ [data]) :=
  .of_step (if_pos h)

theorem trace_take : (machine α size).Trace Machine.label (data :: b) [.take data] b :=
  .of_step (if_pos rfl)

-- Nothing is lost, duplicated or reordered.
theorem order (r : (machine α size).Run b l c) : b ++ appended l = taken l ++ c := by
  induction r
  case refl => simp [appended, taken]
  case step b e _ _ _ h _ hi =>
    cases e <;> simp only [machine, step, Option.ite_none_right_eq_some, Option.some.injEq] at h
    case append =>
      obtain ⟨_, rfl⟩ := h
      simpa using hi
    case take =>
      obtain ⟨hd, rfl⟩ := h
      cases b
      case nil      => simp at hd
      case cons x b =>
        obtain rfl := Option.some.inj hd
        simpa using hi

theorem length_le (r : (machine α size).Run b l c) (h : b.length ≤ size) : c.length ≤ size := by
  refine r.invariant (I := fun b => b.length ≤ size) h fun b e b' hb hs => ?_
  cases e <;> simp only [machine, step, Option.ite_none_right_eq_some, Option.some.injEq] at hs
  all_goals
    obtain ⟨hd, rfl⟩ := hs
    grind

end BoundedBuffer

-- The `collections.deque` of Python, with its elements from left to right. One which is full loses
-- its leftmost element when another one is appended.
namespace Deque

variable {α : Type*} {maxlen : ℕ} {d : List α} {x : α}

def append (maxlen : ℕ) (d : List α) (x : α) : List α :=
  let d := d ++ [x]
  if maxlen < d.length then d.tail else d

-- Without an element, an `IndexError` is raised.
def popleft : List α → Option (α × List α)
  | []     => none
  | x :: d => some (x, d)

theorem append_of_lt (h : d.length < maxlen) : append maxlen d x = d ++ [x] := by
  apply if_neg
  rw [List.length_append, List.length_singleton]
  omega

end Deque
