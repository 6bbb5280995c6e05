import Concurrencia.Hardware.StackLlsc.Basic

open Function

namespace StackCas

open LifoStacks (Event)
open StackLlsc (Loc)

-- The accesses of `add_elements`, `push` and `pop` in their order. The arguments are the list, `e`, and
-- the values which have been loaded: `pop` goes on with `old_head` when it is not null. What the
-- exchange of `push` expects is in `e->next`.
inductive Pc (α : Type*)
  | loop
  | popLoad (list : Loc)
  | popNext (list : Loc) (oldHead : α)
  | popCas (list : Loc) (oldHead : α) (next : Option α)
  | malloc
  | clear (e : α)
  | pushLoad (list : Loc) (e : α)
  | pushNext (list : Loc) (e : α) (oldHead : Option α)
  | pushCas (list : Loc) (e : α)

-- `seen` is the head which the thread has read in `pop`, unless it has been exchanged since. No step
-- looks at it.
structure State (n : ℕ) (α : Type*) where
  pc        : Fin n → Pc α
  head      : Loc → Option α
  next      : α → Option α
  allocated : List α
  seen      : Fin n → Option Loc

-- Where `malloc` finds the memory is not up to the program.
inductive Label (n : ℕ) (α : Type*)
  | thread (i : Fin n)
  | malloc (i : Fin n) (a : α)

variable {n : ℕ} {α : Type*}

namespace Pc

-- `add_elements` after the return of `pop` and of `push`.
def popped : Loc → Option α → Pc α
  | .freeNodes, some e => pushLoad .head e
  | .freeNodes, none   => malloc
  | .head, some e      => clear e
  | .head, none        => loop

def pushed : Loc → Pc α
  | .head      => popLoad .head
  | .freeNodes => loop

-- The test of `pop` on the head it has read.
def test (list : Loc) : Option α → Pc α
  | none   => popped list none
  | some a => popNext list a

end Pc

namespace State

def goto (s : State n α) (i : Fin n) (p : Pc α) : State n α :=
  { s with pc := update s.pc i p }

-- Thread `i` has read the head in `pop`.
def read (s : State n α) (i : Fin n) (k : Loc) : State n α :=
  { s with seen := update s.seen i (some k) }

def exchange (s : State n α) (k : Loc) (x : Option α) : State n α where
  pc        := s.pc
  head      := update s.head k x
  next      := s.next
  allocated := s.allocated
  seen j    := (s.seen j).filter (· ≠ k)

def store (s : State n α) [DecidableEq α] (e : α) (x : Option α) : State n α :=
  { s with next := update s.next e x }

variable {s : State n α} {i j : Fin n} {p : Pc α}

@[simp] theorem goto_pc_self : (s.goto i p).pc i = p := update_self ..
@[simp] theorem goto_pc_of_ne (h : j ≠ i) : (s.goto i p).pc j = s.pc j := update_of_ne h ..

end State

variable [DecidableEq α]

-- An exchange which fails loads the head: `pop` makes its test again, and `push` stores it in
-- `e->next`.
def threadStep (s : State n α) (i : Fin n) : Option (State n α) :=
  match s.pc i with
  | .loop           => s.goto i (.popLoad .freeNodes)
  | .popLoad k      => (s.read i k).goto i (.test k (s.head k))
  | .popNext k a    => s.goto i (.popCas k a (s.next a))
  | .popCas k a x   =>
    if s.head k = some a then (s.exchange k x).goto i (.popped k (some a))
    else (s.read i k).goto i (.test k (s.head k))
  | .malloc         => none
  | .clear e        => (s.store e none).goto i (.pushLoad .freeNodes e)
  | .pushLoad k e   => s.goto i (.pushNext k e (s.head k))
  | .pushNext k e o => (s.store e o).goto i (.pushCas k e)
  | .pushCas k e    =>
    if s.head k = s.next e then (s.exchange k (some e)).goto i (.pushed k)
    else s.goto i (.pushNext k e (s.head k))

def mallocStep (s : State n α) (i : Fin n) (a : α) : Option (State n α) :=
  match s.pc i with
  | .malloc =>
    if a ∈ s.allocated then none
    else some <| { s with allocated := a :: s.allocated }.goto i (.pushLoad .head a)
  | _       => none

def step (s : State n α) : Label n α → Option (State n α)
  | .thread i   => threadStep s i
  | .malloc i a => mallocStep s i a

-- The memory which is not allocated yet has any contents.
structure Init (s : State n α) : Prop where
  pc        : ∀ i, s.pc i = .loop
  head      : ∀ k, s.head k = none
  allocated : s.allocated = []

def machine (n : ℕ) (α : Type*) [DecidableEq α] : Machine (State n α) (Label n α) where
  init := Init
  step := step

-- Thread `i` is about to take a head which has been exchanged since it was read, and is the same
-- again.
def aba (s : State n α) (i : Fin n) : Bool :=
  match s.pc i with
  | .popCas k a _ => s.head k = some a ∧ s.seen i ≠ some k
  | _             => false

def NoAba (s : State n α) : Label n α → Prop
  | .thread i   => aba s i = false
  | .malloc _ _ => True

instance (s : State n α) : (l : Label n α) → Decidable (NoAba s l)
  | .thread i   => inferInstanceAs (Decidable (aba s i = false))
  | .malloc _ _ => .isTrue trivial

def event (s : State n α) : Label n α → Option (Event (Fin n) Loc α)
  | .malloc i a => some (.alloc i a)
  | .thread i   =>
    match s.pc i with
    | .popLoad k    => if s.head k = none then some (.pop i k none) else none
    | .popCas k a _ =>
      if s.head k = some a then some (.pop i k (some a))
      else if s.head k = none then some (.pop i k none) else none
    | .pushCas k e  => if s.head k = s.next e then some (.push i k e) else none
    | _             => none

end StackCas
