import Concurrencia.LifoStacks.Basic
import Mathlib.Algebra.Ring.Nat

open Function

namespace StackCasTagged

open LifoStacks (Event)

-- The two lists: `stack_head` and `free_nodes`.
inductive Loc
  | stackHead | freeNodes
  deriving DecidableEq

structure NodeHead (w : ℕ) (α : Type*) where
  node : Option α
  aba  : BitVec w
  deriving DecidableEq

-- The accesses of `add_elements`, `push` and `pop` in their order. The arguments are `head`, `e`,
-- and the values which have been loaded: `pop` goes on with `old_head.node` when it is not null.
inductive Pc (w : ℕ) (α : Type*)
  | loop
  | popLoad (head : Loc)
  | popNext (head : Loc) (node : α) (aba : BitVec w)
  | popCas (head : Loc) (node : α) (aba : BitVec w) (next : Option α)
  | malloc
  | pushLoad (head : Loc) (e : α)
  | pushNext (head : Loc) (e : α) (oldHead : NodeHead w α)
  | pushCas (head : Loc) (e : α) (oldHead : NodeHead w α)

-- `exchanges` counts the successful exchanges on each head, and `since` is what it was when the
-- thread has last read the head. No step looks at them.
structure State (n w : ℕ) (α : Type*) where
  pc        : Fin n → Pc w α
  head      : Loc → NodeHead w α
  next      : α → Option α
  allocated : List α
  exchanges : Loc → ℕ
  since     : Fin n → ℕ

-- Where `malloc` finds the memory is not up to the program.
inductive Label (n : ℕ) (α : Type*)
  | thread (i : Fin n)
  | malloc (i : Fin n) (a : α)

variable {n w : ℕ} {α : Type*}

namespace Pc

-- `add_elements` after the return of `pop` and of `push`.
def popped : Loc → Option α → Pc w α
  | .freeNodes, some e => pushLoad .stackHead e
  | .freeNodes, none   => malloc
  | .stackHead, some e => pushLoad .freeNodes e
  | .stackHead, none   => loop

def pushed : Loc → Pc w α
  | .stackHead => popLoad .stackHead
  | .freeNodes => loop

-- The test of `pop` on the head it has read.
def test (head : Loc) (oldHead : NodeHead w α) : Pc w α :=
  match oldHead.node with
  | none   => popped head none
  | some a => popNext head a oldHead.aba

-- The node which nobody else knows of.
def held : Pc w α → Option α
  | pushLoad _ e | pushNext _ e _ | pushCas _ e _                   => some e
  | loop | popLoad _ | popNext _ _ _ | popCas _ _ _ _ | malloc => none

end Pc

namespace State

def goto (s : State n w α) (i : Fin n) (p : Pc w α) : State n w α :=
  { s with pc := update s.pc i p }

-- Thread `i` has read the head.
def read (s : State n w α) (i : Fin n) (k : Loc) : State n w α :=
  { s with since := update s.since i (s.exchanges k) }

def exchange (s : State n w α) (k : Loc) (h : NodeHead w α) : State n w α :=
  { s with head := update s.head k h, exchanges := update s.exchanges k (s.exchanges k + 1) }

variable {s : State n w α} {i j : Fin n} {p : Pc w α}

@[simp] theorem goto_pc_self : (s.goto i p).pc i = p := update_self ..
@[simp] theorem goto_pc_of_ne (h : j ≠ i) : (s.goto i p).pc j = s.pc j := update_of_ne h ..

end State

variable [DecidableEq α]

def threadStep (s : State n w α) (i : Fin n) : Option (State n w α) :=
  match s.pc i with
  | .loop           => s.goto i (.popLoad .freeNodes)
  | .popLoad k      => (s.read i k).goto i (.test k (s.head k))
  | .popNext k a v  => s.goto i (.popCas k a v (s.next a))
  | .popCas k a v x =>
    if s.head k = ⟨some a, v⟩ then (s.exchange k ⟨x, v + 1⟩).goto i (.popped k (some a))
    else (s.read i k).goto i (.test k (s.head k))
  | .malloc         => none
  | .pushLoad k e   => (s.read i k).goto i (.pushNext k e (s.head k))
  | .pushNext k e o => { s with next := update s.next e o.node }.goto i (.pushCas k e o)
  | .pushCas k e o  =>
    if s.head k = o then (s.exchange k ⟨some e, o.aba + 1⟩).goto i (.pushed k)
    else (s.read i k).goto i (.pushNext k e (s.head k))

def mallocStep (s : State n w α) (i : Fin n) (a : α) : Option (State n w α) :=
  match s.pc i with
  | .malloc =>
    if a ∈ s.allocated then none
    else some <| { s with allocated := a :: s.allocated }.goto i (.pushLoad .stackHead a)
  | _       => none

def step (s : State n w α) : Label n α → Option (State n w α)
  | .thread i   => threadStep s i
  | .malloc i a => mallocStep s i a

-- The memory which is not allocated yet has any contents.
structure Init (s : State n w α) : Prop where
  pc        : ∀ i, s.pc i = .loop
  head      : ∀ k, s.head k = ⟨none, 0⟩
  allocated : s.allocated = []
  exchanges : ∀ k, s.exchanges k = 0

def machine (n w : ℕ) (α : Type*) [DecidableEq α] : Machine (State n w α) (Label n α) where
  init := Init
  step := step

-- How many exchanges there have been between the load of `pop` and its compare-and-exchange.
def age (s : State n w α) (i : Fin n) : ℕ :=
  match s.pc i with
  | .popCas k _ _ _ => s.exchanges k - s.since i
  | _               => 0

-- The tag does not wrap between the load of `pop` and its compare-and-exchange. It may do so in `push`.
def NoWrap (s : State n w α) : Label n α → Prop
  | .thread i   => age s i < 2 ^ w
  | .malloc _ _ => True

instance (s : State n w α) : (l : Label n α) → Decidable (NoWrap s l)
  | .thread i   => inferInstanceAs (Decidable (age s i < 2 ^ w))
  | .malloc _ _ => .isTrue trivial

def event (s : State n w α) : Label n α → Option (Event (Fin n) Loc α)
  | .malloc i a => some (.alloc i a)
  | .thread i   =>
    match s.pc i with
    | .popLoad k      => if (s.head k).node = none then some (.pop i k none) else none
    | .popCas k a v _ =>
      if s.head k = ⟨some a, v⟩ then some (.pop i k (some a))
      else if (s.head k).node = none then some (.pop i k none) else none
    | .pushCas k e o  => if s.head k = o then some (.push i k e) else none
    | _               => none

end StackCasTagged
