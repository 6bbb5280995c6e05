import Concurrencia.LifoStacks.Basic

open Function

namespace StackLlsc

open LifoStacks (Event)

-- The two lists: `head` and `free_nodes`.
inductive Loc
  | head | freeNodes
  deriving DecidableEq

-- The loads and stores of `push`, `pop` and `add_elements` in their order. The arguments are the
-- registers: `r0` is the address of the head and `e` is `r1` of `push`.
inductive Pc (α : Type*)
  | loop
  | popLdrex (r0 : Loc)
  | popLdr (r0 : Loc) (r1 : α)
  | popStrex (r0 : Loc) (r1 : α) (r2 : Option α)
  | malloc
  | clear (e : α)
  | pushLdr (r0 : Loc) (e : α)
  | pushStr (r0 : Loc) (e : α) (r3 : Option α)
  | pushLdrex (r0 : Loc) (e : α) (r3 : Option α)
  | pushStrex (r0 : Loc) (e : α)

-- The monitor of a thread holds the address of its last `ldrex`, until somebody stores to it.
structure State (n : ℕ) (α : Type*) where
  pc        : Fin n → Pc α
  head      : Loc → Option α
  next      : α → Option α
  allocated : List α
  monitor   : Fin n → Option Loc

-- Where `malloc` finds the memory is not up to the program, and each `strex` may fail for no reason.
inductive Label (n : ℕ) (α : Type*)
  | thread (i : Fin n)
  | malloc (i : Fin n) (a : α)
  | spurious (i : Fin n)

variable {n : ℕ} {α : Type*}

namespace Pc

-- `add_elements` after the return of `pop` and of `push`.
def popped : Loc → Option α → Pc α
  | .freeNodes, some e => pushLdr .head e
  | .freeNodes, none   => malloc
  | .head, some e      => clear e
  | .head, none        => loop

def pushed : Loc → Pc α
  | .head      => popLdrex .head
  | .freeNodes => loop

-- The test of `pop` on the head it has read.
def test (r0 : Loc) : Option α → Pc α
  | none   => popped r0 none
  | some a => popLdr r0 a

-- The node which nobody else knows of.
def held : Pc α → Option α
  | clear e | pushLdr _ e | pushStr _ e _ | pushLdrex _ e _ | pushStrex _ e => some e
  | loop | popLdrex _ | popLdr _ _ | popStrex _ _ _ | malloc                => none

end Pc

namespace State

def goto (s : State n α) (i : Fin n) (p : Pc α) : State n α :=
  { s with pc := update s.pc i p }

def ldrex (s : State n α) (i : Fin n) (k : Loc) : State n α :=
  { s with monitor := update s.monitor i (some k) }

-- A successful `strex`: no monitor holds the address any more.
def strex (s : State n α) (k : Loc) (x : Option α) : State n α where
  pc        := s.pc
  head      := update s.head k x
  next      := s.next
  allocated := s.allocated
  monitor j := (s.monitor j).filter (· ≠ k)

-- A failing `strex`.
def fail (s : State n α) (i : Fin n) : State n α :=
  { s with monitor := update s.monitor i none }

variable {s : State n α} {i j : Fin n} {p : Pc α}

@[simp] theorem goto_pc_self : (s.goto i p).pc i = p := update_self ..
@[simp] theorem goto_pc_of_ne (h : j ≠ i) : (s.goto i p).pc j = s.pc j := update_of_ne h ..

end State

def failStep (s : State n α) (i : Fin n) : Option (State n α) :=
  match s.pc i with
  | .popStrex k _ _ => (s.fail i).goto i (.popLdrex k)
  | .pushStrex k e  => (s.fail i).goto i (.pushLdr k e)
  | _               => none

variable [DecidableEq α]

def threadStep (s : State n α) (i : Fin n) : Option (State n α) :=
  match s.pc i with
  | .loop            => s.goto i (.popLdrex .freeNodes)
  | .popLdrex k      => (s.ldrex i k).goto i (.test k (s.head k))
  | .popLdr k a      => s.goto i (.popStrex k a (s.next a))
  | .popStrex k a x  =>
    if s.monitor i = some k then some <| (s.strex k x).goto i (.popped k (some a))
    else failStep s i
  | .malloc          => none
  | .clear e         => { s with next := update s.next e none }.goto i (.pushLdr .freeNodes e)
  | .pushLdr k e     => s.goto i (.pushStr k e (s.head k))
  | .pushStr k e x   => { s with next := update s.next e x }.goto i (.pushLdrex k e x)
  | .pushLdrex k e x =>
    (s.ldrex i k).goto i (if s.head k = x then .pushStrex k e else .pushLdr k e)
  | .pushStrex k e   =>
    if s.monitor i = some k then some <| (s.strex k (some e)).goto i (.pushed k) else failStep s i

def mallocStep (s : State n α) (i : Fin n) (a : α) : Option (State n α) :=
  match s.pc i with
  | .malloc =>
    if a ∈ s.allocated then none
    else some <| { s with allocated := a :: s.allocated }.goto i (.pushLdr .head a)
  | _       => none

def step (s : State n α) : Label n α → Option (State n α)
  | .thread i   => threadStep s i
  | .malloc i a => mallocStep s i a
  | .spurious i => failStep s i

-- The memory which is not allocated yet and the monitors have any contents.
structure Init (s : State n α) : Prop where
  pc        : ∀ i, s.pc i = .loop
  head      : ∀ k, s.head k = none
  allocated : s.allocated = []

def machine (n : ℕ) (α : Type*) [DecidableEq α] : Machine (State n α) (Label n α) where
  init := Init
  step := step

def event (s : State n α) : Label n α → Option (Event (Fin n) Loc α)
  | .malloc i a => some (.alloc i a)
  | .spurious _ => none
  | .thread i   =>
    match s.pc i with
    | .popLdrex k     => if s.head k = none then some (.pop i k none) else none
    | .popStrex k a _ => if s.monitor i = some k then some (.pop i k (some a)) else none
    | .pushStrex k e  => if s.monitor i = some k then some (.push i k e) else none
    | _               => none

end StackLlsc
