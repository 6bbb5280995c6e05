import Concurrencia.FifoLock.Basic
import Mathlib.Logic.Function.Basic

open Function

namespace Clh

-- The node which thread `i` has allocated is `some i`, and `none` is `lock_node`.
abbrev Node (n : ℕ) := Option (Fin n)

-- The accesses of `lock` and `unlock` in their order. The arguments of `setPrev` and `spin` are
-- `predecessor`, the one of `adopt` is `pred` and the one of `clear` is `tmp`.
inductive Pc (n : ℕ)
  | idle
  | setLocked | exchange | setPrev (predecessor : Node n) | spin (predecessor : Node n)
  | critical
  | loadPrev | adopt (pred : Node n) | clear (tmp : Node n)
  deriving DecidableEq

-- `node` is the local variable of the thread.
structure State (n : ℕ) where
  pc : Fin n → Pc n
  node : Fin n → Node n
  locked : Node n → Bool
  prev : Node n → Node n
  tail : Node n

variable {n : ℕ}

def State.goto (s : State n) (i : Fin n) (p : Pc n) : State n :=
  { s with pc := update s.pc i p }

namespace State

variable {s : State n} {i j : Fin n} {p : Pc n}

@[simp] theorem goto_pc_self : (s.goto i p).pc i = p := update_self ..
@[simp] theorem goto_pc_of_ne (h : j ≠ i) : (s.goto i p).pc j = s.pc j := update_of_ne h ..
@[simp] theorem goto_node : (s.goto i p).node = s.node := rfl
@[simp] theorem goto_locked : (s.goto i p).locked = s.locked := rfl
@[simp] theorem goto_prev : (s.goto i p).prev = s.prev := rfl
@[simp] theorem goto_tail : (s.goto i p).tail = s.tail := rfl

end State

-- The variant of the lock which yields while it spins has the same steps.
def next (s : State n) (i : Fin n) : State n :=
  match s.pc i with
  -- Call of `lock`.
  | .idle      => s.goto i .setLocked
  | .setLocked => { s with locked := update s.locked (s.node i) true }.goto i .exchange
  | .exchange  => { s with tail := s.node i }.goto i (.setPrev s.tail)
  | .setPrev p => { s with prev := update s.prev (s.node i) p }.goto i (.spin p)
  | .spin p    => s.goto i (if s.locked p then .spin p else .critical)
  -- Call of `unlock`.
  | .critical  => s.goto i .loadPrev
  | .loadPrev  => s.goto i (.adopt (s.prev (s.node i)))
  | .adopt p   => { s with node := update s.node i p }.goto i (.clear (s.node i))
  | .clear tmp => { s with locked := update s.locked tmp false }.goto i .idle

-- The allocated nodes are not initialized. No thread looks at `prev` of a node before it has set it.
def machine (n : ℕ) : Machine (State n) (Fin n) where
  init s   := (∀ i, s.pc i = .idle ∧ s.node i = some i) ∧ s.locked none = false ∧ s.tail = none
  step s i := some (next s i)

open FifoLock (Event)

def event (s : State n) (i : Fin n) : Option (Event (Fin n)) :=
  match s.pc i with
  | .exchange => some (.enqueue i)
  | .spin p   => if s.locked p then none else some (.enter i)
  | .clear _  => some (.leave i)
  | _         => none

end Clh
