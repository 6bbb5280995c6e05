import Concurrencia.FifoLock.Basic
import Mathlib.Logic.Function.Basic

open Function

namespace Mcs

-- The accesses of `lock` and `unlock` in their order. Each thread has one node, so that threads and
-- nodes share their names. The argument of `link` is `predecessor`, the one of `clearNext` the
-- value of `node->next` which has been loaded for the last statement.
inductive Pc (n : ℕ)
  | idle
  | setNext | setLocked | exchange | link (predecessor : Fin n) | spin | clearLocked
  | critical
  | testNext | compareExchange | waitNext | loadNext | clearNext (next : Fin n)
  deriving DecidableEq

structure State (n : ℕ) where
  pc : Fin n → Pc n
  next : Fin n → Option (Fin n)
  locked : Fin n → Bool
  tail : Option (Fin n)

variable {n : ℕ}

def State.goto (s : State n) (i : Fin n) (p : Pc n) : State n :=
  { s with pc := update s.pc i p }

namespace State

variable {s : State n} {i j : Fin n} {p : Pc n}

@[simp] theorem goto_pc_self : (s.goto i p).pc i = p := update_self ..
@[simp] theorem goto_pc_of_ne (h : j ≠ i) : (s.goto i p).pc j = s.pc j := update_of_ne h ..
@[simp] theorem goto_next : (s.goto i p).next = s.next := rfl
@[simp] theorem goto_locked : (s.goto i p).locked = s.locked := rfl
@[simp] theorem goto_tail : (s.goto i p).tail = s.tail := rfl

end State

-- The step is missing where a thread would follow a pointer that is NULL. The variant of the lock
-- which yields while it spins has the same steps.
def step (s : State n) (i : Fin n) : Option (State n) :=
  match s.pc i with
  -- Call of `lock`.
  | .idle            => s.goto i .setNext
  | .setNext         => { s with next := update s.next i none }.goto i .setLocked
  | .setLocked       => { s with locked := update s.locked i true }.goto i .exchange
  | .exchange        =>
    { s with tail := some i }.goto i (match s.tail with | none => .clearLocked | some p => .link p)
  | .link p          => { s with next := update s.next p (some i) }.goto i .spin
  | .spin            => s.goto i (if s.locked i then .spin else .clearLocked)
  | .clearLocked     => { s with locked := update s.locked i false }.goto i .critical
  -- Call of `unlock`.
  | .critical        => s.goto i .testNext
  | .testNext        => s.goto i (if s.next i = none then .compareExchange else .loadNext)
  | .compareExchange =>
    if s.tail = some i then { s with tail := none }.goto i .idle else s.goto i .waitNext
  | .waitNext        => s.goto i (if s.next i = none then .waitNext else .loadNext)
  | .loadNext        => (s.next i).map fun k => s.goto i (.clearNext k)
  | .clearNext k     => { s with locked := update s.locked k false }.goto i .idle

-- The nodes are not initialized.
def machine (n : ℕ) : Machine (State n) (Fin n) where
  init s := (∀ i, s.pc i = .idle) ∧ s.tail = none
  step   := step

open FifoLock (Event)

def event (s : State n) (i : Fin n) : Option (Event (Fin n)) :=
  match s.pc i with
  | .exchange        => some (.enqueue i)
  | .clearLocked     => some (.enter i)
  | .compareExchange => if s.tail = some i then some (.leave i) else none
  | .clearNext _     => some (.leave i)
  | _                => none

end Mcs
