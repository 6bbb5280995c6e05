import Concurrencia.CountingSemaphore.Basic
import Mathlib.Logic.Function.Basic

open Function

-- The functions `p` and `v` of `monitors/semaphore.c` and the methods of the class `Semaphore` of
-- `monitors/CounterSemaphore.java`, which have the same statements. There the monitor of the object
-- is the mutex and its wait set the condition, and an interrupt of `wait` is a spurious return, as
-- the exception is caught in the loop.
namespace MonitorSemaphore

-- A thread at `wait` holds the mutex and is about to wait, one at `waiting` has released the mutex,
-- and one at `relock` has been woken and takes the mutex again.
inductive Pc
  | idle
  | pLock | pTest | wait | waiting | relock | decrement | pUnlock
  | vLock | increment | signal | vUnlock
  deriving DecidableEq

-- As long as there are fewer than 2^31 permits, `value` does not overflow.
structure State (n : ℕ) where
  pc : Fin n → Pc
  mutex : Bool
  value : ℤ

-- In the step `signal i j` the signal of thread `i` wakes thread `j`, and in the step `spurious j`
-- thread `j` wakes without a signal.
inductive Label (n : ℕ)
  | p (i : Fin n)
  | v (i : Fin n)
  | thread (i : Fin n)
  | signal (i j : Fin n)
  | spurious (j : Fin n)
  deriving DecidableEq

variable {n : ℕ}

def State.goto (s : State n) (i : Fin n) (p : Pc) : State n :=
  { s with pc := update s.pc i p }

namespace State

variable {s : State n} {i : Fin n} {p : Pc}

@[simp] theorem goto_pc : (s.goto i p).pc = update s.pc i p := rfl
@[simp] theorem goto_mutex : (s.goto i p).mutex = s.mutex := rfl
@[simp] theorem goto_value : (s.goto i p).value = s.value := rfl

end State

def lock (s : State n) (i : Fin n) (p : Pc) : Option (State n) :=
  if s.mutex then none else some <| { s with mutex := true }.goto i p

def unlock (s : State n) (i : Fin n) (p : Pc) : State n :=
  { s with mutex := false }.goto i p

def threadStep (s : State n) (i : Fin n) : Option (State n) :=
  match s.pc i with
  | .idle      => none
  | .pLock     => lock s i .pTest
  | .pTest     => s.goto i (if s.value = 0 then .wait else .decrement)
  | .wait      => unlock s i .waiting
  | .waiting   => none
  | .relock    => lock s i .pTest
  | .decrement => { s with value := s.value - 1 }.goto i .pUnlock
  | .pUnlock   => unlock s i .idle
  | .vLock     => lock s i .increment
  | .increment => { s with value := s.value + 1 }.goto i .signal
  -- There is nobody to wake.
  | .signal    => if ∀ j, s.pc j ≠ .waiting then s.goto i .vUnlock else none
  | .vUnlock   => unlock s i .idle

def step (s : State n) : Label n → Option (State n)
  | .p i        => if s.pc i = .idle then s.goto i .pLock else none
  | .v i        => if s.pc i = .idle then s.goto i .vLock else none
  | .thread i   => threadStep s i
  | .signal i j =>
    if s.pc i = .signal ∧ s.pc j = .waiting then some <| (s.goto i .vUnlock).goto j .relock
    else none
  | .spurious j => if s.pc j = .waiting then s.goto j .relock else none

def init (n : ℕ) (v : ℕ) : State n where
  pc _  := .idle
  mutex := false
  value := v

def machine (n : ℕ) (v : ℕ) : Machine (State n) (Label n) where
  init s := s = init n v
  step   := step

def event (s : State n) : Label n → Option (CountingSemaphore.Event (Fin n))
  | .thread i =>
    match s.pc i with
    | .decrement => some (.wait i)
    | .increment => some (.signal i)
    | _          => none
  | _         => none

end MonitorSemaphore
