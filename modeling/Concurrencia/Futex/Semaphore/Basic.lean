import Concurrencia.CountingSemaphore.Basic
import Mathlib.Data.Fintype.Basic
import Mathlib.Data.Int.Order.Basic
import Mathlib.Logic.Function.Basic

open Function

namespace Semaphore

open CountingSemaphore (Event)

-- The statements of `wait` and `signal`. A thread at `futexWait` is about to call `FUTEX_WAIT`,
-- which never fails as the futex is never modified. One at `futexWake` is in the loop around
-- `FUTEX_WAKE`.
inductive Pc
  | idle
  | subFetch | futexWait | asleep
  | addFetch | futexWake
  deriving DecidableEq

-- As long as there are fewer than 2^31 threads and permits, `value` is in the range of an `int`.
structure State (n : ℕ) where
  pc : Fin n → Pc
  value : ℤ

-- In the step `wake i j` the `FUTEX_WAKE` of thread `i` dequeues thread `j`, and in the step
-- `spurious` a `FUTEX_WAIT` returns for no reason.
inductive Label (n : ℕ)
  | wait (i : Fin n)
  | signal (i : Fin n)
  | thread (i : Fin n)
  | wake (i j : Fin n)
  | spurious (i : Fin n)
  deriving DecidableEq

variable {n : ℕ}

def State.goto (s : State n) (i : Fin n) (p : Pc) : State n :=
  { s with pc := update s.pc i p }

namespace State

variable {s : State n} {i : Fin n} {p : Pc}

@[simp] theorem goto_pc : (s.goto i p).pc = update s.pc i p := rfl
@[simp] theorem goto_value : (s.goto i p).value = s.value := rfl

end State

def threadStep (s : State n) (i : Fin n) : Option (State n) :=
  match s.pc i with
  | .idle      => none
  | .subFetch  =>
    { s with value := s.value - 1 }.goto i (if s.value - 1 < 0 then .futexWait else .idle)
  | .futexWait => s.goto i .asleep
  | .asleep    => none
  | .addFetch  =>
    { s with value := s.value + 1 }.goto i (if s.value + 1 ≤ 0 then .futexWake else .idle)
  -- There is nobody to wake.
  | .futexWake => if ∃ j, s.pc j = .asleep then none else s.goto i .futexWake

def wakeStep (s : State n) (i j : Fin n) : Option (State n) :=
  if s.pc i = .futexWake ∧ s.pc j = .asleep then (s.goto i .idle).goto j .idle else none

def spuriousStep (s : State n) (i : Fin n) : Option (State n) :=
  if s.pc i = .futexWait ∨ s.pc i = .asleep then s.goto i .idle else none

-- The threads call `wait` and `signal` in any order.
def step (s : State n) : Label n → Option (State n)
  | .wait i     => if s.pc i = .idle then s.goto i .subFetch else none
  | .signal i   => if s.pc i = .idle then s.goto i .addFetch else none
  | .thread i   => threadStep s i
  | .wake i j   => wakeStep s i j
  | .spurious i => spuriousStep s i

def init (n v : ℕ) : State n where
  pc _  := .idle
  value := v

def machine (n v : ℕ) : Machine (State n) (Label n) where
  init s := s = init n v
  step   := step

-- A wait is over when it passes or when its thread is released, and a signal begins with its call.
def event (s : State n) : Label n → Option (Event (Fin n))
  | .signal i   => some (.signal i)
  | .thread i   => if s.pc i = .subFetch ∧ ¬s.value - 1 < 0 then some (.wait i) else none
  | .wake _ j   => some (.wait j)
  | .spurious i => some (.wait i)
  | .wait _     => none

end Semaphore
