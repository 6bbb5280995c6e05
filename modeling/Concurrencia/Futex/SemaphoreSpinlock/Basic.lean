import Concurrencia.CountingSemaphore.Basic
import Mathlib.Data.Fintype.Basic
import Mathlib.Logic.Function.Basic

open Function

namespace SemaphoreSpinlock

open CountingSemaphore (Event)

-- The statements of `wait` and `signal`. The spinlock is held from `testWait` to `unlockWait` or
-- `unlockTaken`, and from `testSignal` to `unlockSignal`. A thread at `futexWait` is about to call
-- `FUTEX_WAIT`, which never fails as the futex is never modified. One at `futexWake` is in the loop
-- around `FUTEX_WAKE`.
inductive Pc
  | idle
  | spinWait | testWait
  | incWaiters | unlockWait | futexWait | asleep
  | decValue | unlockTaken
  | spinSignal | testSignal
  | futexWake | decWaiters
  | incValue
  | unlockSignal
  deriving DecidableEq

-- As long as there are fewer than 2^32 threads and permits, both counters are in the range of an
-- `unsigned`.
structure State (n : ℕ) where
  pc : Fin n → Pc
  spinlock : Bool
  waiters : ℕ
  value : ℕ

-- In the step `wake i j` the `FUTEX_WAKE` of thread `i` dequeues thread `j`, and in the step
-- `spurious` a `FUTEX_WAIT` returns for no reason.
inductive Label (n : ℕ)
  | wait (i : Fin n)
  | signal (i : Fin n)
  | thread (i : Fin n)
  | wake (i j : Fin n)
  | spurious (i : Fin n)
  deriving DecidableEq

variable {n : ℕ}

def State.goto (s : State n) (i : Fin n) (p : Pc) : State n :=
  { s with pc := update s.pc i p }

namespace State

variable {s : State n} {i : Fin n} {p : Pc}

@[simp] theorem goto_pc : (s.goto i p).pc = update s.pc i p := rfl
@[simp] theorem goto_spinlock : (s.goto i p).spinlock = s.spinlock := rfl
@[simp] theorem goto_waiters : (s.goto i p).waiters = s.waiters := rfl
@[simp] theorem goto_value : (s.goto i p).value = s.value := rfl

end State

-- A thread whose exchange fails tries again.
def spinLock (s : State n) (i : Fin n) (p : Pc) : State n :=
  if s.spinlock then s else { s with spinlock := true }.goto i p

def spinUnlock (s : State n) (i : Fin n) (p : Pc) : State n :=
  { s with spinlock := false }.goto i p

def threadStep (s : State n) (i : Fin n) : Option (State n) :=
  match s.pc i with
  | .idle         => none
  | .spinWait     => spinLock s i .testWait
  | .testWait     => s.goto i (if s.waiters > 0 ∨ s.value ≤ 0 then .incWaiters else .decValue)
  | .incWaiters   => { s with waiters := s.waiters + 1 }.goto i .unlockWait
  | .unlockWait   => spinUnlock s i .futexWait
  | .futexWait    => s.goto i .asleep
  | .asleep       => none
  | .decValue     => { s with value := s.value - 1 }.goto i .unlockTaken
  | .unlockTaken  => spinUnlock s i .idle
  | .spinSignal   => spinLock s i .testSignal
  | .testSignal   => s.goto i (if s.waiters > 0 then .futexWake else .incValue)
  -- There is nobody to wake.
  | .futexWake    => if ∃ j, s.pc j = .asleep then none else s.goto i .futexWake
  | .decWaiters   => { s with waiters := s.waiters - 1 }.goto i .unlockSignal
  | .incValue     => { s with value := s.value + 1 }.goto i .unlockSignal
  | .unlockSignal => spinUnlock s i .idle

def wakeStep (s : State n) (i j : Fin n) : Option (State n) :=
  if s.pc i = .futexWake ∧ s.pc j = .asleep then (s.goto i .decWaiters).goto j .idle else none

def spuriousStep (s : State n) (i : Fin n) : Option (State n) :=
  if s.pc i = .futexWait ∨ s.pc i = .asleep then s.goto i .idle else none

-- The threads call `wait` and `signal` in any order.
def step (s : State n) : Label n → Option (State n)
  | .wait i     => if s.pc i = .idle then s.goto i .spinWait else none
  | .signal i   => if s.pc i = .idle then s.goto i .spinSignal else none
  | .thread i   => threadStep s i
  | .wake i j   => wakeStep s i j
  | .spurious i => spuriousStep s i

def init (n v : ℕ) : State n where
  pc _     := .idle
  spinlock := false
  waiters  := 0
  value    := v

def machine (n v : ℕ) : Machine (State n) (Label n) where
  init s := s = init n v
  step   := step

-- A wait is over when it takes its permit or when its thread is released, and a signal begins with
-- its call.
def event (s : State n) : Label n → Option (Event (Fin n))
  | .signal i   => some (.signal i)
  | .thread i   => if s.pc i = .decValue then some (.wait i) else none
  | .wake _ j   => some (.wait j)
  | .spurious i => some (.wait i)
  | .wait _     => none

end SemaphoreSpinlock
