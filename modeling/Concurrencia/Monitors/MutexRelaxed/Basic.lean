import Concurrencia.Machine.Basic
import Mathlib.Data.Fintype.Basic
import Mathlib.Logic.Function.Basic

open Function

namespace MutexRelaxed

-- The statements of `lock` and `unlock`. A thread at `wait` holds the mutex and is about to call
-- `pthread_cond_wait`. There it releases the mutex and gets in the queue of `unLock` at once, which
-- is `waiting`, and when it is woken it takes the mutex again, which is `relock`. A thread at
-- `critical` has returned from `lock`.
inductive Pc
  | idle
  | lockMutex | test | wait | waiting | relock | set | unlockMutex
  | critical | store | signal
  deriving DecidableEq

structure State (n : ℕ) where
  pc : Fin n → Pc
  mutex : Bool
  locked : ℕ

-- In the step `signal i j` the signal of thread `i` wakes thread `j`. A wait may return for no
-- reason.
inductive Label (n : ℕ)
  | thread (i : Fin n)
  | signal (i j : Fin n)
  | spurious (i : Fin n)
  deriving DecidableEq

variable {n : ℕ}

def State.goto (s : State n) (i : Fin n) (p : Pc) : State n :=
  { s with pc := update s.pc i p }

namespace State

variable {s : State n} {i : Fin n} {p : Pc}

@[simp] theorem goto_pc : (s.goto i p).pc = update s.pc i p := rfl
@[simp] theorem goto_mutex : (s.goto i p).mutex = s.mutex := rfl
@[simp] theorem goto_locked : (s.goto i p).locked = s.locked := rfl

end State

def takeMutex (s : State n) (i : Fin n) (p : Pc) : Option (State n) :=
  if s.mutex then none else some <| { s with mutex := true }.goto i p

def threadStep (s : State n) (i : Fin n) : Option (State n) :=
  match s.pc i with
  -- Call of `lock`.
  | .idle        => s.goto i .lockMutex
  | .lockMutex   => takeMutex s i .test
  | .test        => s.goto i (if s.locked ≠ 0 then .wait else .set)
  | .wait        => { s with mutex := false }.goto i .waiting
  | .waiting     => none
  | .relock      => takeMutex s i .test
  | .set         => { s with locked := 1 }.goto i .unlockMutex
  | .unlockMutex => { s with mutex := false }.goto i .critical
  -- Call of `unlock`.
  | .critical    => s.goto i .store
  | .store       => { s with locked := 0 }.goto i .signal
  -- There is nobody to wake.
  | .signal      => if ∃ j, s.pc j = .waiting then none else s.goto i .idle

def signalStep (s : State n) (i j : Fin n) : Option (State n) :=
  if s.pc i = .signal ∧ s.pc j = .waiting then (s.goto i .idle).goto j .relock else none

def spuriousStep (s : State n) (i : Fin n) : Option (State n) :=
  if s.pc i = .waiting then s.goto i .relock else none

def step (s : State n) : Label n → Option (State n)
  | .thread i   => threadStep s i
  | .signal i j => signalStep s i j
  | .spurious i => spuriousStep s i

def init (n : ℕ) : State n where
  pc _   := .idle
  mutex  := false
  locked := 0

def machine (n : ℕ) : Machine (State n) (Label n) where
  init s := s = init n
  step   := step

end MutexRelaxed
