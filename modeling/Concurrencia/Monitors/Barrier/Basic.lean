import Concurrencia.CyclicBarrier.Basic

open Function

namespace MonitorBarrier

open CyclicBarrier (Event)

-- The statements of `barrier(n)`. The mutex is the one of the monitor: the method is `synchronized`
-- in `Barrier.java`. A thread at `wait` is about to wait, one at `waiting` is in the queue of
-- `allArrived` and has released the mutex, and one at `relock` is resumed and takes it again.
inductive Pc
  | idle
  | lockMutex | arrive | test
  | reset | broadcast
  | wait | waiting | relock
  | unlockMutex
  deriving DecidableEq

structure State (n : ℕ) where
  pc : Fin n → Pc
  mutex : Bool
  arrived : ℕ

-- A wait may return for no reason. In `Barrier.java` it also returns by an exception, which is
-- caught, when the thread is interrupted before or while it waits.
inductive Label (n : ℕ)
  | thread (i : Fin n)
  | spurious (i : Fin n)
  | interrupt (i : Fin n)
  deriving DecidableEq

variable {n : ℕ}

def State.goto (s : State n) (i : Fin n) (p : Pc) : State n :=
  { s with pc := update s.pc i p }

namespace State

variable {s : State n} {i : Fin n} {p : Pc}

@[simp] theorem goto_pc : (s.goto i p).pc = update s.pc i p := rfl
@[simp] theorem goto_mutex : (s.goto i p).mutex = s.mutex := rfl
@[simp] theorem goto_arrived : (s.goto i p).arrived = s.arrived := rfl

end State

def Pc.notified : Pc → Pc
  | waiting => relock
  | p       => p

-- `pthread_cond_broadcast` and `notifyAll`.
def State.notifyAll (s : State n) : State n :=
  { s with pc := fun j => (s.pc j).notified }

def takeMutex (s : State n) (i : Fin n) (p : Pc) : Option (State n) :=
  if s.mutex then none else some <| { s with mutex := true }.goto i p

-- Each of the `n` threads calls `barrier(n)` time and again.
def threadStep (s : State n) (i : Fin n) : Option (State n) :=
  match s.pc i with
  | .idle        => s.goto i .lockMutex
  | .lockMutex   => takeMutex s i .arrive
  | .arrive      => { s with arrived := s.arrived + 1 }.goto i .test
  | .test        => s.goto i (if s.arrived = n then .reset else .wait)
  | .reset       => { s with arrived := 0 }.goto i .broadcast
  | .broadcast   => s.notifyAll.goto i .unlockMutex
  | .wait        => { s with mutex := false }.goto i .waiting
  | .waiting     => none
  | .relock      => takeMutex s i .unlockMutex
  | .unlockMutex => { s with mutex := false }.goto i .idle

def spuriousStep (s : State n) (i : Fin n) : Option (State n) :=
  if s.pc i = .waiting then s.goto i .relock else none

def interruptStep (s : State n) (i : Fin n) : Option (State n) :=
  match s.pc i with
  | .wait    => s.goto i .unlockMutex
  | .waiting => s.goto i .relock
  | _        => none

def step (s : State n) : Label n → Option (State n)
  | .thread i    => threadStep s i
  | .spurious i  => spuriousStep s i
  | .interrupt i => interruptStep s i

def init (n : ℕ) : State n where
  pc _    := .idle
  mutex   := false
  arrived := 0

def machine (n : ℕ) : Machine (State n) (Label n) where
  init s := s = init n
  step   := step

def event (s : State n) : Label n → Option (Event (Fin n))
  | .thread i =>
    match s.pc i with
    | .idle        => some (.call i)
    | .arrive      => some (.arrive i)
    | .broadcast   => some .turn
    | .unlockMutex => some (.leave i)
    | _            => none
  | .spurious _ | .interrupt _ => none

end MonitorBarrier
