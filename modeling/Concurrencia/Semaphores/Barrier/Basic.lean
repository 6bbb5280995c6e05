import Concurrencia.GroupBarrier.Basic
import Mathlib.Data.Int.Order.Basic
import Mathlib.Logic.Function.Basic

open Function

namespace SemaphoreBarrier

open GroupBarrier (Event)

-- The statements of `barrier(n)` in their order. Both tests of `counter` are made outside of the
-- mutex. The posts of the second half follow upon those of the first half in the order of the
-- branches.
inductive Pc
  | idle
  | waitArrival | lockIncrement | increment | unlockIncrement | testIncrement
  | postArrival | postDeparture
  | waitDeparture | lockDecrement | decrement | unlockDecrement | testDecrement
  | repostDeparture | repostArrival
  deriving DecidableEq

-- The semaphores are given by their values.
structure State (m : ℕ) where
  pc : Fin m → Pc
  mutex : Bool
  arrival : ℕ
  departure : ℕ
  counter : ℤ

variable {m : ℕ}

def State.goto (s : State m) (i : Fin m) (p : Pc) : State m :=
  { s with pc := update s.pc i p }

namespace State

variable {s : State m} {i j : Fin m} {p : Pc}

@[simp] theorem goto_pc : (s.goto i p).pc = update s.pc i p := rfl
@[simp] theorem goto_mutex : (s.goto i p).mutex = s.mutex := rfl
@[simp] theorem goto_arrival : (s.goto i p).arrival = s.arrival := rfl
@[simp] theorem goto_departure : (s.goto i p).departure = s.departure := rfl
@[simp] theorem goto_counter : (s.goto i p).counter = s.counter := rfl

end State

def lock (s : State m) (i : Fin m) (p : Pc) : Option (State m) :=
  if s.mutex then none else some <| { s with mutex := true }.goto i p

def unlock (s : State m) (i : Fin m) (p : Pc) : Option (State m) :=
  { s with mutex := false }.goto i p

-- Each of the `m` threads calls `barrier(n)` time and again.
def step (n : ℤ) (s : State m) (i : Fin m) : Option (State m) :=
  match s.pc i with
  | .idle            => s.goto i .waitArrival
  | .waitArrival     =>
    if s.arrival = 0 then none
    else some <| { s with arrival := s.arrival - 1 }.goto i .lockIncrement
  | .lockIncrement   => lock s i .increment
  | .increment       => { s with counter := s.counter + 1 }.goto i .unlockIncrement
  | .unlockIncrement => unlock s i .testIncrement
  | .testIncrement   => s.goto i (if s.counter < n then .postArrival else .postDeparture)
  | .postArrival     => { s with arrival := s.arrival + 1 }.goto i .waitDeparture
  | .postDeparture   => { s with departure := s.departure + 1 }.goto i .waitDeparture
  | .waitDeparture   =>
    if s.departure = 0 then none
    else some <| { s with departure := s.departure - 1 }.goto i .lockDecrement
  | .lockDecrement   => lock s i .decrement
  | .decrement       => { s with counter := s.counter - 1 }.goto i .unlockDecrement
  | .unlockDecrement => unlock s i .testDecrement
  | .testDecrement   => s.goto i (if s.counter > 0 then .repostDeparture else .repostArrival)
  | .repostDeparture => { s with departure := s.departure + 1 }.goto i .idle
  | .repostArrival   => { s with arrival := s.arrival + 1 }.goto i .idle

def init (m : ℕ) : State m where
  pc _      := .idle
  mutex     := false
  arrival   := 1
  departure := 0
  counter   := 0

def machine (m : ℕ) (n : ℤ) : Machine (State m) (Fin m) where
  init s := s = init m
  step   := step n

-- A call arrives or departs when it gets past the wait.
def event (s : State m) (i : Fin m) : Option (Event (Fin m)) :=
  match s.pc i with
  | .waitArrival   => some (.arrive i)
  | .waitDeparture => some (.depart i)
  | _              => none

end SemaphoreBarrier
