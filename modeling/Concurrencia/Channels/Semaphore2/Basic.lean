import Concurrencia.CountingSemaphore.Basic
import Mathlib.Data.Int.Order.Basic

open Function

-- The semaphore of `channels/semaphore2.go`.
namespace ChannelSemaphore2

-- The statements of `Wait` and `Signal` in their order. A goroutine at `sendDecremented v` or
-- `sendIncremented v` has changed what it has received to `v`. It tests `v` with the send.
inductive Pc
  | idle
  | receiveDecrement | sendDecremented (v : ℤ) | receiveQueue | waitReturn
  | receiveIncrement | sendIncremented (v : ℤ) | sendQueue | signalReturn
  deriving DecidableEq

-- Both channels have room for one element, and `queue` tells whether there is one. As long as there
-- are fewer than 2^63 goroutines and permits, the values are in the range of an `int`.
structure State (n : ℕ) where
  pc : Fin n → Pc
  value : Option ℤ
  queue : Bool

inductive Label (n : ℕ)
  | wait (i : Fin n)
  | signal (i : Fin n)
  | goroutine (i : Fin n)
  deriving DecidableEq

variable {n : ℕ}

def State.goto (s : State n) (i : Fin n) (p : Pc) : State n :=
  { s with pc := update s.pc i p }

namespace State

variable {s : State n} {i : Fin n} {p : Pc}

@[simp] theorem goto_pc : (s.goto i p).pc = update s.pc i p := rfl
@[simp] theorem goto_value : (s.goto i p).value = s.value := rfl
@[simp] theorem goto_queue : (s.goto i p).queue = s.queue := rfl

end State

def receiveValue (s : State n) (i : Fin n) (p : ℤ → Pc) : Option (State n) :=
  s.value.map fun v => { s with value := none }.goto i (p v)

def sendValue (s : State n) (i : Fin n) (v : ℤ) (p : Pc) : Option (State n) :=
  if s.value.isSome then none else some <| { s with value := v }.goto i p

def goroutineStep (s : State n) (i : Fin n) : Option (State n) :=
  match s.pc i with
  | .idle              => none
  | .receiveDecrement  => receiveValue s i fun v => .sendDecremented (v - 1)
  | .sendDecremented v => sendValue s i v (if v < 0 then .receiveQueue else .waitReturn)
  | .receiveQueue      =>
    if s.queue then some <| { s with queue := false }.goto i .waitReturn else none
  | .waitReturn        => s.goto i .idle
  | .receiveIncrement  => receiveValue s i fun v => .sendIncremented (v + 1)
  | .sendIncremented v => sendValue s i v (if v ≤ 0 then .sendQueue else .signalReturn)
  | .sendQueue         =>
    if s.queue then none else some <| { s with queue := true }.goto i .signalReturn
  | .signalReturn      => s.goto i .idle

def step (s : State n) : Label n → Option (State n)
  | .wait i      => if s.pc i = .idle then s.goto i .receiveDecrement else none
  | .signal i    => if s.pc i = .idle then s.goto i .receiveIncrement else none
  | .goroutine i => goroutineStep s i

def newSemaphore (n : ℕ) (value : ℤ) : State n where
  pc _  := .idle
  value := some (if value < 0 then 0 else value)
  queue := false

def machine (n : ℕ) (value : ℤ) : Machine (State n) (Label n) where
  init s := s = newSemaphore n value
  step   := step

-- A `Wait` is complete when it has sent a value which is not negative, or received from `queue`.
-- A `Signal` counts from its increment on.
def permitEvent (s : State n) : Label n → Option (CountingSemaphore.Event (Fin n))
  | .goroutine i =>
    match s.pc i with
    | .sendDecremented v => if v < 0 then none else some (.wait i)
    | .receiveQueue      => some (.wait i)
    | .receiveIncrement  => some (.signal i)
    | _                  => none
  | _            => none

def callEvent (s : State n) : Label n → Option (SemaphoreCalls.Event (Fin n))
  | .wait i      => some (.callWait i)
  | .signal i    => some (.callSignal i)
  | .goroutine i =>
    match s.pc i with
    | .waitReturn   => some (.returnWait i)
    | .signalReturn => some (.returnSignal i)
    | _             => none

end ChannelSemaphore2
