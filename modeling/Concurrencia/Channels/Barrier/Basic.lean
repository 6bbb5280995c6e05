import Concurrencia.Machine.Basic
import Mathlib.Data.Int.Order.Basic
import Mathlib.Logic.Function.Basic

open Function

-- The barrier of `channels/barrier.go`.
namespace ChannelBarrier

-- The receives and sends of `Barrier` in their order. A goroutine tests and decrements what it has
-- received with the receive. Those of the second half follow upon those of the first half in the
-- order of the branches.
inductive Pc
  | idle
  | receiveArrival | sendArrival (v : ℤ) | sendDeparture
  | receiveDeparture | resendDeparture (v : ℤ) | resendArrival
  deriving DecidableEq

-- Both channels have room for one element.
structure State (m : ℕ) where
  pc : Fin m → Pc
  arrival : Option ℤ
  departure : Option ℤ

variable {m : ℕ}

def State.goto (s : State m) (i : Fin m) (p : Pc) : State m :=
  { s with pc := update s.pc i p }

namespace State

variable {s : State m} {i : Fin m} {p : Pc}

@[simp] theorem goto_pc : (s.goto i p).pc = update s.pc i p := rfl
@[simp] theorem goto_arrival : (s.goto i p).arrival = s.arrival := rfl
@[simp] theorem goto_departure : (s.goto i p).departure = s.departure := rfl

end State

def receive (channel : Option ℤ) : Option (ℤ × Option ℤ) :=
  channel.map fun v => (v, none)

def send (channel : Option ℤ) (v : ℤ) : Option (Option ℤ) :=
  if channel.isSome then none else some (some v)

-- Each of the `m` goroutines calls `Barrier` time and again.
def step (n : ℤ) (s : State m) (i : Fin m) : Option (State m) :=
  match s.pc i with
  | .idle              => s.goto i .receiveArrival
  | .receiveArrival    =>
    (receive s.arrival).map fun r => { s with arrival := r.snd }.goto i
      (if r.fst > 1 then .sendArrival (r.fst - 1) else .sendDeparture)
  | .sendArrival v     =>
    (send s.arrival v).map fun c => { s with arrival := c }.goto i .receiveDeparture
  | .sendDeparture     =>
    (send s.departure n).map fun c => { s with departure := c }.goto i .receiveDeparture
  | .receiveDeparture  =>
    (receive s.departure).map fun r => { s with departure := r.snd }.goto i
      (if r.fst > 1 then .resendDeparture (r.fst - 1) else .resendArrival)
  | .resendDeparture v =>
    (send s.departure v).map fun c => { s with departure := c }.goto i .idle
  | .resendArrival     =>
    (send s.arrival n).map fun c => { s with arrival := c }.goto i .idle

def newBarrier (m : ℕ) (value : ℤ) : State m where
  pc _      := .idle
  arrival   := some value
  departure := none

def machine (m : ℕ) (n : ℤ) : Machine (State m) (Fin m) where
  init s := s = newBarrier m n
  step   := step n

end ChannelBarrier
