import Concurrencia.Machine.Basic
import Mathlib.Logic.Function.Basic

open Function

-- Two goroutines which wait for each other at the end of each phase. They run on two channels, each
-- of which is named after the goroutine that sends on it.
namespace Barrier2p

inductive Proc
  | a | b
  deriving DecidableEq

def Proc.other : Proc → Proc
  | a => b
  | b => a

inductive Pc
  | loop
  | send | print | receive
  | sendDone | finished
  deriving DecidableEq

structure Thread where
  pc : Pc
  i  : ℕ
  deriving DecidableEq

-- `received` is what `main` has received on the channel `done`, and `output` are the lines "A finished
-- phase" and "B finished phase".
structure State where
  thread   : Proc → Thread
  full     : Proc → Bool
  received : ℕ
  output   : List (Proc × ℕ)

namespace State

def goto (s : State) (x : Proc) (p : Pc) : State :=
  { s with thread := update s.thread x { s.thread x with pc := p } }

-- The loop goes on.
def next (s : State) (x : Proc) : State :=
  { s with thread := update s.thread x ⟨.loop, (s.thread x).i + 1⟩ }

def print (s : State) (x : Proc) : State :=
  { s with output := s.output ++ [(x, (s.thread x).i)] }

-- The channel `done` has no room, and `main` receives from it twice.
def sendDone (s : State) (x : Proc) : Option State :=
  if s.received < 2 then some <| { s with received := s.received + 1 }.goto x .finished else none

end State

def init : State where
  thread _ := ⟨.loop, 0⟩
  full _   := false
  received := 0
  output   := []

-- `barrier_2p_async.go`: the channels have room for one element.
namespace Async

def step (phases : ℕ) (s : State) (x : Proc) : Option State :=
  match (s.thread x).pc with
  | .loop     => s.goto x (if (s.thread x).i < phases then .send else .sendDone)
  | .send     =>
    if s.full x then none else some <| { s with full := update s.full x true }.goto x .print
  | .print    => (s.print x).goto x .receive
  | .receive  =>
    if s.full x.other then some <| { s with full := update s.full x.other false }.next x else none
  | .sendDone => s.sendDone x
  | .finished => none

def machine (phases : ℕ) : Machine State Proc where
  init s := s = init
  step   := step phases

end Async

-- `barrier_2p_sync.go`: the channels have no room, and so a send and a receive are one step. B receives
-- before it sends.
namespace Sync

inductive Label
  | thread (x : Proc)
  | meet (channel : Proc)
  deriving DecidableEq

def threadStep (phases : ℕ) (s : State) (x : Proc) : Option State :=
  match x, (s.thread x).pc with
  | .a, .loop     => s.goto .a (if (s.thread .a).i < phases then .send else .sendDone)
  | .b, .loop     => s.goto .b (if (s.thread .b).i < phases then .receive else .sendDone)
  | .a, .print    => (s.print .a).goto .a .receive
  | .b, .print    => (s.print .b).next .b
  | x, .sendDone  => s.sendDone x
  | _, .send | _, .receive | _, .finished => none

-- Both channels are received from by the other goroutine.
def meetStep (s : State) (channel : Proc) : Option State :=
  if (s.thread channel).pc = .send ∧ (s.thread channel.other).pc = .receive then
    match channel with
    | .a => some <| (s.goto .a .print).goto .b .send
    | .b => some <| (s.goto .b .print).next .a
  else none

def step (phases : ℕ) (s : State) : Label → Option State
  | .thread x => threadStep phases s x
  | .meet x   => meetStep s x

def machine (phases : ℕ) : Machine State Label where
  init s := s = init
  step   := step phases

end Sync

end Barrier2p
