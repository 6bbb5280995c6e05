import Concurrencia.LockCalls.Basic

open Function

-- The mutex of `channels/mutex.go`.
namespace ChannelMutex

-- The statements of `Lock` and `Unlock`.
inductive Pc
  | idle
  | receive | lockReturn
  | send | unlockReturn
  deriving DecidableEq

-- A goroutine calls `Unlock` only after a `Lock` of its own: `held` tells whether a call of `Lock`
-- has returned which has not been followed by a call of `Unlock`.
structure Goroutine where
  pc : Pc
  held : Bool
  deriving DecidableEq

-- The elements of the channel are all the same, and so it is given by their number.
structure State (n : ℕ) where
  goroutines : Fin n → Goroutine
  channel : ℕ

inductive Label (n : ℕ)
  | lock (i : Fin n)
  | unlock (i : Fin n)
  | goroutine (i : Fin n)
  deriving DecidableEq

variable {n : ℕ}

def State.put (s : State n) (i : Fin n) (g : Goroutine) : State n :=
  { s with goroutines := update s.goroutines i g }

namespace State

variable {s : State n} {i : Fin n} {g : Goroutine}

@[simp] theorem put_goroutines : (s.put i g).goroutines = update s.goroutines i g := rfl
@[simp] theorem put_channel : (s.put i g).channel = s.channel := rfl

end State

def capacity : ℕ := 1

-- A send blocks while the channel is full.
def send (channel : ℕ) : Option ℕ :=
  if channel < capacity then some (channel + 1) else none

def goroutineStep (s : State n) (i : Fin n) : Option (State n) :=
  let g := s.goroutines i
  match g.pc with
  | .idle         => none
  | .receive      =>
    if s.channel = 0 then none
    else some <| { s with channel := s.channel - 1 }.put i ⟨.lockReturn, g.held⟩
  | .lockReturn   => s.put i ⟨.idle, true⟩
  | .send         =>
    (send s.channel).map fun c => { s with channel := c }.put i ⟨.unlockReturn, g.held⟩
  | .unlockReturn => s.put i ⟨.idle, g.held⟩

def step (s : State n) : Label n → Option (State n)
  | .lock i      =>
    let g := s.goroutines i
    if g.pc = .idle then s.put i ⟨.receive, g.held⟩ else none
  | .unlock i    => if s.goroutines i = ⟨.idle, true⟩ then s.put i ⟨.send, false⟩ else none
  | .goroutine i => goroutineStep s i

def newMutex (n : ℕ) : Option (State n) :=
  (send 0).map fun c => { goroutines := fun _ => ⟨.idle, false⟩, channel := c }

def machine (n : ℕ) : Machine (State n) (Label n) where
  init s := newMutex n = some s
  step   := step

def callEvent (s : State n) : Label n → Option (LockCalls.Event (Fin n))
  | .lock i      => some (.callLock i)
  | .unlock i    => some (.callUnlock i)
  | .goroutine i =>
    match (s.goroutines i).pc with
    | .lockReturn   => some (.returnLock i)
    | .unlockReturn => some (.returnUnlock i)
    | _             => none

end ChannelMutex
