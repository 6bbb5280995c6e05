import Concurrencia.CountingSemaphore.Basic
import Mathlib.Data.Int.Order.Basic

open Function

-- The semaphore of `channels/semaphore.go`.
namespace ChannelSemaphore

-- The statements of `Wait` and `Signal`.
inductive Pc
  | idle
  | receive | waitReturn
  | send | signalReturn
  deriving DecidableEq

-- The elements of the channel are all the same, and so it is given by their number.
structure State (n : ℕ) where
  pc : Fin n → Pc
  channel : ℕ

inductive Label (n : ℕ)
  | wait (i : Fin n)
  | signal (i : Fin n)
  | goroutine (i : Fin n)
  deriving DecidableEq

variable {n : ℕ}

def State.goto (s : State n) (i : Fin n) (p : Pc) : State n :=
  { s with pc := update s.pc i p }

namespace State

variable {s : State n} {i : Fin n} {p : Pc}

@[simp] theorem goto_pc : (s.goto i p).pc = update s.pc i p := rfl
@[simp] theorem goto_channel : (s.goto i p).channel = s.channel := rfl

end State

def max : ℕ := 256

-- A send blocks while the channel is full.
def send (channel : ℕ) : Option ℕ :=
  if channel < max then some (channel + 1) else none

def goroutineStep (s : State n) (i : Fin n) : Option (State n) :=
  match s.pc i with
  | .idle         => none
  | .receive      =>
    if s.channel = 0 then none
    else some <| { s with channel := s.channel - 1 }.goto i .waitReturn
  | .waitReturn   => s.goto i .idle
  | .send         => (send s.channel).map fun c => { s with channel := c }.goto i .signalReturn
  | .signalReturn => s.goto i .idle

def step (s : State n) : Label n → Option (State n)
  | .wait i      => if s.pc i = .idle then s.goto i .receive else none
  | .signal i    => if s.pc i = .idle then s.goto i .send else none
  | .goroutine i => goroutineStep s i

-- `k` turns of the loop of `NewSemaphore`.
def fill (channel : ℕ) : ℕ → Option ℕ
  | 0     => some channel
  | k + 1 => send channel >>= (fill · k)

def newSemaphore (n : ℕ) (value : ℤ) : Option (State n) :=
  (fill 0 value.toNat).map fun c => { pc := fun _ => .idle, channel := c }

def machine (n : ℕ) (value : ℤ) : Machine (State n) (Label n) where
  init s := newSemaphore n value = some s
  step   := step

def callEvent (s : State n) : Label n → Option (SemaphoreCalls.Event (Fin n))
  | .wait i      => some (.callWait i)
  | .signal i    => some (.callSignal i)
  | .goroutine i =>
    match s.pc i with
    | .waitReturn   => some (.returnWait i)
    | .signalReturn => some (.returnSignal i)
    | _             => none

end ChannelSemaphore
