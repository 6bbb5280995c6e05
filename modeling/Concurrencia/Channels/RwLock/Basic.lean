import Concurrencia.Machine.Basic
import Mathlib.Data.Int.Basic
import Mathlib.Logic.Function.Basic

open Function

-- The lock of `channels/rw_lock.go`.
namespace ChannelRwLock

-- The sends, receives and tests of the four methods, with the local `readers`. A goroutine at
-- `reading` or `writing` is between its two calls.
inductive Pc
  | idle
  | receiveIn | testIn (readers : ℤ) | receiveWriter (readers : ℤ) | sendIn (readers : ℤ)
  | reading
  | receiveOut | testOut (readers : ℤ) | sendWriter (readers : ℤ) | sendOut (readers : ℤ)
  | writerReceive
  | writing
  | writerSend
  deriving DecidableEq

-- Both channels have a buffer of one element. `writer` tells whether that one is there.
structure State (n : ℕ) where
  pc : Fin n → Pc
  writer : Bool
  readers : Option ℤ

inductive Label (n : ℕ)
  | readerLock (i : Fin n)
  | writerLock (i : Fin n)
  | goroutine (i : Fin n)
  deriving DecidableEq

variable {n : ℕ}

def State.goto (s : State n) (i : Fin n) (p : Pc) : State n :=
  { s with pc := update s.pc i p }

namespace State

variable {s : State n} {i : Fin n} {p : Pc}

@[simp] theorem goto_pc : (s.goto i p).pc = update s.pc i p := rfl
@[simp] theorem goto_writer : (s.goto i p).writer = s.writer := rfl
@[simp] theorem goto_readers : (s.goto i p).readers = s.readers := rfl

end State

def receiveWriter (s : State n) (i : Fin n) (p : Pc) : Option (State n) :=
  if s.writer then some <| { s with writer := false }.goto i p else none

def sendWriter (s : State n) (i : Fin n) (p : Pc) : Option (State n) :=
  if s.writer then none else some <| { s with writer := true }.goto i p

def receiveReaders (s : State n) (i : Fin n) (p : ℤ → Pc) : Option (State n) :=
  s.readers.map fun readers => { s with readers := none }.goto i (p readers)

def sendReaders (s : State n) (i : Fin n) (readers : ℤ) (p : Pc) : Option (State n) :=
  if s.readers = none then some <| { s with readers := some readers }.goto i p else none

def goroutineStep (s : State n) (i : Fin n) : Option (State n) :=
  match s.pc i with
  | .idle                  => none
  | .receiveIn             => receiveReaders s i fun readers => .testIn (readers + 1)
  | .testIn readers        =>
    s.goto i (if readers = 1 then .receiveWriter readers else .sendIn readers)
  | .receiveWriter readers => receiveWriter s i (.sendIn readers)
  | .sendIn readers        => sendReaders s i readers .reading
  -- Call of `readerUnlock`.
  | .reading               => s.goto i .receiveOut
  | .receiveOut            => receiveReaders s i fun readers => .testOut (readers - 1)
  | .testOut readers       =>
    s.goto i (if readers = 0 then .sendWriter readers else .sendOut readers)
  | .sendWriter readers    => sendWriter s i (.sendOut readers)
  | .sendOut readers       => sendReaders s i readers .idle
  | .writerReceive         => receiveWriter s i .writing
  -- Call of `writerUnlock`.
  | .writing               => s.goto i .writerSend
  | .writerSend            => sendWriter s i .idle

def step (s : State n) : Label n → Option (State n)
  | .readerLock i => if s.pc i = .idle then s.goto i .receiveIn else none
  | .writerLock i => if s.pc i = .idle then s.goto i .writerReceive else none
  | .goroutine i  => goroutineStep s i

-- After the two sends.
def newRwLock (n : ℕ) : State n where
  pc _    := .idle
  writer  := true
  readers := some 0

def machine (n : ℕ) : Machine (State n) (Label n) where
  init s := s = newRwLock n
  step   := step

end ChannelRwLock
