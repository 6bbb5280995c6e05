import Concurrencia.Machine.Basic
import Mathlib.Logic.Function.Basic

open Function

namespace ReaderWriterFaster

-- The accesses of `reader_lock` and `reader_unlock` in their order. The arguments are the values
-- which have been loaded but not used yet. A thread at `reading` is between the two methods.
inductive Reader
  | acquireEntry | loadIn | storeIn (v : ℕ) | releaseEntry
  | reading
  | acquireExit | loadOut | storeOut (v : ℕ)
  | testWait | testIn | testOut (v : ℕ) | releaseWriter
  | releaseExit
  deriving DecidableEq

-- The same for `writer_lock` and `writer_unlock`.
inductive Writer
  | acquireEntry | acquireExit | testIn | testOut (v : ℕ)
  | releaseExit
  | setWait | releaseExitWaiting | acquireWriter | clearWait
  | writing
  | releaseEntry
  deriving DecidableEq

-- A thread which releases a free lock gets an exception and ends at `failed`.
inductive Pc
  | idle
  | reader (r : Reader)
  | writer (w : Writer)
  | failed
  deriving DecidableEq

structure State (n : ℕ) where
  pc : Fin n → Pc
  writer : Bool
  entry : Bool
  exit : Bool
  readersIn : ℕ
  readersOut : ℕ
  wait : Bool

inductive Label (n : ℕ)
  | readerLock (i : Fin n)
  | writerLock (i : Fin n)
  | thread (i : Fin n)
  deriving DecidableEq

variable {n : ℕ}

def State.goto (s : State n) (i : Fin n) (p : Pc) : State n :=
  { s with pc := update s.pc i p }

def readerStep (s : State n) (i : Fin n) : Reader → Option (State n)
  | .acquireEntry  =>
    if s.entry then none else some <| { s with entry := true }.goto i (.reader .loadIn)
  | .loadIn        => s.goto i (.reader (.storeIn s.readersIn))
  | .storeIn v     => { s with readersIn := v + 1 }.goto i (.reader .releaseEntry)
  | .releaseEntry  =>
    if s.entry then some <| { s with entry := false }.goto i (.reader .reading)
    else some <| s.goto i .failed
  -- Call of `reader_unlock`.
  | .reading       => s.goto i (.reader .acquireExit)
  | .acquireExit   =>
    if s.exit then none else some <| { s with exit := true }.goto i (.reader .loadOut)
  | .loadOut       => s.goto i (.reader (.storeOut s.readersOut))
  | .storeOut v    => { s with readersOut := v + 1 }.goto i (.reader .testWait)
  | .testWait      => s.goto i (.reader (if s.wait then .testIn else .releaseExit))
  | .testIn        => s.goto i (.reader (.testOut s.readersIn))
  | .testOut v     => s.goto i (.reader (if v = s.readersOut then .releaseWriter else .releaseExit))
  | .releaseWriter =>
    if s.writer then some <| { s with writer := false }.goto i (.reader .releaseExit)
    else some <| s.goto i .failed
  | .releaseExit   =>
    if s.exit then some <| { s with exit := false }.goto i .idle else some <| s.goto i .failed

def writerStep (s : State n) (i : Fin n) : Writer → Option (State n)
  | .acquireEntry       =>
    if s.entry then none else some <| { s with entry := true }.goto i (.writer .acquireExit)
  | .acquireExit        =>
    if s.exit then none else some <| { s with exit := true }.goto i (.writer .testIn)
  | .testIn             => s.goto i (.writer (.testOut s.readersIn))
  | .testOut v          => s.goto i (.writer (if v = s.readersOut then .releaseExit else .setWait))
  | .releaseExit        =>
    if s.exit then some <| { s with exit := false }.goto i (.writer .writing)
    else some <| s.goto i .failed
  | .setWait            => { s with wait := true }.goto i (.writer .releaseExitWaiting)
  | .releaseExitWaiting =>
    if s.exit then some <| { s with exit := false }.goto i (.writer .acquireWriter)
    else some <| s.goto i .failed
  | .acquireWriter      =>
    if s.writer then none else some <| { s with writer := true }.goto i (.writer .clearWait)
  | .clearWait          => { s with wait := false }.goto i (.writer .writing)
  -- Call of `writer_unlock`.
  | .writing            => s.goto i (.writer .releaseEntry)
  | .releaseEntry       =>
    if s.entry then some <| { s with entry := false }.goto i .idle else some <| s.goto i .failed

def threadStep (s : State n) (i : Fin n) : Option (State n) :=
  match s.pc i with
  | .idle | .failed => none
  | .reader r       => readerStep s i r
  | .writer w       => writerStep s i w

def step (s : State n) : Label n → Option (State n)
  | .readerLock i => if s.pc i = .idle then s.goto i (.reader .acquireEntry) else none
  | .writerLock i => if s.pc i = .idle then s.goto i (.writer .acquireEntry) else none
  | .thread i     => threadStep s i

def init (n : ℕ) : State n where
  pc _       := .idle
  writer     := false
  entry      := false
  exit       := false
  readersIn  := 0
  readersOut := 0
  wait       := false

def machine (n : ℕ) : Machine (State n) (Label n) where
  init s := s = init n
  step   := step

end ReaderWriterFaster
