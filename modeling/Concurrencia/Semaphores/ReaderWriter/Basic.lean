import Concurrencia.Turnstile.Basic
import Mathlib.Logic.Function.Basic

open Function

-- The classes `ReaderWriter` of `semaphores/rw_lock.py` and `ReaderWriterFair` of
-- `semaphores/rw_lock_fair.py`. The latter has the same statements, inside of the lock `entry`.
namespace ReaderWriter

-- The accesses of `reader_lock` and `reader_unlock` in their order. The arguments are the values
-- which have been loaded but not used yet. A thread at `reading` is between the two methods.
inductive Reader
  | acquireEntry | acquireMxIn | loadIn | storeIn (v : ℤ) | testIn | acquireWriter
  | releaseMxIn | releaseEntry
  | reading
  | acquireMxOut | loadOut | storeOut (v : ℤ) | testOut | releaseWriter | releaseMxOut
  deriving DecidableEq

-- The same for `writer_lock` and `writer_unlock`.
inductive Writer
  | acquireEntry | acquireWriter
  | writing
  | releaseWriter | releaseEntry
  deriving DecidableEq

-- A thread which releases a free lock gets an exception and ends at `failed`.
inductive Pc
  | idle
  | reader (r : Reader)
  | writer (w : Writer)
  | failed
  deriving DecidableEq

structure State (n : ℕ) where
  pc : Fin n → Pc
  writer : Bool
  mx : Bool
  entry : Bool
  readers : ℤ

inductive Label (n : ℕ)
  | readerLock (i : Fin n)
  | writerLock (i : Fin n)
  | thread (i : Fin n)
  deriving DecidableEq

variable {n : ℕ}

def State.goto (s : State n) (i : Fin n) (p : Pc) : State n :=
  { s with pc := update s.pc i p }

namespace State

variable {s : State n} {i : Fin n} {p : Pc}

@[simp] theorem goto_pc : (s.goto i p).pc = update s.pc i p := rfl
@[simp] theorem goto_writer : (s.goto i p).writer = s.writer := rfl
@[simp] theorem goto_mx : (s.goto i p).mx = s.mx := rfl
@[simp] theorem goto_entry : (s.goto i p).entry = s.entry := rfl
@[simp] theorem goto_readers : (s.goto i p).readers = s.readers := rfl

end State

def acquireWriter (s : State n) (i : Fin n) (p : Pc) : Option (State n) :=
  if s.writer then none else some <| { s with writer := true }.goto i p

def acquireMx (s : State n) (i : Fin n) (p : Pc) : Option (State n) :=
  if s.mx then none else some <| { s with mx := true }.goto i p

def acquireEntry (s : State n) (i : Fin n) (p : Pc) : Option (State n) :=
  if s.entry then none else some <| { s with entry := true }.goto i p

def releaseWriter (s : State n) (i : Fin n) (p : Pc) : State n :=
  if s.writer then { s with writer := false }.goto i p else s.goto i .failed

def releaseMx (s : State n) (i : Fin n) (p : Pc) : State n :=
  if s.mx then { s with mx := false }.goto i p else s.goto i .failed

def releaseEntry (s : State n) (i : Fin n) (p : Pc) : State n :=
  if s.entry then { s with entry := false }.goto i p else s.goto i .failed

-- Where `reader_lock` begins, and where it goes on after it has released `mx`. The same for
-- `writer_lock`, and for `writer_unlock` after it has released `writer`.
def readerStart (fair : Bool) : Pc :=
  .reader (if fair then .acquireEntry else .acquireMxIn)

def readerIn (fair : Bool) : Pc :=
  .reader (if fair then .releaseEntry else .reading)

def writerStart (fair : Bool) : Pc :=
  .writer (if fair then .acquireEntry else .acquireWriter)

def writerOut (fair : Bool) : Pc :=
  if fair then .writer .releaseEntry else .idle

def readerStep (fair : Bool) (s : State n) (i : Fin n) : Reader → Option (State n)
  | .acquireEntry  => acquireEntry s i (.reader .acquireMxIn)
  | .acquireMxIn   => acquireMx s i (.reader .loadIn)
  | .loadIn        => s.goto i (.reader (.storeIn s.readers))
  | .storeIn v     => { s with readers := v + 1 }.goto i (.reader .testIn)
  | .testIn        => s.goto i (.reader (if s.readers = 1 then .acquireWriter else .releaseMxIn))
  | .acquireWriter => acquireWriter s i (.reader .releaseMxIn)
  | .releaseMxIn   => releaseMx s i (readerIn fair)
  | .releaseEntry  => releaseEntry s i (.reader .reading)
  -- Call of `reader_unlock`.
  | .reading       => s.goto i (.reader .acquireMxOut)
  | .acquireMxOut  => acquireMx s i (.reader .loadOut)
  | .loadOut       => s.goto i (.reader (.storeOut s.readers))
  | .storeOut v    => { s with readers := v - 1 }.goto i (.reader .testOut)
  | .testOut       => s.goto i (.reader (if s.readers = 0 then .releaseWriter else .releaseMxOut))
  | .releaseWriter => releaseWriter s i (.reader .releaseMxOut)
  | .releaseMxOut  => releaseMx s i .idle

def writerStep (fair : Bool) (s : State n) (i : Fin n) : Writer → Option (State n)
  | .acquireEntry  => acquireEntry s i (.writer .acquireWriter)
  | .acquireWriter => acquireWriter s i (.writer .writing)
  -- Call of `writer_unlock`.
  | .writing       => s.goto i (.writer .releaseWriter)
  | .releaseWriter => releaseWriter s i (writerOut fair)
  | .releaseEntry  => releaseEntry s i .idle

def threadStep (fair : Bool) (s : State n) (i : Fin n) : Option (State n) :=
  match s.pc i with
  | .idle | .failed => none
  | .reader r       => readerStep fair s i r
  | .writer w       => writerStep fair s i w

def step (fair : Bool) (s : State n) : Label n → Option (State n)
  | .readerLock i => if s.pc i = .idle then s.goto i (readerStart fair) else none
  | .writerLock i => if s.pc i = .idle then s.goto i (writerStart fair) else none
  | .thread i     => threadStep fair s i

def init (n : ℕ) : State n where
  pc _    := .idle
  writer  := false
  mx      := false
  entry   := false
  readers := 0

def machine (fair : Bool) (n : ℕ) : Machine (State n) (Label n) where
  init s := s = init n
  step   := step fair

-- A writer leaves when it calls `writer_unlock`.
def event (s : State n) : Label n → Option (Turnstile.Event (Fin n))
  | .thread i =>
    match s.pc i with
    | .reader .acquireEntry  => some (.readerEntry i)
    | .writer .acquireEntry  => some (.writerEntry i)
    | .reader .releaseEntry  => some (.enter i)
    | .writer .acquireWriter => some (.enter i)
    | .writer .writing       => some (.leave i)
    | _                      => none
  | _         => none

end ReaderWriter
