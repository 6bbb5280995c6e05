import Concurrencia.Machine.Basic
import Mathlib.Logic.Function.Basic

open Function

namespace TicketRw

inductive Role
  | reader
  | writer
  deriving DecidableEq

-- The accesses of the four functions in their order. The arguments are the ticket of the thread and
-- the values it has loaded (for `tmp` of `writer_unlock`: plus one). A thread at `reading` or
-- `writing` is between its two functions.
inductive Pc
  | idle
  | readerTicket | readerSpin (number : UInt16) | loadTurn | storeTurn (turn : UInt16)
  | reading | addTurn
  | writerTicket | writerSpin (number : UInt16)
  | writing | loadWriterTurn | loadReaderTurn (writerTurn : UInt16)
  | storeCombined (writerTurn readerTurn : UInt16)
  deriving DecidableEq

structure State (n : ℕ) where
  pc : Fin n → Pc
  number : UInt16
  writerTurn : UInt16
  readerTurn : UInt16

inductive Label (n : ℕ)
  | readerLock (i : Fin n)
  | writerLock (i : Fin n)
  | thread (i : Fin n)
  deriving DecidableEq

variable {n : ℕ}

def State.goto (s : State n) (i : Fin n) (p : Pc) : State n :=
  { s with pc := update s.pc i p }

def threadStep (s : State n) (i : Fin n) : Option (State n) :=
  match s.pc i with
  | .idle                => none
  | .readerTicket        => { s with number := s.number + 1 }.goto i (.readerSpin s.number)
  | .readerSpin number   =>
    s.goto i (if number ≠ s.readerTurn then .readerSpin number else .loadTurn)
  | .loadTurn            => s.goto i (.storeTurn s.readerTurn)
  | .storeTurn turn      => { s with readerTurn := turn + 1 }.goto i .reading
  -- Call of `reader_unlock`.
  | .reading             => s.goto i .addTurn
  | .addTurn             => { s with writerTurn := s.writerTurn + 1 }.goto i .idle
  | .writerTicket        => { s with number := s.number + 1 }.goto i (.writerSpin s.number)
  | .writerSpin number   =>
    s.goto i (if number ≠ s.writerTurn then .writerSpin number else .writing)
  -- Call of `writer_unlock`.
  | .writing             => s.goto i .loadWriterTurn
  | .loadWriterTurn      => s.goto i (.loadReaderTurn (s.writerTurn + 1))
  | .loadReaderTurn w    => s.goto i (.storeCombined w (s.readerTurn + 1))
  | .storeCombined w r   => { s with writerTurn := w, readerTurn := r }.goto i .idle

def step (s : State n) : Label n → Option (State n)
  | .readerLock i => if s.pc i = .idle then s.goto i .readerTicket else none
  | .writerLock i => if s.pc i = .idle then s.goto i .writerTicket else none
  | .thread i     => threadStep s i

def init (n : ℕ) : State n where
  pc _       := .idle
  number     := 0
  writerTurn := 0
  readerTurn := 0

def machine (n : ℕ) : Machine (State n) (Label n) where
  init s := s = init n
  step   := step

-- What a thread does to the lock: it takes a ticket, it is admitted, it is done.
inductive Event (ι : Type*)
  | request (i : ι) (r : Role)
  | enter (i : ι) (r : Role)
  | leave (i : ι) (r : Role)

def event (s : State n) : Label n → Option (Event (Fin n))
  | .thread i =>
    match s.pc i with
    | .readerTicket      => some (.request i .reader)
    | .storeTurn _       => some (.enter i .reader)
    | .addTurn           => some (.leave i .reader)
    | .writerTicket      => some (.request i .writer)
    | .writerSpin number => if number = s.writerTurn then some (.enter i .writer) else none
    | .storeCombined _ _ => some (.leave i .writer)
    | _                  => none
  | _ => none

end TicketRw
