import Concurrencia.Machine.Basic
import Mathlib.Data.Fintype.Basic
import Mathlib.Logic.Function.Basic

open Function

namespace MonitorRwLock

-- The statements of the four methods in their order. A thread at one of the waits holds the mutex
-- and is about to wait, one at `readerWaiting` or `writerWaiting` is in the queue of its condition
-- and has released the mutex, and one at `readerRelock` or `writerRelock` has been notified and
-- takes the mutex again. A thread at `reading` or `writing` is between its two calls.
inductive Pc
  | idle
  | readerMutex | readerTest | readerWait | readerWaiting | readerRelock
  | add | notifyReader | readerExit
  | reading
  | subMutex | sub | subTest | notifyWriter | subExit
  | writerMutex | writerTest | writerWait | writerWaiting | writerRelock | set | writerExit
  | writing
  | clearMutex | clear | clearNotifyReader | clearNotifyWriter | clearExit
  deriving DecidableEq

structure State (n : ℕ) where
  pc : Fin n → Pc
  mutex : Bool
  readers : ℤ
  writing : Bool

-- In the step `notify i j` the `notify` of thread `i` wakes thread `j`.
inductive Label (n : ℕ)
  | readerLock (i : Fin n)
  | writerLock (i : Fin n)
  | thread (i : Fin n)
  | notify (i j : Fin n)
  deriving DecidableEq

variable {n : ℕ}

def State.goto (s : State n) (i : Fin n) (p : Pc) : State n :=
  { s with pc := update s.pc i p }

namespace State

variable {s : State n} {i : Fin n} {p : Pc}

@[simp] theorem goto_pc : (s.goto i p).pc = update s.pc i p := rfl
@[simp] theorem goto_mutex : (s.goto i p).mutex = s.mutex := rfl
@[simp] theorem goto_readers : (s.goto i p).readers = s.readers := rfl
@[simp] theorem goto_writing : (s.goto i p).writing = s.writing := rfl

end State

def takeMutex (s : State n) (i : Fin n) (p : Pc) : Option (State n) :=
  if s.mutex then none else some <| { s with mutex := true }.goto i p

def freeMutex (s : State n) (i : Fin n) (p : Pc) : State n :=
  { s with mutex := false }.goto i p

-- The thread which calls `notify` goes on at `next`, and one thread at `waiting` goes on at
-- `relock`.
structure Notify where
  waiting : Pc
  relock : Pc
  next : Pc

def canRead (next : Pc) : Notify :=
  { waiting := .readerWaiting, relock := .readerRelock, next }

def canWrite (next : Pc) : Notify :=
  { waiting := .writerWaiting, relock := .writerRelock, next }

def Pc.notify : Pc → Option Notify
  | notifyReader      => canRead readerExit
  | notifyWriter      => canWrite subExit
  | clearNotifyReader => canRead clearNotifyWriter
  | clearNotifyWriter => canWrite clearExit
  | _                 => none

-- There is nobody to notify.
def notifyNobody (s : State n) (i : Fin n) : Option (State n) :=
  (s.pc i).notify.bind fun c => if ∃ j, s.pc j = c.waiting then none else some <| s.goto i c.next

def threadStep (s : State n) (i : Fin n) : Option (State n) :=
  match s.pc i with
  | .idle              => none
  | .readerMutex       => takeMutex s i .readerTest
  | .readerTest        => s.goto i (if s.writing then .readerWait else .add)
  | .readerWait        => freeMutex s i .readerWaiting
  | .readerWaiting     => none
  | .readerRelock      => takeMutex s i .readerTest
  | .add               => { s with readers := s.readers + 1 }.goto i .notifyReader
  | .notifyReader      => notifyNobody s i
  | .readerExit        => freeMutex s i .reading
  -- Call of `reader_unlock`.
  | .reading           => s.goto i .subMutex
  | .subMutex          => takeMutex s i .sub
  | .sub               => { s with readers := s.readers - 1 }.goto i .subTest
  | .subTest           => s.goto i (if s.readers = 0 then .notifyWriter else .subExit)
  | .notifyWriter      => notifyNobody s i
  | .subExit           => freeMutex s i .idle
  | .writerMutex       => takeMutex s i .writerTest
  | .writerTest        => s.goto i (if s.writing ∨ s.readers ≠ 0 then .writerWait else .set)
  | .writerWait        => freeMutex s i .writerWaiting
  | .writerWaiting     => none
  | .writerRelock      => takeMutex s i .writerTest
  | .set               => { s with writing := true }.goto i .writerExit
  | .writerExit        => freeMutex s i .writing
  -- Call of `writer_unlock`.
  | .writing           => s.goto i .clearMutex
  | .clearMutex        => takeMutex s i .clear
  | .clear             => { s with writing := false }.goto i .clearNotifyReader
  | .clearNotifyReader => notifyNobody s i
  | .clearNotifyWriter => notifyNobody s i
  | .clearExit         => freeMutex s i .idle

def notifyStep (s : State n) (i j : Fin n) : Option (State n) :=
  (s.pc i).notify.bind fun c =>
    if s.pc j = c.waiting then some <| (s.goto i c.next).goto j c.relock else none

def step (s : State n) : Label n → Option (State n)
  | .readerLock i => if s.pc i = .idle then s.goto i .readerMutex else none
  | .writerLock i => if s.pc i = .idle then s.goto i .writerMutex else none
  | .thread i     => threadStep s i
  | .notify i j   => notifyStep s i j

def init (n : ℕ) : State n where
  pc _    := .idle
  mutex   := false
  readers := 0
  writing := false

def machine (n : ℕ) : Machine (State n) (Label n) where
  init s := s = init n
  step   := step

end MonitorRwLock
