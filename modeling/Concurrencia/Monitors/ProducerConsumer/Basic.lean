import Concurrencia.BoundedBuffer.Basic
import Mathlib.Data.Fintype.Basic
import Mathlib.Logic.Function.Basic

open Function

-- The class `ProducerConsumer` of `monitors/producer-consumer.py`.
namespace MonitorProducerConsumer

-- The statements of the two methods in their order, with their local `data`. A thread at one of the
-- waits holds the mutex and is about to wait, one at `appendWaiting` or `takeWaiting` is in the
-- queue of its condition and has released the mutex, and one at `appendRelock` or `takeRelock` has
-- been notified and takes the mutex again. At `raised`, an `IndexError` has left the method.
inductive Pc (α : Type*)
  | idle
  | appendMutex (data : α) | appendTest (data : α)
  | appendWait (data : α) | appendWaiting (data : α) | appendRelock (data : α)
  | append (data : α) | appendNotify | appendExit
  | takeMutex | takeTest
  | takeWait | takeWaiting | takeRelock
  | popleft | takeNotify (data : α) | takeExit (data : α)
  | raised

structure State (α : Type*) (n : ℕ) where
  pc : Fin n → Pc α
  mutex : Bool
  buffer : List α

-- In the step `notify i j` the `notify` of thread `i` wakes thread `j`.
inductive Label (α : Type*) (n : ℕ)
  | append (i : Fin n) (data : α)
  | take (i : Fin n)
  | thread (i : Fin n)
  | notify (i j : Fin n)

variable {α : Type*} {n : ℕ}

def State.goto (s : State α n) (i : Fin n) (p : Pc α) : State α n :=
  { s with pc := update s.pc i p }

namespace State

variable {s : State α n} {i : Fin n} {p : Pc α}

@[simp] theorem goto_pc : (s.goto i p).pc = update s.pc i p := rfl
@[simp] theorem goto_mutex : (s.goto i p).mutex = s.mutex := rfl
@[simp] theorem goto_buffer : (s.goto i p).buffer = s.buffer := rfl

end State

def lock (s : State α n) (i : Fin n) (p : Pc α) : Option (State α n) :=
  if s.mutex then none else some <| { s with mutex := true }.goto i p

def unlock (s : State α n) (i : Fin n) (p : Pc α) : State α n :=
  { s with mutex := false }.goto i p

-- Where a thread which waits goes on if it is woken by `notFull.notify` or `notEmpty.notify`.
def notFull : Pc α → Option (Pc α)
  | .appendWaiting data => some (.appendRelock data)
  | _                   => none

def notEmpty : Pc α → Option (Pc α)
  | .takeWaiting => some .takeRelock
  | _            => none

-- The condition which is notified, and where the thread goes on afterwards.
structure Notify (α : Type*) where
  condition : Pc α → Option (Pc α)
  next : Pc α

def Pc.notify : Pc α → Option (Notify α)
  | appendNotify    => some ⟨notEmpty, appendExit⟩
  | takeNotify data => some ⟨notFull, takeExit data⟩
  | _               => none

-- There is nobody to notify.
def notifyNobody (s : State α n) (i : Fin n) : Option (State α n) :=
  (s.pc i).notify.bind fun c =>
    if ∀ j, (c.condition (s.pc j)).isNone then some <| s.goto i c.next else none

def threadStep (size : ℕ) (s : State α n) (i : Fin n) : Option (State α n) :=
  match s.pc i with
  | .idle              => none
  | .appendMutex data  => lock s i (.appendTest data)
  | .appendTest data   => s.goto i (if s.buffer.length = size then .appendWait data else .append data)
  | .appendWait data   => unlock s i (.appendWaiting data)
  | .appendWaiting _   => none
  | .appendRelock data => lock s i (.appendTest data)
  | .append data       => { s with buffer := Deque.append size s.buffer data }.goto i .appendNotify
  | .appendNotify      => notifyNobody s i
  | .appendExit        => unlock s i .idle
  | .takeMutex         => lock s i .takeTest
  | .takeTest          => s.goto i (if s.buffer = [] then .takeWait else .popleft)
  | .takeWait          => unlock s i .takeWaiting
  | .takeWaiting       => none
  | .takeRelock        => lock s i .takeTest
  | .popleft           =>
    match Deque.popleft s.buffer with
    | none             => unlock s i .raised
    | some (data, b)   => { s with buffer := b }.goto i (.takeNotify data)
  | .takeNotify _      => notifyNobody s i
  | .takeExit _        => unlock s i .idle
  | .raised            => none

def notifyStep (s : State α n) (i j : Fin n) : Option (State α n) :=
  (s.pc i).notify.bind fun c => (c.condition (s.pc j)).map fun p => (s.goto i c.next).goto j p

def step (size : ℕ) (s : State α n) : Label α n → Option (State α n)
  | .append i data => match s.pc i with | .idle => s.goto i (.appendMutex data) | _ => none
  | .take i        => match s.pc i with | .idle => s.goto i .takeMutex | _ => none
  | .thread i      => threadStep size s i
  | .notify i j    => notifyStep s i j

def init (α : Type*) (n : ℕ) : State α n where
  pc _   := .idle
  mutex  := false
  buffer := []

def machine (α : Type*) (n size : ℕ) : Machine (State α n) (Label α n) where
  init s := s = init α n
  step   := step size

-- The changes of the buffer.
def bufferEvent (s : State α n) : Label α n → Option (BoundedBuffer.Event α)
  | .thread i =>
    match s.pc i with
    | .append data => some (.append data)
    | .popleft     => s.buffer.head?.map .take
    | _            => none
  | _         => none

end MonitorProducerConsumer
