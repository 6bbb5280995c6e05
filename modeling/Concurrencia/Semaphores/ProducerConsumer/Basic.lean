import Concurrencia.BoundedBuffer.Basic
import Mathlib.Logic.Function.Basic

open Function

-- The class `ProducerConsumer` of `semaphores/producer-consumer.py`.
namespace SemaphoreProducerConsumer

-- The statements of the two methods in their order, with their local `data`. At `raised`, an
-- `IndexError` has left the method.
inductive Pc (α : Type*)
  | idle
  | acquireNotFull (data : α) | appendMutex (data : α) | append (data : α)
  | appendUnlock | releaseNotEmpty
  | acquireNotEmpty | takeMutex | popleft
  | takeUnlock (data : α) | releaseNotFull (data : α)
  | raised

structure State (α : Type*) (n : ℕ) where
  pc : Fin n → Pc α
  mutex : Bool
  notFull : ℕ
  notEmpty : ℕ
  buffer : List α

inductive Label (α : Type*) (n : ℕ)
  | append (i : Fin n) (data : α)
  | take (i : Fin n)
  | thread (i : Fin n)

variable {α : Type*} {n : ℕ}

def State.goto (s : State α n) (i : Fin n) (p : Pc α) : State α n :=
  { s with pc := update s.pc i p }

namespace State

variable {s : State α n} {i : Fin n} {p : Pc α}

@[simp] theorem goto_pc : (s.goto i p).pc = update s.pc i p := rfl
@[simp] theorem goto_mutex : (s.goto i p).mutex = s.mutex := rfl
@[simp] theorem goto_notFull : (s.goto i p).notFull = s.notFull := rfl
@[simp] theorem goto_notEmpty : (s.goto i p).notEmpty = s.notEmpty := rfl
@[simp] theorem goto_buffer : (s.goto i p).buffer = s.buffer := rfl

end State

def lock (s : State α n) (i : Fin n) (p : Pc α) : Option (State α n) :=
  if s.mutex then none else some <| { s with mutex := true }.goto i p

def unlock (s : State α n) (i : Fin n) (p : Pc α) : State α n :=
  { s with mutex := false }.goto i p

def threadStep (size : ℕ) (s : State α n) (i : Fin n) : Option (State α n) :=
  match s.pc i with
  | .idle                => none
  | .acquireNotFull data =>
    if s.notFull = 0 then none
    else some <| { s with notFull := s.notFull - 1 }.goto i (.appendMutex data)
  | .appendMutex data    => lock s i (.append data)
  | .append data         => { s with buffer := Deque.append size s.buffer data }.goto i .appendUnlock
  | .appendUnlock        => unlock s i .releaseNotEmpty
  | .releaseNotEmpty     => { s with notEmpty := s.notEmpty + 1 }.goto i .idle
  | .acquireNotEmpty     =>
    if s.notEmpty = 0 then none
    else some <| { s with notEmpty := s.notEmpty - 1 }.goto i .takeMutex
  | .takeMutex           => lock s i .popleft
  | .popleft             =>
    match Deque.popleft s.buffer with
    | none               => unlock s i .raised
    | some (data, b)     => { s with buffer := b }.goto i (.takeUnlock data)
  | .takeUnlock data     => unlock s i (.releaseNotFull data)
  | .releaseNotFull _    => { s with notFull := s.notFull + 1 }.goto i .idle
  | .raised              => none

def step (size : ℕ) (s : State α n) : Label α n → Option (State α n)
  | .append i data => match s.pc i with | .idle => s.goto i (.acquireNotFull data) | _ => none
  | .take i        => match s.pc i with | .idle => s.goto i .acquireNotEmpty | _ => none
  | .thread i      => threadStep size s i

def init (α : Type*) (n size : ℕ) : State α n where
  pc _     := .idle
  mutex    := false
  notFull  := size
  notEmpty := 0
  buffer   := []

def machine (α : Type*) (n size : ℕ) : Machine (State α n) (Label α n) where
  init s := s = init α n size
  step   := step size

-- The changes of the buffer.
def bufferEvent (s : State α n) : Label α n → Option (BoundedBuffer.Event α)
  | .thread i =>
    match s.pc i with
    | .append data => some (.append data)
    | .popleft     => s.buffer.head?.map .take
    | _            => none
  | _         => none

end SemaphoreProducerConsumer
