import Concurrencia.Machine.Basic
import Mathlib.Logic.Function.Basic

open Function

-- The program `semaphores/producer-consumer-infinite.py`.
namespace ProducerConsumerInfinite

-- The statements of both loops. A producer goes from `loop` to `append`, which are in the `with`
-- statement as far as `appendExit`, and a consumer from `loop` to `mutex`. At `raised`, `pop` has
-- raised an `IndexError`.
inductive Pc
  | loop
  | append | appendExit | release
  | mutex | pop | popExit | raised
  deriving DecidableEq

structure Thread where
  pc : Pc
  i : ℕ
  deriving DecidableEq

-- `data j` are the texts which consumer `j` has taken from the buffer.
structure State (producers consumers : ℕ) where
  thread : Fin producers ⊕ Fin consumers → Thread
  data : Fin consumers → List String
  buffer : List String
  mutex : Bool
  notEmpty : ℕ

variable {producers consumers : ℕ}

def State.goto (s : State producers consumers) (i : Fin producers ⊕ Fin consumers) (th : Thread) :
    State producers consumers :=
  { s with thread := update s.thread i th }

namespace State

variable {s : State producers consumers} {i : Fin producers ⊕ Fin consumers} {th : Thread}

@[simp] theorem goto_thread : (s.goto i th).thread = update s.thread i th := rfl
@[simp] theorem goto_data : (s.goto i th).data = s.data := rfl
@[simp] theorem goto_buffer : (s.goto i th).buffer = s.buffer := rfl
@[simp] theorem goto_mutex : (s.goto i th).mutex = s.mutex := rfl
@[simp] theorem goto_notEmpty : (s.goto i th).notEmpty = s.notEmpty := rfl

end State

-- The text of `"{} i: {}".format(id, i)`, where `id` is the name of the thread.
def text (name : Fin producers → String) (id : Fin producers) (i : ℕ) : String :=
  name id ++ " i: " ++ toString i

def lock (s : State producers consumers) (i : Fin producers ⊕ Fin consumers) (th : Thread) :
    Option (State producers consumers) :=
  if s.mutex then none else some <| { s with mutex := true }.goto i th

def unlock (s : State producers consumers) (i : Fin producers ⊕ Fin consumers) (th : Thread) :
    State producers consumers :=
  { s with mutex := false }.goto i th

def producerStep (name : Fin producers → String) (toProduce : ℕ) (s : State producers consumers)
    (id : Fin producers) : Option (State producers consumers) :=
  let th := s.thread (.inl id)
  match th.pc with
  | .loop       => if th.i < toProduce then lock s (.inl id) ⟨.append, th.i⟩ else none
  | .append     =>
    { s with buffer := s.buffer ++ [text name id th.i] }.goto (.inl id) ⟨.appendExit, th.i⟩
  | .appendExit => unlock s (.inl id) ⟨.release, th.i⟩
  | .release    => { s with notEmpty := s.notEmpty + 1 }.goto (.inl id) ⟨.loop, th.i + 1⟩
  | _           => none

def consumerStep (toProduce : ℕ) (s : State producers consumers) (j : Fin consumers) :
    Option (State producers consumers) :=
  let th := s.thread (.inr j)
  match th.pc with
  | .loop    =>
    if th.i < toProduce then
      if s.notEmpty = 0 then none
      else some <| { s with notEmpty := s.notEmpty - 1 }.goto (.inr j) ⟨.mutex, th.i⟩
    else none
  | .mutex   => lock s (.inr j) ⟨.pop, th.i⟩
  | .pop     =>
    match s.buffer with
    | []        => unlock s (.inr j) ⟨.raised, th.i⟩
    | x :: rest =>
      { s with buffer := rest, data := update s.data j (s.data j ++ [x]) }.goto
        (.inr j) ⟨.popExit, th.i⟩
  | .popExit => unlock s (.inr j) ⟨.loop, th.i + 1⟩
  | _        => none

def step (name : Fin producers → String) (toProduce : ℕ) (s : State producers consumers) :
    Fin producers ⊕ Fin consumers → Option (State producers consumers)
  | .inl id => producerStep name toProduce s id
  | .inr j  => consumerStep toProduce s j

def init (producers consumers : ℕ) : State producers consumers where
  thread _ := ⟨.loop, 0⟩
  data _   := []
  buffer   := []
  mutex    := false
  notEmpty := 0

def machine (name : Fin producers → String) (consumers toProduce : ℕ) :
    Machine (State producers consumers) (Fin producers ⊕ Fin consumers) where
  init s := s = init producers consumers
  step   := step name toProduce

-- `main` can join all the threads.
def Finished (toProduce : ℕ) (s : State producers consumers) : Prop :=
  ∀ i, s.thread i = ⟨.loop, toProduce⟩

end ProducerConsumerInfinite
