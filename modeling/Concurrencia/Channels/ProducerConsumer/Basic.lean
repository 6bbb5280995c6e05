import Concurrencia.DoneChannel.Basic
import Concurrencia.Machine.Basic
import Mathlib.Logic.Function.Basic

open Function

-- The program `channels/producer_consumer.go`.
namespace ChannelProducerConsumer

-- The local state of a consumer: its loop variable, what it has read so far, and whether it has
-- said that it is done.
structure Consumer where
  i : ℕ
  data : List String
  finished : Bool
  deriving DecidableEq

-- `sent` are the loop variables of the producers, and `buffer` and `done` are the channels.
structure State (producers consumers : ℕ) where
  sent : Fin producers → ℕ
  consumer : Fin consumers → Consumer
  buffer : List String
  done : DoneChannel Unit

inductive Label (producers consumers : ℕ)
  | producer (id : Fin producers)
  | consumer (id : Fin consumers)
  | main
  deriving DecidableEq

variable {producers consumers : ℕ}

-- The text of `fmt.Sprintf("%d i: %d", id, i)`.
def text (id : Fin producers) (i : ℕ) : String :=
  toString id.val ++ " i: " ++ toString i

-- A producer waits while there is no room in the channel.
def producerStep (size toProduce : ℕ) (s : State producers consumers) (id : Fin producers) :
    Option (State producers consumers) :=
  if s.sent id < toProduce then
    if s.buffer.length < size then
      some { s with
        sent   := update s.sent id (s.sent id + 1),
        buffer := s.buffer ++ [text id (s.sent id)] }
    else none
  else none

def consumerStep (toProduce : ℕ) (s : State producers consumers) (id : Fin consumers) :
    Option (State producers consumers) :=
  let c := s.consumer id
  if c.i < toProduce then
    match s.buffer with
    | []        => none
    | x :: rest =>
      some { s with
        consumer := update s.consumer id { c with i := c.i + 1, data := c.data ++ [x] },
        buffer   := rest }
  else if c.finished then none
  else (s.done.send ()).map fun d =>
    { s with consumer := update s.consumer id { c with finished := true }, done := d }

-- `main` waits for all the consumers.
def mainStep (s : State producers consumers) : Option (State producers consumers) :=
  (s.done.receive consumers).map fun d => { s with done := d }

def step (size toProduce : ℕ) (s : State producers consumers) :
    Label producers consumers → Option (State producers consumers)
  | .producer id => producerStep size toProduce s id
  | .consumer id => consumerStep toProduce s id
  | .main        => mainStep s

def init (producers consumers : ℕ) : State producers consumers where
  sent _     := 0
  consumer _ := ⟨0, [], false⟩
  buffer     := []
  done       := .empty

def machine (producers consumers size toProduce : ℕ) :
    Machine (State producers consumers) (Label producers consumers) where
  init s := s = init producers consumers
  step   := step size toProduce

-- The program ends with `main`, whatever the producers do.
def Ended (s : State producers consumers) : Prop :=
  s.done.received.length = consumers

end ChannelProducerConsumer
