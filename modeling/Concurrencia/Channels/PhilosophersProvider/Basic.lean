import Concurrencia.DiningTable.Basic
import Concurrencia.DoneChannel.Basic
import Concurrencia.Machine.Basic
import Concurrencia.RoundTable.Basic

open Function

namespace PhilosophersProvider

open DiningTable (Status)

-- The statements of `philosopher`. One at `request` sends its request to be served, and one at
-- `receive` waits for the element from its own channel. One at `release` sends the other request.
inductive Pc
  | loop | think | request | receive | eat | release
  | done | finished
  deriving DecidableEq

-- The statements of `provider`: the one of its loop, the test of `canEat` and the send after it.
-- The list has the calls of `canEat` which are left.
inductive Provider (n : ℕ)
  | receive
  | canEat (i : Fin n) (calls : List (Fin n))
  | send (i : Fin n) (calls : List (Fin n))
  deriving DecidableEq

-- The array of the provider has the status of each philosopher and its channel, which is the one of
-- the philosopher in the second component, or none before the first request.
structure State (n : ℕ) where
  pc : Fin n → Pc
  meals : Fin n → ℕ
  provider : Provider n
  status : Fin n → Status
  channel : Fin n → Option (Fin n)
  done : DoneChannel Unit

-- A send and its receive are one step, `request` on the channel of the provider, and `grant` on the
-- one of a philosopher.
inductive Label (n : ℕ)
  | philosopher (i : Fin n)
  | request (i : Fin n)
  | provider
  | grant
  | main
  deriving DecidableEq

variable {n : ℕ}

def right (i : Fin n) : Fin n :=
  RoundTable.after i

def left (i : Fin n) : Fin n :=
  RoundTable.before i

def State.goto (s : State n) (i : Fin n) (p : Pc) : State n :=
  { s with pc := update s.pc i p }

namespace State

variable {s : State n} {i : Fin n} {p : Pc}

@[simp] theorem goto_pc : (s.goto i p).pc = update s.pc i p := rfl
@[simp] theorem goto_meals : (s.goto i p).meals = s.meals := rfl
@[simp] theorem goto_provider : (s.goto i p).provider = s.provider := rfl
@[simp] theorem goto_status : (s.goto i p).status = s.status := rfl
@[simp] theorem goto_channel : (s.goto i p).channel = s.channel := rfl
@[simp] theorem goto_done : (s.goto i p).done = s.done := rfl

end State

def countMeal (s : State n) (i : Fin n) : State n :=
  { s with meals := update s.meals i (s.meals i + 1) }

-- The rest of the iteration.
def Provider.next : List (Fin n) → Provider n
  | []         => .receive
  | i :: calls => .canEat i calls

def calls (id : Fin n) : Status → List (Fin n)
  | .hungry   => [id]
  | .thinking => [left id, right id]
  | .eating   => []

def receive (s : State n) (id : Fin n) (status : Status) : State n :=
  { s with
    status   := update s.status id status
    channel  := update s.channel id (some id)
    provider := .next (calls id status) }

def philosopherStep (eatCount : ℕ) (s : State n) (i : Fin n) : Option (State n) :=
  match s.pc i with
  | .loop     => s.goto i (if s.meals i < eatCount then .think else .done)
  | .think    => s.goto i .request
  | .request  => none
  | .receive  => none
  | .eat      => s.goto i .release
  | .release  => none
  | .done     => (s.done.send ()).map fun d => { s with done := d }.goto i .finished
  | .finished => none

def requestStep (s : State n) (i : Fin n) : Option (State n) :=
  match s.provider, s.pc i with
  | .receive, .request => some <| (receive s i .hungry).goto i .receive
  | .receive, .release => some <| (receive (countMeal s i) i .thinking).goto i .loop
  | _, _               => none

def providerStep (s : State n) : Option (State n) :=
  match s.provider with
  | .receive        => none
  | .canEat i calls =>
    if s.status i = .hungry ∧ s.status (left i) ≠ .eating ∧ s.status (right i) ≠ .eating then
      some { s with status := update s.status i .eating, provider := .send i calls }
    else
      some { s with provider := .next calls }
  | .send _ _       => none

-- The send on the channel of philosopher `j` waits until `j` receives. Without a channel it waits
-- for ever.
def grantStep (s : State n) : Option (State n) :=
  match s.provider with
  | .send i calls => (s.channel i).bind fun j =>
    if s.pc j = .receive then some <| { s with provider := .next calls }.goto j .eat else none
  | _             => none

def step (eatCount : ℕ) (s : State n) : Label n → Option (State n)
  | .philosopher i => philosopherStep eatCount s i
  | .request i     => requestStep s i
  | .provider      => providerStep s
  | .grant         => grantStep s
  | .main          => (s.done.receive n).map fun d => { s with done := d }

def init (n : ℕ) : State n where
  pc _      := .loop
  meals _   := 0
  provider  := .receive
  status _  := .thinking
  channel _ := none
  done      := .empty

def machine (n eatCount : ℕ) : Machine (State n) (Label n) where
  init s := s = init n
  step   := step eatCount

end PhilosophersProvider
