import Concurrencia.DoneChannel.Basic
import Concurrencia.Machine.Basic
import Concurrencia.RoundTable.Basic

open Function

-- The philosophers of `channels/philosophers.go` and of `semaphores/philosophers_1.py`, who pick
-- the fork with the lower number first.
namespace Philosophers

-- A philosopher at `loop` tests whether it has eaten often enough. The accesses to the forks are in
-- the order of `pick` and `release`.
inductive Pc
  | loop | think | pickFirst | pickSecond | eat | releaseOwn | releaseRight
  | done | finished
  deriving DecidableEq

-- The forks are channels or locks. With channels a philosopher says in the end that it is done, and
-- `main` waits for that.
inductive Version
  | channels | semaphores
  deriving DecidableEq

-- `forks` tells which forks are on the table, where the channel has its element or the lock is
-- free.
structure State (n : ℕ) where
  pc : Fin n → Pc
  meals : Fin n → ℕ
  forks : Fin n → Bool
  done : DoneChannel Unit

inductive Label (n : ℕ)
  | philosopher (i : Fin n)
  | main
  deriving DecidableEq

variable {n : ℕ}

def right (i : Fin n) : Fin n :=
  RoundTable.after i

def State.goto (s : State n) (i : Fin n) (p : Pc) : State n :=
  { s with pc := update s.pc i p }

namespace State

variable {s : State n} {i : Fin n} {p : Pc}

@[simp] theorem goto_pc : (s.goto i p).pc = update s.pc i p := rfl
@[simp] theorem goto_meals : (s.goto i p).meals = s.meals := rfl
@[simp] theorem goto_forks : (s.goto i p).forks = s.forks := rfl
@[simp] theorem goto_done : (s.goto i p).done = s.done := rfl

end State

def firstFork (i : Fin n) : Fin n :=
  if i < right i then i else right i

def secondFork (i : Fin n) : Fin n :=
  if i < right i then right i else i

def take (s : State n) (i f : Fin n) (p : Pc) : Option (State n) :=
  if s.forks f then some <| { s with forks := update s.forks f false }.goto i p else none

-- There is no room in the channel of a fork which is on the table, and a lock which is free cannot
-- be released.
def put (s : State n) (i f : Fin n) (p : Pc) : Option (State n) :=
  if s.forks f then none else some <| { s with forks := update s.forks f true }.goto i p

def countMeal (s : State n) (i : Fin n) : State n :=
  { s with meals := update s.meals i (s.meals i + 1) }

def finish (v : Version) (s : State n) (i : Fin n) : Option (State n) :=
  match v with
  | .channels   => (s.done.send ()).map fun d => { s with done := d }.goto i .finished
  | .semaphores => s.goto i .finished

def philosopherStep (v : Version) (eatCount : ℕ) (s : State n) (i : Fin n) : Option (State n) :=
  match s.pc i with
  | .loop         => s.goto i (if s.meals i < eatCount then .think else .done)
  | .think        => s.goto i .pickFirst
  | .pickFirst    => take s i (firstFork i) .pickSecond
  | .pickSecond   => take s i (secondFork i) .eat
  | .eat          => s.goto i .releaseOwn
  | .releaseOwn   => put s i i .releaseRight
  | .releaseRight => put (countMeal s i) i (right i) .loop
  | .done         => finish v s i
  | .finished     => none

def mainStep (v : Version) (s : State n) : Option (State n) :=
  match v with
  | .channels   => (s.done.receive n).map fun d => { s with done := d }
  | .semaphores => none

def step (v : Version) (eatCount : ℕ) (s : State n) : Label n → Option (State n)
  | .philosopher i => philosopherStep v eatCount s i
  | .main          => mainStep v s

def init (n : ℕ) : State n where
  pc _    := .loop
  meals _ := 0
  forks _ := true
  done    := .empty

def machine (v : Version) (n eatCount : ℕ) : Machine (State n) (Label n) where
  init s := s = init n
  step   := step v eatCount

end Philosophers
