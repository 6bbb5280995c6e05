import Concurrencia.Machine.Basic
import Concurrencia.RoundTable.Basic

open Function

-- The philosophers of `monitors/philosophers.py` and of `monitors/PhilosopherConditions.java`.
namespace MonitorPhilosophers

-- The statements of `run`, `pick` and `release`. A philosopher at `wait` has the mutex and is about
-- to wait on its own condition, one at `waiting` is in the queue of the condition and has released
-- the mutex, and one at `relock` takes it again. One at `relockThrow` takes it again and then
-- leaves `pick` by the exception. In both ways `pick` returns through `pickExit`.
inductive Pc
  | loop | think
  | pickMutex | test | wait | waiting | relock | relockThrow | takeLeft | takeRight | pickExit
  | eat
  | releaseMutex | putLeft | putRight | testLeft | notifyLeft | testRight | notifyRight
  | releaseExit
  | finished
  deriving DecidableEq

inductive Version
  | python | java
  deriving DecidableEq

structure State (n : ℕ) where
  pc : Fin n → Pc
  meals : Fin n → ℕ
  mutex : Bool
  forks : Fin n → ℤ

-- In Java a wait may return for no reason, and it throws if the philosopher is interrupted before
-- or while it waits.
inductive Label (n : ℕ)
  | philosopher (i : Fin n)
  | spurious (i : Fin n)
  | interrupt (i : Fin n)
  deriving DecidableEq

variable {n : ℕ}

def left : Version → Fin n → Fin n
  | .python, i => RoundTable.after i
  | .java, i   => RoundTable.before i

def right : Version → Fin n → Fin n
  | .python, i => RoundTable.before i
  | .java, i   => RoundTable.after i

def State.goto (s : State n) (i : Fin n) (p : Pc) : State n :=
  { s with pc := update s.pc i p }

def addForks (s : State n) (i : Fin n) (d : ℤ) : State n :=
  { s with forks := update s.forks i (s.forks i + d) }

def countMeal (s : State n) (i : Fin n) : State n :=
  { s with meals := update s.meals i (s.meals i + 1) }

section Fields

variable {s : State n} {i : Fin n} {p : Pc} {d : ℤ}

@[simp] theorem State.goto_pc : (s.goto i p).pc = update s.pc i p := rfl
@[simp] theorem State.goto_mutex : (s.goto i p).mutex = s.mutex := rfl
@[simp] theorem State.goto_forks : (s.goto i p).forks = s.forks := rfl
@[simp] theorem addForks_pc : (addForks s i d).pc = s.pc := rfl
@[simp] theorem addForks_mutex : (addForks s i d).mutex = s.mutex := rfl
@[simp] theorem addForks_forks :
    (addForks s i d).forks = update s.forks i (s.forks i + d) := rfl
@[simp] theorem countMeal_pc : (countMeal s i).pc = s.pc := rfl
@[simp] theorem countMeal_forks : (countMeal s i).forks = s.forks := rfl

end Fields

def takeMutex (s : State n) (i : Fin n) (p : Pc) : Option (State n) :=
  if s.mutex then none else some <| { s with mutex := true }.goto i p

-- Only philosopher `i` waits on the condition of philosopher `i`.
def notify (s : State n) (i : Fin n) : State n :=
  if s.pc i = .waiting then s.goto i .relock else s

def philosopherStep (v : Version) (eatCount : ℕ) (s : State n) (i : Fin n) : Option (State n) :=
  match s.pc i with
  | .loop         => s.goto i (if s.meals i < eatCount then .think else .finished)
  | .think        => s.goto i .pickMutex
  | .pickMutex    => takeMutex s i .test
  | .test         => s.goto i (if s.forks i ≠ 2 then .wait else .takeLeft)
  | .wait         => { s with mutex := false }.goto i .waiting
  | .waiting      => none
  | .relock       => takeMutex s i .test
  | .relockThrow  => takeMutex s i .pickExit
  | .takeLeft     => (addForks s (left v i) (-1)).goto i .takeRight
  | .takeRight    => (addForks s (right v i) (-1)).goto i .pickExit
  | .pickExit     => { s with mutex := false }.goto i .eat
  | .eat          => s.goto i .releaseMutex
  | .releaseMutex => takeMutex s i .putLeft
  | .putLeft      => (addForks s (left v i) 1).goto i .putRight
  | .putRight     => (addForks s (right v i) 1).goto i .testLeft
  | .testLeft     => s.goto i (if s.forks (left v i) = 2 then .notifyLeft else .testRight)
  | .notifyLeft   => (notify s (left v i)).goto i .testRight
  | .testRight    => s.goto i (if s.forks (right v i) = 2 then .notifyRight else .releaseExit)
  | .notifyRight  => (notify s (right v i)).goto i .releaseExit
  | .releaseExit  => { countMeal s i with mutex := false }.goto i .loop
  | .finished     => none

def spuriousStep (v : Version) (s : State n) (i : Fin n) : Option (State n) :=
  if v = .java ∧ s.pc i = .waiting then some <| s.goto i .relock else none

def interruptStep (v : Version) (s : State n) (i : Fin n) : Option (State n) :=
  match v, s.pc i with
  | .java, .wait    => some <| s.goto i .pickExit
  | .java, .waiting => some <| s.goto i .relockThrow
  | _, _            => none

def step (v : Version) (eatCount : ℕ) (s : State n) : Label n → Option (State n)
  | .philosopher i => philosopherStep v eatCount s i
  | .spurious i    => spuriousStep v s i
  | .interrupt i   => interruptStep v s i

def init (n : ℕ) : State n where
  pc _    := .loop
  meals _ := 0
  mutex   := false
  forks _ := 2

def machine (v : Version) (n eatCount : ℕ) : Machine (State n) (Label n) where
  init s := s = init n
  step   := step v eatCount

end MonitorPhilosophers
