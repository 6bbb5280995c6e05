import Concurrencia.DiningTable.Basic
import Concurrencia.Machine.Basic
import Concurrencia.RoundTable.Basic

open Function

-- The philosophers of `semaphores/philosophers_2.py`, who have a semaphore each.
namespace PhilosophersSync

open DiningTable (Status)

-- The calls of `canEat` in `pick` and in `release`.
inductive Call
  | own | left | right
  deriving DecidableEq

-- The statements of `run`, `pick` and `release`, where `test`, `grant` and `signal` are those of
-- `canEat`. A philosopher at `acquire` takes the permit of its own semaphore.
inductive Pc
  | loop | think
  | pickMutex | hungry
  | test (c : Call) | grant (c : Call) | signal (c : Call)
  | pickExit | acquire
  | eat
  | releaseMutex | thinking | releaseExit
  | finished
  deriving DecidableEq

structure State (n : ℕ) where
  pc : Fin n → Pc
  meals : Fin n → ℕ
  mutex : Bool
  status : Fin n → Status
  sync : Fin n → ℕ

variable {n : ℕ}

def right (i : Fin n) : Fin n :=
  RoundTable.before i

def left (i : Fin n) : Fin n :=
  RoundTable.after i

def State.goto (s : State n) (i : Fin n) (p : Pc) : State n :=
  { s with pc := update s.pc i p }

namespace State

variable {s : State n} {i : Fin n} {p : Pc}

@[simp] theorem goto_pc : (s.goto i p).pc = update s.pc i p := rfl
@[simp] theorem goto_meals : (s.goto i p).meals = s.meals := rfl
@[simp] theorem goto_mutex : (s.goto i p).mutex = s.mutex := rfl
@[simp] theorem goto_status : (s.goto i p).status = s.status := rfl
@[simp] theorem goto_sync : (s.goto i p).sync = s.sync := rfl

end State

-- The argument of `canEat`, and where the caller goes on.
def Call.target (i : Fin n) : Call → Fin n
  | own   => i
  | left  => PhilosophersSync.left i
  | right => PhilosophersSync.right i

def Call.next : Call → Pc
  | own   => .pickExit
  | left  => .test right
  | right => .releaseExit

def takeMutex (s : State n) (i : Fin n) (p : Pc) : Option (State n) :=
  if s.mutex then none else some <| { s with mutex := true }.goto i p

def setStatus (s : State n) (i : Fin n) (status : Status) : State n :=
  { s with status := update s.status i status }

def MayEat (s : State n) (i : Fin n) : Prop :=
  s.status i = .hungry ∧ s.status (left i) ≠ .eating ∧ s.status (right i) ≠ .eating

instance {s : State n} {i : Fin n} : Decidable (MayEat s i) :=
  inferInstanceAs <| Decidable (_ ∧ _)

def countMeal (s : State n) (i : Fin n) : State n :=
  { s with meals := update s.meals i (s.meals i + 1) }

section Fields

variable {s : State n} {i : Fin n} {t : Status}

@[simp] theorem setStatus_pc : (setStatus s i t).pc = s.pc := rfl
@[simp] theorem setStatus_mutex : (setStatus s i t).mutex = s.mutex := rfl
@[simp] theorem setStatus_status : (setStatus s i t).status = update s.status i t := rfl
@[simp] theorem setStatus_sync : (setStatus s i t).sync = s.sync := rfl
@[simp] theorem countMeal_pc : (countMeal s i).pc = s.pc := rfl
@[simp] theorem countMeal_status : (countMeal s i).status = s.status := rfl
@[simp] theorem countMeal_sync : (countMeal s i).sync = s.sync := rfl

end Fields

def step (eatCount : ℕ) (s : State n) (i : Fin n) : Option (State n) :=
  match s.pc i with
  | .loop         => s.goto i (if s.meals i < eatCount then .think else .finished)
  | .think        => s.goto i .pickMutex
  | .pickMutex    => takeMutex s i .hungry
  | .hungry       => (setStatus s i .hungry).goto i (.test .own)
  | .test c       => s.goto i (if MayEat s (c.target i) then .grant c else c.next)
  | .grant c      => (setStatus s (c.target i) .eating).goto i (.signal c)
  | .signal c     =>
    { s with sync := update s.sync (c.target i) (s.sync (c.target i) + 1) }.goto i c.next
  | .pickExit     => { s with mutex := false }.goto i .acquire
  | .acquire      =>
    if s.sync i = 0 then
      none
    else
      some <| { s with sync := update s.sync i (s.sync i - 1) }.goto i .eat
  | .eat          => s.goto i .releaseMutex
  | .releaseMutex => takeMutex s i .thinking
  | .thinking     => (setStatus s i .thinking).goto i (.test .left)
  | .releaseExit  => { countMeal s i with mutex := false }.goto i .loop
  | .finished     => none

def init (n : ℕ) : State n where
  pc _     := .loop
  meals _  := 0
  mutex    := false
  status _ := .thinking
  sync _   := 0

-- The label is the philosopher who takes the step.
def machine (n eatCount : ℕ) : Machine (State n) (Fin n) where
  init s := s = init n
  step   := step eatCount

end PhilosophersSync
