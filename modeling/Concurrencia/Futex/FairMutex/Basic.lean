import Concurrencia.FifoLock.Basic
import Mathlib.Logic.Function.Basic

open Function

namespace FairMutex

-- The statements of `lock` and `unlock`, with the values of their variables `number`, `turn` and
-- `current`. A thread at `wait` is about to call `FUTEX_WAIT`, and one at `critical` has returned
-- from `lock`.
inductive Pc
  | idle
  | fetchAdd | loadTurn (number : BitVec 32)
  | wait (number turn : BitVec 32) | asleep (number : BitVec 32)
  | critical
  | addFetch | test (current : ℤ) | wake (current : ℤ)
  deriving DecidableEq

structure State (n : ℕ) where
  pc : Fin n → Pc
  number : BitVec 32
  turn : BitVec 32

-- In the step `spurious` a `FUTEX_WAIT` returns for no reason.
inductive Label (n : ℕ)
  | thread (i : Fin n)
  | spurious (i : Fin n)
  deriving DecidableEq

variable {n : ℕ}

def State.goto (s : State n) (i : Fin n) (p : Pc) : State n :=
  { s with pc := update s.pc i p }

namespace State

variable {s : State n} {i : Fin n} {p : Pc}

@[simp] theorem goto_pc : (s.goto i p).pc = update s.pc i p := rfl
@[simp] theorem goto_number : (s.goto i p).number = s.number := rfl
@[simp] theorem goto_turn : (s.goto i p).turn = s.turn := rfl

end State

def Pc.woken : Pc → Pc
  | asleep v => loadTurn v
  | p        => p

def threadStep (s : State n) (i : Fin n) : Option (State n) :=
  match s.pc i with
  -- Call of `lock`.
  | .idle       => s.goto i .fetchAdd
  | .fetchAdd   => { s with number := s.number + 1 }.goto i (.loadTurn s.number)
  | .loadTurn v => s.goto i (if v ≠ s.turn then .wait v s.turn else .critical)
  | .wait v t   => s.goto i (if s.turn = t then .asleep v else .loadTurn v)
  | .asleep _   => none
  -- Call of `unlock`.
  | .critical   => s.goto i .addFetch
  -- The `int` variable `current` gets the value of an `unsigned`.
  | .addFetch   => { s with turn := s.turn + 1 }.goto i (.test (s.turn + 1).toInt)
  -- The comparison converts `current` back to `unsigned`.
  | .test c     => s.goto i (if s.number ≥ .ofInt 32 c then .wake c else .idle)
  -- A `FUTEX_WAKE` of `INT_MAX` wakes all sleepers.
  | .wake _     => { s with pc := fun j => (s.pc j).woken }.goto i .idle

def spuriousStep (s : State n) (i : Fin n) : Option (State n) :=
  match s.pc i with
  | .wait v _ | .asleep v                     => s.goto i (.loadTurn v)
  | .idle | .fetchAdd | .loadTurn _           => none
  | .critical | .addFetch | .test _ | .wake _ => none

def step (s : State n) : Label n → Option (State n)
  | .thread i   => threadStep s i
  | .spurious i => spuriousStep s i

def init (n : ℕ) : State n where
  pc _   := .idle
  number := 0
  turn   := 0

def machine (n : ℕ) : Machine (State n) (Label n) where
  init s := s = init n
  step   := step

def event (s : State n) : Label n → Option (FifoLock.Event (Fin n))
  | .thread i =>
    match s.pc i with
    | .fetchAdd                     => some (.enqueue i)
    | .loadTurn v                   => if v = s.turn then some (.enter i) else none
    | .addFetch                     => some (.leave i)
    | .idle | .wait _ _ | .asleep _ => none
    | .critical | .test _ | .wake _ => none
  | .spurious _ => none

end FairMutex
