import Concurrencia.FifoLock.Basic
import Mathlib.Logic.Function.Basic

open Function

namespace FairMutexSpin

-- The statements of `lock` and `unlock`, with the values of their variables `number`, `tries`,
-- `turn` and `current`. A thread at `wait` is about to call `FUTEX_WAIT`, and one at `critical` has
-- returned from `lock`.
inductive Pc
  | idle
  | fetchAdd | spin (number : BitVec 32) (tries : ℕ) | loadTurn (number : BitVec 32)
  | wait (number turn : BitVec 32) | asleep (number : BitVec 32)
  | storeCurrent (number : BitVec 32)
  | critical
  | addFetch | spinCurrent (current : ℤ) (tries : ℕ) | test (current : ℤ) | wake (current : ℤ)
  deriving DecidableEq

structure State (n : ℕ) where
  pc : Fin n → Pc
  number : BitVec 32
  turn : BitVec 32
  current : BitVec 32

-- In the step `spurious` a `FUTEX_WAIT` returns for no reason.
inductive Label (n : ℕ)
  | thread (i : Fin n)
  | spurious (i : Fin n)
  deriving DecidableEq

variable {n : ℕ}

def State.goto (s : State n) (i : Fin n) (p : Pc) : State n :=
  { s with pc := update s.pc i p }

namespace State

variable {s : State n} {i : Fin n} {p : Pc}

@[simp] theorem goto_pc : (s.goto i p).pc = update s.pc i p := rfl
@[simp] theorem goto_number : (s.goto i p).number = s.number := rfl
@[simp] theorem goto_turn : (s.goto i p).turn = s.turn := rfl
@[simp] theorem goto_current : (s.goto i p).current = s.current := rfl

end State

def Pc.woken : Pc → Pc
  | asleep v => loadTurn v
  | p        => p

def threadStep (s : State n) (i : Fin n) : Option (State n) :=
  match s.pc i with
  -- Call of `lock`.
  | .idle            => s.goto i .fetchAdd
  | .fetchAdd        => { s with number := s.number + 1 }.goto i (.spin s.number 0)
  | .spin v k        => s.goto i (if v ≠ s.turn ∧ k < 100 then .spin v (k + 1) else .loadTurn v)
  | .loadTurn v      => s.goto i (if v ≠ s.turn then .wait v s.turn else .storeCurrent v)
  | .wait v t        => s.goto i (if s.turn = t then .asleep v else .loadTurn v)
  | .asleep _        => none
  | .storeCurrent v  => { s with current := v }.goto i .critical
  -- Call of `unlock`.
  | .critical        => s.goto i .addFetch
  -- The `int` variable `current` gets the value of an `unsigned`.
  | .addFetch        => { s with turn := s.turn + 1 }.goto i (.spinCurrent (s.turn + 1).toInt 0)
  -- The comparisons convert `current` back to `unsigned`.
  | .spinCurrent c k =>
    s.goto i (if .ofInt 32 c ≠ s.current ∧ k < 100 then .spinCurrent c (k + 1) else .test c)
  | .test c          => s.goto i (if .ofInt 32 c > s.current then .wake c else .idle)
  -- A `FUTEX_WAKE` of `INT_MAX` wakes all sleepers.
  | .wake _          => { s with pc := fun j => (s.pc j).woken }.goto i .idle

def spuriousStep (s : State n) (i : Fin n) : Option (State n) :=
  match s.pc i with
  | .wait v _ | .asleep v                       => s.goto i (.loadTurn v)
  | .idle | .fetchAdd | .spin _ _ | .loadTurn _ => none
  | .storeCurrent _ | .critical | .addFetch     => none
  | .spinCurrent _ _ | .test _ | .wake _        => none

def step (s : State n) : Label n → Option (State n)
  | .thread i   => threadStep s i
  | .spurious i => spuriousStep s i

def init (n : ℕ) : State n where
  pc _    := .idle
  number  := 0
  turn    := 0
  current := 0

def machine (n : ℕ) : Machine (State n) (Label n) where
  init s := s = init n
  step   := step

def event (s : State n) : Label n → Option (FifoLock.Event (Fin n))
  | .thread i =>
    match s.pc i with
    | .fetchAdd                                 => some (.enqueue i)
    | .loadTurn v                               => if v = s.turn then some (.enter i) else none
    | .addFetch                                 => some (.leave i)
    | .idle | .spin _ _ | .wait _ _ | .asleep _ => none
    | .storeCurrent _ | .critical               => none
    | .spinCurrent _ _ | .test _ | .wake _      => none
  | .spurious _ => none

end FairMutexSpin
