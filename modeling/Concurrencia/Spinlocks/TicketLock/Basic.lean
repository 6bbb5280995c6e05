import Concurrencia.FifoLock.Basic
import Mathlib.Logic.Function.Basic

open Function

namespace TicketLock

-- The statements of `lock` and `unlock`. A thread at `critical` has returned from `lock`.
inductive Pc (w : ℕ)
  | idle
  | addNumber | spin (number : BitVec w)
  | critical | addTurn
  deriving DecidableEq

structure State (n w : ℕ) where
  pc : Fin n → Pc w
  number : BitVec w
  turn : BitVec w

variable {n w : ℕ}

def State.goto (s : State n w) (i : Fin n) (p : Pc w) : State n w :=
  { s with pc := update s.pc i p }

namespace State

variable {s : State n w} {i : Fin n} {p : Pc w}

@[simp] theorem goto_pc : (s.goto i p).pc = update s.pc i p := rfl
@[simp] theorem goto_number : (s.goto i p).number = s.number := rfl
@[simp] theorem goto_turn : (s.goto i p).turn = s.turn := rfl

end State

-- The ticket of a thread is the old value of `number` plus `first`.
def step (first : BitVec w) (s : State n w) (i : Fin n) : Option (State n w) :=
  match s.pc i with
  -- Call of `lock`.
  | .idle      => s.goto i .addNumber
  | .addNumber => { s with number := s.number + 1 }.goto i (.spin (s.number + first))
  | .spin v    => s.goto i (if v ≠ s.turn then .spin v else .critical)
  -- Call of `unlock`.
  | .critical  => s.goto i .addTurn
  | .addTurn   => { s with turn := s.turn + 1 }.goto i .idle

def init (n : ℕ) (first : BitVec w) : State n w where
  pc _   := .idle
  number := 0
  turn   := first

def machine (n : ℕ) (first : BitVec w) : Machine (State n w) (Fin n) where
  init s := s = init n first
  step   := step first

def event (s : State n w) (i : Fin n) : Option (FifoLock.Event (Fin n)) :=
  match s.pc i with
  | .addNumber => some (.enqueue i)
  | .spin v    => if v = s.turn then some (.enter i) else none
  | .addTurn   => some (.leave i)
  | .idle      => none
  | .critical  => none

-- The locks of `ticket_lock.c` and `ticket_lock_yield.c`.
def ticketLock (n : ℕ) : Machine (State n 16) (Fin n) :=
  machine n 0

-- The lock of `counter_get_and_add.c`.
def counterGetAndAdd (n : ℕ) : Machine (State n 32) (Fin n) :=
  machine n 0

-- The lock of `gocounter_get_and_add.go`, where the ticket is the new value of `number`.
def gocounterGetAndAdd (n : ℕ) : Machine (State n 32) (Fin n) :=
  machine n 1

end TicketLock
