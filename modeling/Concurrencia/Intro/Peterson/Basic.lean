import Concurrencia.Machine.Basic
import Mathlib.Data.Fin.Basic
import Mathlib.Logic.Function.Basic

open Function

namespace Peterson

-- The accesses of `lock` and `unlock` to the shared variables. The loop of `lock` reads `states[j]`
-- at `testState` and `turn` at `testTurn`. A thread at `critical` has returned from `lock`.
inductive Pc
  | idle
  | setState | setTurn | testState | testTurn
  | critical
  | clearState
  deriving DecidableEq

structure State where
  pc : Fin 2 → Pc
  states : Fin 2 → Bool
  turn : Fin 2

def State.goto (s : State) (i : Fin 2) (p : Pc) : State :=
  { s with pc := update s.pc i p }

namespace State

variable {s : State} {i : Fin 2} {p : Pc}

@[simp] theorem goto_pc : (s.goto i p).pc = update s.pc i p := rfl
@[simp] theorem goto_states : (s.goto i p).states = s.states := rfl
@[simp] theorem goto_turn : (s.goto i p).turn = s.turn := rfl

end State

-- The index `j`.
def other (i : Fin 2) : Fin 2 :=
  ⟨(i + 1) % 2, Nat.mod_lt _ Nat.two_pos⟩

-- The memory barrier is between `setTurn` and `testState`. No step overtakes another one here.
def next (s : State) (i : Fin 2) : State :=
  match s.pc i with
  -- Call of `lock`.
  | .idle       => s.goto i .setState
  | .setState   => { s with states := update s.states i true }.goto i .setTurn
  | .setTurn    => { s with turn := other i }.goto i .testState
  | .testState  => s.goto i (if s.states (other i) then .testTurn else .critical)
  | .testTurn   => s.goto i (if s.turn = other i then .testState else .critical)
  -- Call of `unlock`.
  | .critical   => s.goto i .clearState
  | .clearState => { s with states := update s.states i false }.goto i .idle

def init : State where
  pc _     := .idle
  states _ := false
  turn     := ⟨0, Nat.two_pos⟩

def machine : Machine State (Fin 2) where
  init s   := s = init
  step s i := some (next s i)

-- The thread which enters the critical section by the step.
def entry (s : State) (i : Fin 2) : Option (Fin 2) :=
  if s.pc i ≠ .critical ∧ (next s i).pc i = .critical then some i else none

end Peterson
