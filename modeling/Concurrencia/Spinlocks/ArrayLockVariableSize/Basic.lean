import Concurrencia.Machine.Basic
import Mathlib.Algebra.Ring.Nat
import Mathlib.Logic.Function.Basic

open Function

namespace ArrayLockVariableSize

def numThreads : ℕ := 4

-- What `main` makes of the result of `atol`. For an `unsigned`, the test excludes zero only.
def parse (argument : BitVec 64) : Option (BitVec 32) :=
  let padding := argument.setWidth 32
  if padding ≤ 0 then none else some padding

def size (padding : BitVec 32) : BitVec 32 :=
  .ofNat 32 numThreads * padding

-- The value of `*my_index` for a slot.
def index (padding : BitVec 32) (slot : BitVec 16) : BitVec 16 :=
  (.ofNat 32 (slot.toNat % numThreads) * padding).setWidth 16

-- The position which `unlock` sets.
def position (padding : BitVec 32) (myIndex : BitVec 16) : BitVec 32 :=
  (myIndex.setWidth 32 + padding) % size padding

-- The statements of `lock` and `unlock`, with the value of `*my_index`. A thread at `reset` has
-- seen its flag, one at `critical` has returned from `lock`.
inductive Pc
  | idle
  | addTail | spin (myIndex : BitVec 16) | reset (myIndex : BitVec 16)
  | critical (myIndex : BitVec 16) | store (myIndex : BitVec 16)
  deriving DecidableEq

structure State where
  pc : Fin numThreads → Pc
  tail : BitVec 16
  flag : ℕ → BitVec 8

def State.goto (s : State) (i : Fin numThreads) (p : Pc) : State :=
  { s with pc := update s.pc i p }

namespace State

variable {s : State} {i : Fin numThreads} {p : Pc}

@[simp] theorem goto_pc : (s.goto i p).pc = update s.pc i p := rfl
@[simp] theorem goto_tail : (s.goto i p).tail = s.tail := rfl
@[simp] theorem goto_flag : (s.goto i p).flag = s.flag := rfl

end State

def step (padding : BitVec 32) (s : State) (i : Fin numThreads) : Option State :=
  match s.pc i with
  -- Call of `lock`.
  | .idle       => s.goto i .addTail
  | .addTail    => { s with tail := s.tail + 1 }.goto i (.spin (index padding s.tail))
  | .spin v     => s.goto i (if s.flag v.toNat ≠ 0 then .reset v else .spin v)
  | .reset v    => { s with flag := update s.flag v.toNat 0 }.goto i (.critical v)
  -- Call of `unlock`.
  | .critical v => s.goto i (.store v)
  | .store v    => { s with flag := update s.flag (position padding v).toNat 1 }.goto i .idle

-- The block which `malloc` returns has the given contents.
def init (contents : ℕ → BitVec 8) : State where
  pc _ := .idle
  tail := 0
  flag := update contents 0 1

def machine (padding : BitVec 32) (contents : ℕ → BitVec 8) : Machine State (Fin numThreads) where
  init s := s = init contents
  step   := step padding

end ArrayLockVariableSize
