import Concurrencia.FifoLock.Basic
import Mathlib.Algebra.Ring.Nat
import Mathlib.Logic.Function.Basic

open Function

namespace ArrayLock

def padding : ℕ := 32

-- The length of `flag` for `N` threads.
def size (N : ℕ) : ℕ :=
  N * padding

-- The value of `*my_index` for a slot.
def index (N : ℕ) (slot : BitVec 16) : BitVec 16 :=
  .ofNat 16 (slot.toNat % N * padding)

-- The statements of `lock` and `unlock`, with the value of `*my_index`. A thread at `reset` has
-- seen its flag, one at `critical` has returned from `lock`.
inductive Pc
  | idle
  | addTail | spin (myIndex : BitVec 16) | reset (myIndex : BitVec 16)
  | critical (myIndex : BitVec 16) | store (myIndex : BitVec 16)
  deriving DecidableEq

structure State (N : ℕ) where
  pc : Fin N → Pc
  tail : BitVec 16
  flag : ℕ → Bool

variable {N : ℕ}

def State.goto (s : State N) (i : Fin N) (p : Pc) : State N :=
  { s with pc := update s.pc i p }

namespace State

variable {s : State N} {i : Fin N} {p : Pc}

@[simp] theorem goto_pc : (s.goto i p).pc = update s.pc i p := rfl
@[simp] theorem goto_tail : (s.goto i p).tail = s.tail := rfl
@[simp] theorem goto_flag : (s.goto i p).flag = s.flag := rfl

end State

def step (s : State N) (i : Fin N) : Option (State N) :=
  match s.pc i with
  -- Call of `lock`.
  | .idle       => s.goto i .addTail
  | .addTail    => { s with tail := s.tail + 1 }.goto i (.spin (index N s.tail))
  | .spin v     => s.goto i (if s.flag v.toNat then .reset v else .spin v)
  | .reset v    => { s with flag := update s.flag v.toNat false }.goto i (.critical v)
  -- Call of `unlock`.
  | .critical v => s.goto i (.store v)
  | .store v    =>
    { s with flag := update s.flag ((v.toNat + padding) % size N) true }.goto i .idle

def init (N : ℕ) : State N where
  pc _   := .idle
  tail   := 0
  flag k := k = 0

def machine (N : ℕ) : Machine (State N) (Fin N) where
  init s := s = init N
  step   := step

def event (s : State N) (i : Fin N) : Option (FifoLock.Event (Fin N)) :=
  match s.pc i with
  | .addTail    => some (.enqueue i)
  | .reset _    => some (.enter i)
  | .store _    => some (.leave i)
  | .idle       => none
  | .spin _     => none
  | .critical _ => none

end ArrayLock
