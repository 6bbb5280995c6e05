import Concurrencia.Machine.Basic
import Mathlib

open Function

-- The spinlocks which try to take a flag by one atomic operation. A failed attempt is repeated at
-- once or after a call of `sched_yield`.
namespace SimpleSpinlock

-- Whether the loop reads `mutex` before each attempt, and whether the compare-and-swap is a weak one,
-- which may fail for no reason.
structure Variant where
  tests : Bool
  weak : Bool

-- The accesses of `lock` and `unlock`. A thread at `critical` has returned from `lock`.
inductive Pc
  | idle
  | test | attempt
  | critical
  deriving DecidableEq

structure State (n : ℕ) where
  pc : Fin n → Pc
  mutex : Bool

inductive Label (n : ℕ)
  | thread (i : Fin n)
  | spurious (i : Fin n)
  deriving DecidableEq

variable {n : ℕ}

def State.goto (s : State n) (i : Fin n) (p : Pc) : State n :=
  { s with pc := update s.pc i p }

namespace State

variable {s : State n} {i : Fin n} {p : Pc}

@[simp] theorem goto_pc : (s.goto i p).pc = update s.pc i p := rfl
@[simp] theorem goto_mutex : (s.goto i p).mutex = s.mutex := rfl

end State

-- The begin of the loop.
def Variant.loop (v : Variant) : Pc :=
  if v.tests then .test else .attempt

-- The exchange and the test-and-set leave the flag set, and the compare-and-swap does not touch it,
-- when the attempt fails.
def threadStep (v : Variant) (s : State n) (i : Fin n) : State n :=
  match s.pc i with
  -- Call of `lock`.
  | .idle     => s.goto i v.loop
  | .test     => s.goto i (if s.mutex then .test else .attempt)
  | .attempt  => if s.mutex then s.goto i v.loop else { s with mutex := true }.goto i .critical
  -- The store of `unlock`.
  | .critical => { s with mutex := false }.goto i .idle

def step (v : Variant) (s : State n) : Label n → Option (State n)
  | .thread i   => some (threadStep v s i)
  | .spurious i => if v.weak ∧ s.pc i = .attempt then some (s.goto i v.loop) else none

def init (n : ℕ) : State n where
  pc _  := .idle
  mutex := false

def machine (v : Variant) (n : ℕ) : Machine (State n) (Label n) where
  init s := s = init n
  step   := step v

-- The locks of `simple_spinlock.c`, `test_and_set_yield.c` and `test_test_and_set.c`.
def testTestAndSet : Variant := ⟨true, false⟩

-- The locks of `swap_yield.c` and `test_swap.c`.
def testSwap : Variant := ⟨true, false⟩

-- The locks of `test_compare_and_swap.c` and `go_test_compare_and_swap.go`.
def testCompareAndSwap : Variant := ⟨true, false⟩

-- The lock of `compare_and_swap_yield.c`.
def compareAndSwapYield : Variant := ⟨true, true⟩

-- The locks of `counter_compare_and_swap.c` and `gocounter_compare_and_swap.go`.
def counterCompareAndSwap : Variant := ⟨false, false⟩

-- The locks of `counter_swap.c`, `gocounter_swap.go`, `counter_get_and_set.c`, `array_spinlock.c`
-- and `rw_spinlock.c`.
def counterSwap : Variant := ⟨false, false⟩

-- The lock of `counter_test_and_set.c`.
def counterTestAndSet : Variant := ⟨false, false⟩

-- The element of `counter` which `array_spinlock.c` increments in round `i`.
def arrayCell (arraySize : ℕ) [NeZero arraySize] (i : ℕ) : Option (Fin arraySize) :=
  some (Fin.ofNat arraySize i)

-- In `rw_spinlock.c` most of the rounds only read the counter.
def rwCell (i : ℕ) : Option Unit :=
  if i % 10 ≠ 0 then none else some ()

end SimpleSpinlock
