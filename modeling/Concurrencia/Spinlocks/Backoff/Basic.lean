import Concurrencia.CInt.Basic
import Concurrencia.Machine.Basic
import Mathlib.Logic.Function.Basic

open Function

-- The locks of `swap_backoff.c`, `compare_and_swap_backoff.c` and `test_and_set_backoff.c`. Their
-- loops test the mutex, try to take it by an atomic operation which fails if it is taken, and back
-- off after each failed attempt. They differ in the type of the counter of the failures.
namespace Backoff

inductive Declared
  | int | unsigned
  deriving DecidableEq

-- The value of `++failures`. An `int` must not overflow.
def increment : Declared → BitVec 32 → Option (BitVec 32)
  | .int, v      => if v.toInt = CInt.intMax then none else some (v + 1)
  | .unsigned, v => some (v + 1)

def failuresLimit : ℤ := 12

-- The shift count of `limit`.
def shift (failures : ℤ) : ℤ :=
  if failures > failuresLimit then failuresLimit else failures

def limit (failures : ℤ) : Option (BitVec 32) :=
  CInt.bit (shift failures)

-- The nanoseconds for which `backoff` sleeps, where `rand()` is the given value.
def delay (failures rand : ℤ) : Option ℕ :=
  (limit failures).map fun limit => (1 + .ofInt 32 rand % limit).toNat

-- The accesses of `lock` to the mutex and its local steps, with the value of `failures`. At `failed`
-- it is about to be incremented, and at `backoff` it is passed as an `int`. A thread whose next step
-- is not defined ends at `undefined`.
inductive Pc
  | idle
  | test (failures : BitVec 32) | attempt (failures : BitVec 32)
  | failed (failures : BitVec 32) | backoff (failures : BitVec 32)
  | critical
  | undefined
  deriving DecidableEq

-- `attempts` counts the failed attempts of the last call of `lock`. No step looks at it.
structure State (n : ℕ) where
  pc : Fin n → Pc
  mutex : Bool
  attempts : Fin n → ℕ

variable {n : ℕ}

def State.goto (s : State n) (i : Fin n) (p : Pc) : State n :=
  { s with pc := update s.pc i p }

def State.fail (s : State n) (i : Fin n) : State n :=
  { s with attempts := update s.attempts i (s.attempts i + 1) }

def step (d : Declared) (s : State n) (i : Fin n) : Option (State n) :=
  match s.pc i with
  -- Call of `lock`.
  | .idle      => { s with attempts := update s.attempts i 0 }.goto i (.test 0)
  | .test f    => if s.mutex then (s.fail i).goto i (.failed f) else s.goto i (.attempt f)
  | .attempt f =>
    if s.mutex then (s.fail i).goto i (.failed f) else { s with mutex := true }.goto i .critical
  | .failed f  =>
    match increment d f with
    | some f => s.goto i (.backoff f)
    | none   => s.goto i .undefined
  | .backoff f => s.goto i (if (limit f.toInt).isSome then .test f else .undefined)
  -- The store of `unlock`.
  | .critical  => { s with mutex := false }.goto i .idle
  | .undefined => none

def init (n : ℕ) : State n where
  pc _       := .idle
  mutex      := false
  attempts _ := 0

def machine (d : Declared) (n : ℕ) : Machine (State n) (Fin n) where
  init s := s = init n
  step   := step d

end Backoff

namespace SwapBackoff

def machine (n : ℕ) : Machine (Backoff.State n) (Fin n) :=
  Backoff.machine .int n

end SwapBackoff

namespace CompareAndSwapBackoff

def machine (n : ℕ) : Machine (Backoff.State n) (Fin n) :=
  Backoff.machine .unsigned n

end CompareAndSwapBackoff

namespace TestAndSetBackoff

def machine (n : ℕ) : Machine (Backoff.State n) (Fin n) :=
  Backoff.machine .unsigned n

end TestAndSetBackoff
