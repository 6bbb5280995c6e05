import Concurrencia.Machine.Basic
import Mathlib.Algebra.Ring.Nat
import Mathlib.Logic.Function.Basic

open Function

namespace Bakery

-- The accesses of `lock`, `max` and `unlock` to the shared arrays. The loop of `max` is at
-- `scan k max` and the one of `lock` at `waitChoosing j`. The condition of the second spin loop
-- reads `number[j]` at `testPositive j`, `testLess j` and `testEqual j`.
inductive Pc (n : ℕ)
  | idle
  | setChoosing
  | scan (k max : ℕ) | assign (k : Fin n)
  | setNumber (max : ℕ) | clearChoosing
  | waitChoosing (j : ℕ) | testPositive (j : Fin n) | testLess (j : Fin n) | testEqual (j : Fin n)
  | critical
  | release
  deriving DecidableEq

structure State (n : ℕ) where
  pc : Fin n → Pc n
  choosing : Fin n → ℕ
  number : Fin n → ℕ

variable {n : ℕ}

def State.goto (s : State n) (i : Fin n) (p : Pc n) : State n :=
  { s with pc := update s.pc i p }

namespace State

variable {s : State n} {i j : Fin n} {p : Pc n}

@[simp] theorem goto_pc_self : (s.goto i p).pc i = p := update_self ..
@[simp] theorem goto_pc_of_ne (h : j ≠ i) : (s.goto i p).pc j = s.pc j := update_of_ne h ..
@[simp] theorem goto_choosing : (s.goto i p).choosing = s.choosing := rfl
@[simp] theorem goto_number : (s.goto i p).number = s.number := rfl

end State

-- The numbers of values and the largest value of the C type `unsigned`.
def uintSize : ℕ := 2 ^ 32

def uintMax : ℕ := uintSize - 1

-- One access of thread `i`. A spin loop whose condition holds goes back to its first test.
def next (s : State n) (i : Fin n) : State n :=
  match s.pc i with
  -- Call of `lock`.
  | .idle           => s.goto i .setChoosing
  | .setChoosing    => { s with choosing := update s.choosing i 1 }.goto i (.scan 0 0)
  | .scan k max     =>
    s.goto i (if h : k < n then if s.number ⟨k, h⟩ > max then .assign ⟨k, h⟩ else .scan (k + 1) max
              else .setNumber max)
  -- The second read of `v[k]`, which may differ from the compared one.
  | .assign k       => s.goto i (.scan (k + 1) (s.number k))
  | .setNumber max  =>
    { s with number := update s.number i ((max + 1) % uintSize) }.goto i .clearChoosing
  | .clearChoosing  => { s with choosing := update s.choosing i 0 }.goto i (.waitChoosing 0)
  | .waitChoosing j =>
    s.goto i (if h : j < n then if s.choosing ⟨j, h⟩ ≠ 0 then .waitChoosing j else .testPositive ⟨j, h⟩
              else .critical)
  | .testPositive j => s.goto i (if s.number j > 0 then .testLess j else .waitChoosing (j + 1))
  | .testLess j     => s.goto i (if s.number j < s.number i then .testPositive j else .testEqual j)
  | .testEqual j    =>
    s.goto i (if s.number j = s.number i ∧ j < i then .testPositive j else .waitChoosing (j + 1))
  -- Call of `unlock`.
  | .critical       => s.goto i .release
  | .release        => { s with number := update s.number i 0 }.goto i .idle

def init (n : ℕ) : State n where
  pc _       := .idle
  choosing _ := 0
  number _   := 0

def machine (n : ℕ) : Machine (State n) (Fin n) where
  init s   := s = init n
  step s i := some (next s i)

-- No number has reached the maximum unsigned value.
def NoOverflow (s : State n) : Prop :=
  ∀ i, s.number i < uintMax

instance : DecidablePred (NoOverflow (n := n)) :=
  fun _ => inferInstanceAs (Decidable (∀ _, _ < _))

end Bakery
