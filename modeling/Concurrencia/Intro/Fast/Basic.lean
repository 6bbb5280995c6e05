import Concurrencia.Machine.Basic
import Mathlib.Data.Int.Order.Basic
import Mathlib.Logic.Function.Basic

open Function

namespace Fast

-- The statements of `lock` and `unlock`, named after the variable they access. A thread at
-- `idle` is outside of both, one at `critical` has returned from `lock`.
inductive Pc
  | idle
  | setB | setX | testY | resetB | spinY | setY | testX
  | clearB | scan (j : ℕ) | recheckY | respinY
  | critical
  | releaseY | releaseB
  deriving DecidableEq

structure State (n : ℕ) where
  pc : Fin n → Pc
  b : Fin n → ℕ
  x : ℤ
  y : ℤ

variable {n : ℕ}

def State.goto (s : State n) (i : Fin n) (p : Pc) : State n :=
  { s with pc := update s.pc i p }

namespace State

variable {s : State n} {i j : Fin n} {p : Pc}

@[simp] theorem goto_pc_self : (s.goto i p).pc i = p := update_self ..
@[simp] theorem goto_pc_of_ne (h : j ≠ i) : (s.goto i p).pc j = s.pc j := update_of_ne h ..
@[simp] theorem goto_b : (s.goto i p).b = s.b := rfl
@[simp] theorem goto_x : (s.goto i p).x = s.x := rfl
@[simp] theorem goto_y : (s.goto i p).y = s.y := rfl

end State

-- One statement of thread `i`. A spin loop whose condition holds steps to itself.
def next (s : State n) (i : Fin n) : State n :=
  match s.pc i with
  -- Call of `lock`.
  | .idle     => s.goto i .setB
  | .setB     => { s with b := update s.b i 1 }.goto i .setX
  | .setX     => { s with x := i }.goto i .testY
  | .testY    => s.goto i (if s.y ≥ 0 then .resetB else .setY)
  | .resetB   => { s with b := update s.b i 0 }.goto i .spinY
  | .spinY    => s.goto i (if s.y ≥ 0 then .spinY else .setB)
  | .setY     => { s with y := i }.goto i .testX
  | .testX    => s.goto i (if s.x ≠ i then .clearB else .critical)
  | .clearB   => { s with b := update s.b i 0 }.goto i (.scan 0)
  | .scan j   =>
    s.goto i (if h : j < n then if s.b ⟨j, h⟩ ≠ 0 then .scan j else .scan (j + 1) else .recheckY)
  | .recheckY => s.goto i (if s.y ≠ i then .respinY else .critical)
  | .respinY  => s.goto i (if s.y ≥ 0 then .respinY else .setB)
  -- Call of `unlock`.
  | .critical => s.goto i .releaseY
  | .releaseY => { s with y := -1 }.goto i .releaseB
  | .releaseB => { s with b := update s.b i 0 }.goto i .idle

def init (n : ℕ) : State n where
  pc _ := .idle
  b _  := 0
  x    := -1
  y    := -1

def machine (n : ℕ) : Machine (State n) (Fin n) where
  init s   := s = init n
  step s i := some (next s i)

end Fast
