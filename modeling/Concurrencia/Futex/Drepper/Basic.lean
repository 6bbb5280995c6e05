import Concurrencia.Machine.Basic
import Mathlib.Data.Fintype.Basic
import Mathlib.Data.Int.Order.Basic
import Mathlib.Logic.Function.Basic

open Function

namespace Drepper

-- The statements of `lock` and `unlock`. Both exchanges of `lock` are followed by the test of the
-- loop, so they share a program point. A thread at `asleep` is in the queue of the futex, one at
-- `critical` has returned from `lock`.
inductive Pc
  | idle
  | compareExchange | exchange | wait | asleep
  | critical
  | fetchSub | store | wake
  deriving DecidableEq

structure State (n : ℕ) where
  pc : Fin n → Pc
  futex : ℤ

-- Besides the threads the kernel has a say: it chooses the sleeper which is dequeued by
-- `FUTEX_WAKE`, and `FUTEX_WAIT` may return for no reason.
inductive Label (n : ℕ)
  | thread (i : Fin n)
  | wake (i j : Fin n)
  | spurious (i : Fin n)
  deriving DecidableEq

variable {n : ℕ}

def State.goto (s : State n) (i : Fin n) (p : Pc) : State n :=
  { s with pc := update s.pc i p }

namespace State

variable {s : State n} {i j : Fin n} {p : Pc}

@[simp] theorem goto_pc_self : (s.goto i p).pc i = p := update_self ..
@[simp] theorem goto_pc_of_ne (h : j ≠ i) : (s.goto i p).pc j = s.pc j := update_of_ne h ..
@[simp] theorem goto_futex : (s.goto i p).futex = s.futex := rfl

end State

def threadStep (s : State n) (i : Fin n) : Option (State n) :=
  match s.pc i with
  -- Call of `lock`.
  | .idle            => s.goto i .compareExchange
  | .compareExchange =>
    if s.futex = 0 then { s with futex := 1 }.goto i .critical
    else s.goto i (if s.futex ≠ 2 then .exchange else .wait)
  | .exchange        => { s with futex := 2 }.goto i (if s.futex ≠ 0 then .wait else .critical)
  | .wait            => s.goto i (if s.futex = 2 then .asleep else .exchange)
  | .asleep          => none
  -- Call of `unlock`.
  | .critical        => s.goto i .fetchSub
  | .fetchSub        =>
    { s with futex := s.futex - 1 }.goto i (if s.futex ≠ 1 then .store else .idle)
  | .store           => { s with futex := 0 }.goto i .wake
  -- There is nobody to wake.
  | .wake            => if ∃ j, s.pc j = .asleep then none else s.goto i .idle

def wakeStep (s : State n) (i j : Fin n) : Option (State n) :=
  if s.pc i = .wake ∧ s.pc j = .asleep then (s.goto i .idle).goto j .exchange else none

def spuriousStep (s : State n) (i : Fin n) : Option (State n) :=
  if s.pc i = .wait ∨ s.pc i = .asleep then s.goto i .exchange else none

def step (s : State n) : Label n → Option (State n)
  | .thread i   => threadStep s i
  | .wake i j   => wakeStep s i j
  | .spurious i => spuriousStep s i

def init (n : ℕ) : State n where
  pc _  := .idle
  futex := 0

def machine (n : ℕ) : Machine (State n) (Label n) where
  init s := s = init n
  step   := step

end Drepper
