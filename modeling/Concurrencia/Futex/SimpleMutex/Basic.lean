import Concurrencia.Machine.Basic
import Mathlib.Data.Fintype.Basic
import Mathlib.Data.Int.Order.Basic
import Mathlib.Logic.Function.Basic

open Function

namespace SimpleMutex

-- The statements of `lock` and `unlock`. The load of `waiters` in `unlock` may take effect before
-- the store to `locked`: then the thread goes from `store` to `lateStore` with the loaded value
-- instead of to `loadWaiters`. A thread at `critical` has returned from `lock`.
inductive Pc
  | idle
  | exchange | fetchAdd | wait | asleep | fetchSub
  | critical
  | store | loadWaiters | lateStore (waiters : ℤ) | wake
  deriving DecidableEq

structure State (n : ℕ) where
  pc : Fin n → Pc
  locked : ℤ
  waiters : ℤ

-- The kernel chooses the sleeper which is dequeued by `FUTEX_WAKE`, and `FUTEX_WAIT` may return for
-- no reason. In the step `early` the load of `unlock` overtakes the store.
inductive Label (n : ℕ)
  | thread (i : Fin n)
  | early (i : Fin n)
  | wake (i j : Fin n)
  | spurious (i : Fin n)
  deriving DecidableEq

variable {n : ℕ}

def State.goto (s : State n) (i : Fin n) (p : Pc) : State n :=
  { s with pc := update s.pc i p }

namespace State

variable {s : State n} {i : Fin n} {p : Pc}

@[simp] theorem goto_pc : (s.goto i p).pc = update s.pc i p := rfl
@[simp] theorem goto_locked : (s.goto i p).locked = s.locked := rfl
@[simp] theorem goto_waiters : (s.goto i p).waiters = s.waiters := rfl

end State

def threadStep (s : State n) (i : Fin n) : Option (State n) :=
  match s.pc i with
  -- Call of `lock`.
  | .idle        => s.goto i .exchange
  | .exchange    => { s with locked := 1 }.goto i (if s.locked = 0 then .critical else .fetchAdd)
  | .fetchAdd    => { s with waiters := s.waiters + 1 }.goto i .wait
  | .wait        => s.goto i (if s.locked = 1 then .asleep else .fetchSub)
  | .asleep      => none
  | .fetchSub    => { s with waiters := s.waiters - 1 }.goto i .exchange
  -- Call of `unlock`.
  | .critical    => s.goto i .store
  | .store       => { s with locked := 0 }.goto i .loadWaiters
  | .loadWaiters => s.goto i (if s.waiters > 0 then .wake else .idle)
  | .lateStore w => { s with locked := 0 }.goto i (if w > 0 then .wake else .idle)
  -- There is nobody to wake.
  | .wake        => if ∃ j, s.pc j = .asleep then none else s.goto i .idle

def earlyStep (s : State n) (i : Fin n) : Option (State n) :=
  if s.pc i = .store then s.goto i (.lateStore s.waiters) else none

def wakeStep (s : State n) (i j : Fin n) : Option (State n) :=
  if s.pc i = .wake ∧ s.pc j = .asleep then (s.goto i .idle).goto j .fetchSub else none

def spuriousStep (s : State n) (i : Fin n) : Option (State n) :=
  if s.pc i = .wait ∨ s.pc i = .asleep then s.goto i .fetchSub else none

def step (s : State n) : Label n → Option (State n)
  | .thread i   => threadStep s i
  | .early i    => earlyStep s i
  | .wake i j   => wakeStep s i j
  | .spurious i => spuriousStep s i

def init (n : ℕ) : State n where
  pc _    := .idle
  locked  := 0
  waiters := 0

def machine (n : ℕ) : Machine (State n) (Label n) where
  init s := s = init n
  step   := step

end SimpleMutex
