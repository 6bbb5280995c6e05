import Concurrencia.Machine.Basic
import Concurrencia.SerialSections.Basic
import Concurrencia.TransactionalMemory.Basic
import Mathlib.Algebra.Ring.Nat

open Function

-- The lock elision of `transactional/intel/array_rtm.c`. The one of `mutex_rtm.c` is the same with
-- an array of one element.
namespace Rtm

open TransactionalMemory

inductive Cell (m : ℕ)
  | mutex
  | counter (p : Fin m)
  deriving DecidableEq

-- The statements of `count`, `rtm_lock`, `lock` and `rtm_unlock`. A thread does not know from where
-- it is whether it is in a transaction: the statements of the section and of `rtm_unlock` are there
-- for both cases. A thread at `store` has read the value `v`.
inductive Pc
  | loop
  | retry | begin | testMutex | xabort | exchange
  | load | store (v : ℤ)
  | test | xend | unlock
  | finished
  deriving DecidableEq

-- `index`, `c` and `status` are the local variables `i`, `c` and `status`.
structure State (n m : ℕ) where
  pc : Fin n → Pc
  index : Fin n → ℕ
  c : Fin n → ℕ
  status : Fin n → BitVec 32
  memory : Memory (Fin n) (Cell m) ℤ

-- In the step `abort i` the transaction of thread `i` aborts for some other reason than a conflict,
-- and in the step `resume i status` its thread goes on after `_xbegin` with this status.
inductive Label (n : ℕ)
  | thread (i : Fin n)
  | abort (i : Fin n)
  | resume (i : Fin n) (status : BitVec 32)
  deriving DecidableEq

def xbeginStarted : BitVec 32 :=
  .allOnes 32

def xabortRetry : BitVec 32 :=
  2

def xabortCode (status : BitVec 32) : BitVec 32 :=
  status >>> 24 &&& 0xff

variable {n m : ℕ}

def State.goto (s : State n m) (i : Fin n) (p : Pc) : State n m :=
  { s with pc := update s.pc i p }

section Fields

variable {s : State n m} {i : Fin n} {p : Pc}

@[simp] theorem State.goto_pc : (s.goto i p).pc = update s.pc i p := rfl
@[simp] theorem State.goto_index : (s.goto i p).index = s.index := rfl
@[simp] theorem State.goto_memory : (s.goto i p).memory = s.memory := rfl

end Fields

def Again (s : State n m) (i : Fin n) : Prop :=
  s.c i < 10 ∧ (s.status i = 0 ∨ xabortCode (s.status i) ≠ 0 ∨ s.status i &&& xabortRetry ≠ 0)

instance {s : State n m} {i : Fin n} : Decidable (Again s i) :=
  inferInstanceAs <| Decidable (_ ∧ _)

def enter (s : State n m) (i : Fin n) : State n m :=
  { s with c := update s.c i 0, status := update s.status i 0 }.goto i .retry

def countSection (s : State n m) (i : Fin n) : State n m :=
  { s with index := update s.index i (s.index i + 1) }.goto i .loop

def load (s : State n m) (i : Fin n) (k : Cell m) : State n m :=
  { s with memory := s.memory.load i k }

def store (s : State n m) (i : Fin n) (k : Cell m) (v : ℤ) : State n m :=
  { s with memory := s.memory.store i k v }

def start (s : State n m) (i : Fin n) : State n m :=
  { s with memory := s.memory.start i, status := update s.status i xbeginStarted }.goto i .testMutex

def setMemory (s : State n m) (x : Memory (Fin n) (Cell m) ℤ) : State n m :=
  { s with memory := x }

variable [NeZero m]

-- The element of the array which thread `i` increments next.
def cell (s : State n m) (i : Fin n) : Cell m :=
  .counter (.ofNat m (s.index i))

def programStep (max : ℕ) (s : State n m) (i : Fin n) : Option (State n m) :=
  match s.pc i with
  | .loop      => if s.index i < max then enter s i else s.goto i .finished
  | .retry     => s.goto i (if Again s i then .begin else .exchange)
  | .begin     => start s i
  | .testMutex =>
    (load s i .mutex).goto i (if s.memory.read i .mutex = 0 then .load else .xabort)
  | .xabort    => (s.memory.abort i).map (setMemory s)
  | .exchange  =>
    (store s i .mutex 1).goto i (if s.memory.read i .mutex = 0 then .load else .exchange)
  | .load      => (load s i (cell s i)).goto i (.store (s.memory.read i (cell s i)))
  | .store v   => (store s i (cell s i) (v + 1)).goto i .test
  | .test      => (load s i .mutex).goto i (if s.memory.read i .mutex = 0 then .xend else .unlock)
  -- Outside of a transaction `_xend` is a fault.
  | .xend      => (s.memory.commit i).map fun x => countSection (setMemory s x) i
  | .unlock    => countSection (store s i .mutex 0) i
  | .finished  => none

-- The thread of an aborted transaction does not go on where it was.
def threadStep (max : ℕ) (s : State n m) (i : Fin n) : Option (State n m) :=
  match s.memory.mode i with
  | .aborted              => none
  | .outside | .inside _ => programStep max s i

def resumeStep (s : State n m) (i : Fin n) (status : BitVec 32) : Option (State n m) :=
  if status = xbeginStarted then
    none
  else
    (s.memory.resume i).map fun x =>
      { s with
        memory := x
        c      := update s.c i (s.c i + 1)
        status := update s.status i status }.goto i .retry

def step (max : ℕ) (s : State n m) : Label n → Option (State n m)
  | .thread i        => threadStep max s i
  | .abort i         => (s.memory.abort i).map (setMemory s)
  | .resume i status => resumeStep s i status

def init (n m : ℕ) : State n m where
  pc _     := .loop
  index _  := 0
  c _      := 0
  status _ := 0
  memory   := .empty fun _ => 0

def machine (n m : ℕ) [NeZero m] (max : ℕ) : Machine (State n m) (Label n) where
  init s := s = init n m
  step   := step max

-- A section takes effect when its transaction commits, or when it stores the counter without one.
-- The exchange which has found 0 takes the lock.
def event (s : State n m) : Label n → Option (SerialSections.Label (Fin n))
  | .abort _ | .resume _ _ => none
  | .thread i =>
    match s.pc i with
    | .exchange => if s.memory.read i .mutex = 0 then some (.acquire i) else none
    | .store _  =>
      match s.memory.mode i with
      | .outside              => some (.act i)
      | .inside _ | .aborted => none
    | .xend     => some (.act i)
    | .unlock   => some (.release i)
    | _         => none

-- The section as a step on its own.
def increment (_ : Fin n) (k : ℕ) (counter : Fin m → ℤ) : Fin m → ℤ :=
  update counter (.ofNat m k) (counter (.ofNat m k) + 1)

-- What the threads do with an array which they change one at a time.
def sections (n m : ℕ) [NeZero m] (max : ℕ) :
    Machine (SerialSections.State (Fin n) (Fin m → ℤ)) (SerialSections.Label (Fin n)) :=
  SerialSections.machine increment max fun _ => 0

end Rtm
