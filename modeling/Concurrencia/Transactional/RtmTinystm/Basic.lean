import Concurrencia.Machine.Basic
import Concurrencia.SoftwareTransactions.Basic
import Concurrencia.TransactionalMemory.Basic
import Mathlib.Algebra.Ring.Nat

open Function

-- The hybrid transactions of `transactional/intel/array_rtm_tinystm.c`. The implementation of the
-- software transactions is a parameter.
namespace RtmTinystm

open TransactionalMemory SoftwareTransactions

inductive Cell (m : ℕ)
  | inStm
  | counter (p : Fin m)
  deriving DecidableEq

-- The statements of `count`. A thread at `store` has read the value `v`, and `c` is the local
-- variable of this name.
inductive Pc
  | loop
  | begin | testStm | xabort | load | store (v : ℤ) | xend
  | fetchAdd | stmStart | stmLoad | stmStore (c : ℤ) | stmCommit (c : ℤ) | fetchSub
  | finished
  deriving DecidableEq

-- `index` is the local variable `i` and `stm` is the data of the software transactions.
structure State (n m : ℕ) (σ : Type*) where
  pc : Fin n → Pc
  index : Fin n → ℕ
  memory : Memory (Fin n) (Cell m) ℤ
  stm : σ

-- In the step `abort i` the transaction of thread `i` aborts for some other reason than a conflict,
-- in the step `resume i` its thread goes on after `_xbegin`, and in the step `stm i e` thread `i`
-- does `e` inside of a call of the software transactions.
inductive Label (n m : ℕ)
  | thread (i : Fin n)
  | abort (i : Fin n)
  | resume (i : Fin n)
  | stm (i : Fin n) (e : SoftwareTransactions.Action (Fin m) ℤ)
  deriving DecidableEq

variable {n m : ℕ} {σ : Type*}

-- The thread has raised `in_stm` and not lowered it yet.
def Pc.Software : Pc → Prop
  | stmStart | stmLoad | stmStore _ | stmCommit _ | fetchSub => True
  | _                                                        => False

instance : DecidablePred Pc.Software
  | .stmStart | .stmLoad | .stmStore _ | .stmCommit _ | .fetchSub => .isTrue trivial
  | .loop | .begin | .testStm | .xabort | .load | .store _ | .xend | .fetchAdd | .finished =>
    .isFalse id

-- The call of a thread which increments the element `p`.
def Pc.call (p : Fin m) : Pc → Option (Call (Fin m) ℤ)
  | stmStart    => some .start
  | stmLoad     => some (.load p)
  | stmStore c  => some (.store p c)
  | stmCommit _ => some .commit
  | _           => none

-- A thread which has to restart goes on after its `stm_start`.
def Pc.after (p : Pc) : SoftwareTransactions.Action (Fin m) ℤ → Pc
  | .start     => stmLoad
  | .load _ a  => stmStore (a + 1)
  | .store _ c => stmCommit c
  | .commit    => fetchSub
  | .pending _ => p
  | .restart _ => stmLoad

def State.goto (s : State n m σ) (i : Fin n) (p : Pc) : State n m σ :=
  { s with pc := update s.pc i p }

def State.counters (s : State n m σ) (p : Fin m) : ℤ :=
  s.memory.cells (.counter p)

def load (s : State n m σ) (i : Fin n) (k : Cell m) : State n m σ :=
  { s with memory := s.memory.load i k }

def store (s : State n m σ) (i : Fin n) (k : Cell m) (a : ℤ) : State n m σ :=
  { s with memory := s.memory.store i k a }

def storeAll (s : State n m σ) (i : Fin n) (stores : List (Fin m × ℤ)) : State n m σ :=
  stores.foldl (fun s w => store s i (.counter w.fst) w.snd) s

def setMemory (s : State n m σ) (x : Memory (Fin n) (Cell m) ℤ) : State n m σ :=
  { s with memory := x }

def next (s : State n m σ) (i : Fin n) : State n m σ :=
  { s with index := update s.index i (s.index i + 1) }.goto i .loop

section Fields

variable {s : State n m σ} {i : Fin n} {p : Pc}

@[simp] theorem State.goto_pc : (s.goto i p).pc = update s.pc i p := rfl
@[simp] theorem State.goto_index : (s.goto i p).index = s.index := rfl
@[simp] theorem State.goto_memory : (s.goto i p).memory = s.memory := rfl

end Fields

variable [NeZero m]

def position (s : State n m σ) (i : Fin n) : Fin m :=
  .ofNat m (s.index i)

def programStep (max : ℕ) (s : State n m σ) (i : Fin n) : Option (State n m σ) :=
  match s.pc i with
  | .loop     => s.goto i (if s.index i < max then .begin else .finished)
  | .begin    => (setMemory s (s.memory.start i)).goto i .testStm
  | .testStm  => (load s i .inStm).goto i (if s.memory.read i .inStm = 0 then .load else .xabort)
  | .xabort   => (s.memory.abort i).map (setMemory s)
  | .load     =>
    (load s i (.counter (position s i))).goto i (.store (s.memory.read i (.counter (position s i))))
  | .store v  => (store s i (.counter (position s i)) (v + 1)).goto i .xend
  | .xend     => (s.memory.commit i).map fun x => next (setMemory s x) i
  | .fetchAdd => (store s i .inStm (s.memory.read i .inStm + 1)).goto i .stmStart
  | .fetchSub => next (store s i .inStm (s.memory.read i .inStm - 1)) i
  | .stmStart | .stmLoad | .stmStore _ | .stmCommit _ | .finished => none

-- The thread of an aborted transaction does not go on where it was.
def threadStep (max : ℕ) (s : State n m σ) (i : Fin n) : Option (State n m σ) :=
  match s.memory.mode i with
  | .aborted              => none
  | .outside | .inside _ => programStep max s i

-- `stm_start` has nothing to restart.
def stmStep (stm : Stm (Fin n) (Fin m) ℤ σ) (s : State n m σ) (i : Fin n)
    (e : SoftwareTransactions.Action (Fin m) ℤ) : Option (State n m σ) :=
  if (s.pc i).call (position s i) = some e.call ∧ e ≠ .restart .start then
    (stm.step s.stm s.counters i e).map fun x =>
      { storeAll s i x.snd with stm := x.fst }.goto i ((s.pc i).after e)
  else
    none

def step (stm : Stm (Fin n) (Fin m) ℤ σ) (max : ℕ) (s : State n m σ) :
    Label n m → Option (State n m σ)
  | .thread i => threadStep max s i
  | .abort i  => (s.memory.abort i).map (setMemory s)
  | .resume i => (s.memory.resume i).map fun x => (setMemory s x).goto i .fetchAdd
  | .stm i e  => stmStep stm s i e

def init (n m : ℕ) (data : σ) : State n m σ where
  pc _    := .loop
  index _ := 0
  memory  := .empty fun _ => 0
  stm     := data

def machine (stm : Stm (Fin n) (Fin m) ℤ σ) (max : ℕ) : Machine (State n m σ) (Label n m) where
  init s := s = init n m stm.init
  step   := step stm max

-- An increment takes effect when its transaction commits.
def event (s : State n m σ) : Label n m → Option (Fin m)
  | .thread i      => if s.pc i = .xend then some (position s i) else none
  | .stm i .commit => some (position s i)
  | _              => none

end RtmTinystm
