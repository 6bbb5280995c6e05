import Concurrencia.CInt.Basic
import Concurrencia.FifoLock.Basic
import Mathlib.Logic.Function.Basic

open Function

namespace FairMutexBitset

-- The macro `MASK`. The remainder of a negative number is negative or zero.
def mask (n : ℤ) : Option (BitVec 32) :=
  CInt.bit (n.tmod 32)

-- The statements of `lock` and `unlock`, with the values of their variables `number`, `turn` and
-- `current`. A thread at `wait` is about to call `FUTEX_WAIT_BITSET`, one at `asleep` has called it
-- with the given set, and one at `critical` has returned from `lock`.
inductive Pc
  | idle
  | fetchAdd | loadTurn (number : BitVec 32)
  | wait (number turn : BitVec 32) | asleep (number bitset : BitVec 32)
  | storeCurrent (number : BitVec 32)
  | critical
  | addFetch | test (current : ℤ) | wake (current : ℤ)
  deriving DecidableEq

structure State (n : ℕ) where
  pc : Fin n → Pc
  number : BitVec 32
  turn : BitVec 32
  current : BitVec 32

-- In the step `spurious` a `FUTEX_WAIT_BITSET` returns for no reason.
inductive Label (n : ℕ)
  | thread (i : Fin n)
  | spurious (i : Fin n)
  deriving DecidableEq

variable {n : ℕ}

def State.goto (s : State n) (i : Fin n) (p : Pc) : State n :=
  { s with pc := update s.pc i p }

namespace State

variable {s : State n} {i : Fin n} {p : Pc}

@[simp] theorem goto_pc : (s.goto i p).pc = update s.pc i p := rfl
@[simp] theorem goto_number : (s.goto i p).number = s.number := rfl
@[simp] theorem goto_turn : (s.goto i p).turn = s.turn := rfl

end State

-- A `FUTEX_WAKE_BITSET` of `INT_MAX` wakes all sleepers whose sets have a bit in common with it.
def Pc.woken (bitset : BitVec 32) : Pc → Pc
  | asleep v b => if b &&& bitset ≠ 0 then loadTurn v else asleep v b
  | p          => p

-- There is no step when the mask is undefined.
def threadStep (s : State n) (i : Fin n) : Option (State n) :=
  match s.pc i with
  -- Call of `lock`.
  | .idle           => s.goto i .fetchAdd
  | .fetchAdd       => { s with number := s.number + 1 }.goto i (.loadTurn s.number)
  | .loadTurn v     => s.goto i (if v ≠ s.turn then .wait v s.turn else .storeCurrent v)
  | .wait v t       =>
    (mask v.toNat).map fun b => s.goto i (if s.turn = t then .asleep v b else .loadTurn v)
  | .asleep _ _     => none
  | .storeCurrent v => { s with current := v }.goto i .critical
  -- Call of `unlock`.
  | .critical       => s.goto i .addFetch
  -- The `int` variable `current` gets the value of an `unsigned`.
  | .addFetch       => { s with turn := s.turn + 1 }.goto i (.test (s.turn + 1).toInt)
  -- The comparison converts `current` back to `unsigned`.
  | .test c         => s.goto i (if s.number ≥ .ofInt 32 c then .wake c else .idle)
  | .wake c         =>
    (mask c).map fun b => { s with pc := fun j => (s.pc j).woken b }.goto i .idle

def spuriousStep (s : State n) (i : Fin n) : Option (State n) :=
  match s.pc i with
  | .wait v _ | .asleep v _                   => s.goto i (.loadTurn v)
  | .idle | .fetchAdd | .loadTurn _           => none
  | .storeCurrent _ | .critical | .addFetch   => none
  | .test _ | .wake _                         => none

def step (s : State n) : Label n → Option (State n)
  | .thread i   => threadStep s i
  | .spurious i => spuriousStep s i

def init (n : ℕ) : State n where
  pc _    := .idle
  number  := 0
  turn    := 0
  current := 0

def machine (n : ℕ) : Machine (State n) (Label n) where
  init s := s = init n
  step   := step

def event (s : State n) : Label n → Option (FifoLock.Event (Fin n))
  | .thread i =>
    match s.pc i with
    | .fetchAdd                       => some (.enqueue i)
    | .loadTurn v                     => if v = s.turn then some (.enter i) else none
    | .addFetch                       => some (.leave i)
    | .idle | .wait _ _ | .asleep _ _ => none
    | .storeCurrent _ | .critical     => none
    | .test _ | .wake _               => none
  | .spurious _ => none

-- The tickets whose remainder does not become negative when they are converted to `int`.
def Fits (ticket : BitVec 32) : Prop :=
  ticket.toNat < 2 ^ 31 ∨ 32 ∣ ticket.toNat

instance : DecidablePred Fits :=
  fun _ => inferInstanceAs (Decidable (_ ∨ _))

-- The runs in which `unlock` sets `turn` to such tickets only.
def SetsFitting (s : State n) : Label n → Prop
  | .thread i   => s.pc i = .addFetch → Fits (s.turn + 1)
  | .spurious _ => True

instance (s : State n) : (l : Label n) → Decidable (SetsFitting s l)
  | .thread i   => inferInstanceAs <| Decidable (s.pc i = .addFetch → Fits (s.turn + 1))
  | .spurious _ => inferInstanceAs <| Decidable True

end FairMutexBitset
