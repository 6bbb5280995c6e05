import Concurrencia.Machine.Basic
import Mathlib.Logic.Function.Basic

open Function

namespace RwLock

-- The accesses of the four functions in their order, with the value of `old` where it is in use. A
-- thread at `reading` or `writing` is between its two functions, and one at `drain` waits for the
-- readers to finish.
inductive Pc
  | idle
  | readerSpin | readerLoad | readerExchange (old : BitVec 32)
  | reading | fetchAdd
  | writerSpin | writerLoad | writerExchange (old : BitVec 32) | drain
  | writing | store
  deriving DecidableEq

structure State (n : ℕ) where
  pc : Fin n → Pc
  rwLock : BitVec 32

inductive Label (n : ℕ)
  | readerLock (i : Fin n)
  | writerLock (i : Fin n)
  | thread (i : Fin n)
  deriving DecidableEq

variable {n : ℕ}

def State.goto (s : State n) (i : Fin n) (p : Pc) : State n :=
  { s with pc := update s.pc i p }

namespace State

variable {s : State n} {i : Fin n} {p : Pc}

@[simp] theorem goto_pc : (s.goto i p).pc = update s.pc i p := rfl
@[simp] theorem goto_rwLock : (s.goto i p).rwLock = s.rwLock := rfl

end State

-- While a writer drains or writes, the thread at `p` stays there.
def spin (s : State n) (i : Fin n) (p next : Pc) : State n :=
  s.goto i (if s.rwLock &&& 0x80000000 ≠ 0 then p else next)

-- A thread whose compare-and-exchange fails tries again.
def compareExchange (s : State n) (i : Fin n) (old new : BitVec 32) (success failure : Pc) :
    State n :=
  if s.rwLock = old then { s with rwLock := new }.goto i success else s.goto i failure

def threadStep (s : State n) (i : Fin n) : Option (State n) :=
  match s.pc i with
  | .idle               => none
  | .readerSpin         => spin s i .readerSpin .readerLoad
  | .readerLoad         => s.goto i (.readerExchange (s.rwLock &&& 0x7fffffff))
  | .readerExchange old => compareExchange s i old (old + 1) .reading .readerSpin
  -- Call of `reader_unlock`.
  | .reading            => s.goto i .fetchAdd
  | .fetchAdd           => { s with rwLock := s.rwLock + -1 }.goto i .idle
  | .writerSpin         => spin s i .writerSpin .writerLoad
  | .writerLoad         => s.goto i (.writerExchange (s.rwLock &&& 0x7fffffff))
  | .writerExchange old => compareExchange s i old (old ||| 0x80000000) .drain .writerSpin
  | .drain              => s.goto i (if s.rwLock &&& 0x7fffffff ≠ 0 then .drain else .writing)
  -- Call of `writer_unlock`.
  | .writing            => s.goto i .store
  | .store              => { s with rwLock := 0 }.goto i .idle

-- The threads read and write in any order.
def step (s : State n) : Label n → Option (State n)
  | .readerLock i => if s.pc i = .idle then s.goto i .readerSpin else none
  | .writerLock i => if s.pc i = .idle then s.goto i .writerSpin else none
  | .thread i     => threadStep s i

def init (n : ℕ) : State n where
  pc _   := .idle
  rwLock := 0

def machine (n : ℕ) : Machine (State n) (Label n) where
  init s := s = init n
  step   := step

end RwLock
