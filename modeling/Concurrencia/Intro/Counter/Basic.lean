import Concurrencia.Machine.Basic
import Mathlib.Data.Nat.Notation
import Mathlib.Logic.Function.Basic

open Function

-- The counters of `counter.c`, `counter.py`, `Counter.java` and `gocounter.go`, which nothing
-- protects, and the one of `counter_local.c`.
namespace Counter

-- The two accesses of `counter += amount`. The argument of `store` is the value of `counter` which
-- has been loaded.
inductive Pc
  | load | store (counter : ℕ)
  deriving DecidableEq

-- The loop variable `i` belongs to each thread. The counter stays an `ℕ`, since it never exceeds
-- `n * max`, which an `int` can hold.
structure State (n : ℕ) where
  pc : Fin n → Pc
  i : Fin n → ℕ
  counter : ℕ

variable {n : ℕ}

def init (n : ℕ) : State n where
  pc _    := .load
  i _     := 0
  counter := 0

-- A thread whose loop has ended takes no step.
def step (rounds amount : ℕ) (s : State n) (t : Fin n) : Option (State n) :=
  match s.pc t with
  | .load    =>
    if s.i t < rounds then some { s with pc := update s.pc t (.store s.counter) } else none
  | .store c =>
    some ⟨update s.pc t .load, update s.i t (s.i t + 1), c + amount⟩

def machine (n rounds amount : ℕ) : Machine (State n) (Fin n) where
  init s := s = init n
  step   := step rounds amount

-- All the threads have been joined.
def Finished (rounds : ℕ) (s : State n) : Prop :=
  ∀ t, s.pc t = .load ∧ s.i t = rounds

instance : DecidablePred (Finished (n := n) rounds) :=
  fun _ => inferInstanceAs (Decidable (∀ _, _ ∧ _))

-- The program `counter.c` with the given number of threads and `MAX_COUNT`.
def counter (n maxCount : ℕ) : Machine (State n) (Fin n) :=
  machine n (maxCount / n) 1

-- The loop of `counter_local.c`, which touches no shared variable.
def localCounter (max : ℕ) : ℕ :=
  (List.range max).foldl (fun localCounter _ => localCounter + 1) 0

-- In `counter_local.c` each thread adds its `local_counter` in the end.
def counterLocal (n maxCount : ℕ) : Machine (State n) (Fin n) :=
  machine n 1 (localCounter (maxCount / n))

end Counter
