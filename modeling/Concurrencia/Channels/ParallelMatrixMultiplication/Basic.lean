import Concurrencia.DoneChannel.Basic
import Concurrencia.Machine.Basic
import Concurrencia.Rendezvous.Basic

open Function

-- The matrix product of `channels/parallel_matrix_multiplication.go`, on integers of `w` bits.
namespace ParallelMatrixMultiplication

open Rendezvous

abbrev Row (dim w : ℕ) :=
  Fin dim → BitVec w

abbrev Matrix (dim w : ℕ) :=
  Fin dim → Row dim w

structure RowResult (dim w : ℕ) where
  i : Fin dim
  row : Row dim w

-- The channels which `main` makes.
inductive Chan
  | north (j : ℕ)
  | south (i j : ℕ)
  | west (i : ℕ)
  | east (i j : ℕ)
  deriving DecidableEq

-- The channels of the multiplier in row `i` and column `j`.
section Channels

def north : ℕ → ℕ → Chan
  | 0, j     => .north j
  | i + 1, j => .south i j

def south (i j : ℕ) : Chan :=
  .south i j

def west : ℕ → ℕ → Chan
  | i, 0     => .west i
  | i, j + 1 => .east i j

def east (i j : ℕ) : Chan :=
  .east i j

end Channels

inductive Process (dim : ℕ)
  | zero (i : Fin dim)
  | sink (j : Fin dim)
  | result (i : Fin dim)
  | source (j : Fin dim)
  | multiplier (i j : Fin dim)
  deriving DecidableEq

-- The constructors name the channel which a multiplier waits for, with its local variables.
inductive Multiplier (w : ℕ)
  | north
  | south (second : BitVec w)
  | east (second : BitVec w)
  | west (second sum : BitVec w)
  deriving DecidableEq

-- A process `result` is finished when it has sent its row.
structure Result (dim w : ℕ) where
  i : ℕ
  row : Row dim w
  finished : Bool

-- The local variables of a process. The one of `source` is the index of the next element.
abbrev Local (dim w : ℕ) : Process dim → Type
  | .zero _ | .sink _ => Unit
  | .result _         => Result dim w
  | .source _         => ℕ
  | .multiplier _ _   => Multiplier w

structure State (dim w : ℕ) where
  proc : (p : Process dim) → Local dim w p
  done : DoneChannel (RowResult dim w)

inductive Label (dim : ℕ)
  | communicate (p q : Process dim)
  | result (i : Fin dim)
  | main
  deriving DecidableEq

variable {dim w : ℕ}

def Row.set (row : Row dim w) (k : ℕ) (a : BitVec w) : Row dim w :=
  fun l => if l = k then a else row l

def offer (m1 m2 : Matrix dim w) : (p : Process dim) → Local dim w p → Offer Chan (BitVec w)
  | .zero i, _                    => .send (east i (dim - 1)) 0
  | .sink j, _                    => .receive (south (dim - 1) j)
  | .result i, x                  => if x.i < dim then .receive (west i 0) else .none
  | .source j, k                  =>
    if h : k < dim then .send (north 0 j) (m2 j ⟨k, h⟩) else .none
  | .multiplier i j, .north       => .receive (north i j)
  | .multiplier i j, .south x     => .send (south i j) x
  | .multiplier i j, .east _      => .receive (east i j)
  | .multiplier i j, .west x sum  => .send (west i j) (sum + m1 i j * x)

def sent : (p : Process dim) → Local dim w p → Local dim w p
  | .zero _, x | .sink _, x    => x
  | .result _, x               => x
  | .source _, k               => k + 1
  | .multiplier _ _, .north    => .north
  | .multiplier _ _, .south x  => .east x
  | .multiplier _ _, .east x   => .east x
  | .multiplier _ _, .west _ _ => .north

def received : (p : Process dim) → Local dim w p → BitVec w → Local dim w p
  | .zero _, x, _ | .sink _, x, _   => x
  | .result _, x, a                 => { x with i := x.i + 1, row := x.row.set x.i a }
  | .source _, k, _                 => k
  | .multiplier _ _, .north, a      => .south a
  | .multiplier _ _, .south x, _    => .south x
  | .multiplier _ _, .east x, a     => .west x a
  | .multiplier _ _, .west x sum, _ => .west x sum

def network (m1 m2 : Matrix dim w) : Network (Process dim) Chan (BitVec w) (Local dim w) where
  offer    := offer m1 m2
  sent     := sent
  received := received

def resultStep (s : State dim w) (i : Fin dim) : Option (State dim w) :=
  let x : Result dim w := s.proc (.result i)
  if x.i < dim ∨ x.finished then
    none
  else
    (s.done.send ⟨i, x.row⟩).map fun d =>
      { proc := update s.proc (.result i) { x with finished := true }, done := d }

def step (m1 m2 : Matrix dim w) (s : State dim w) : Label dim → Option (State dim w)
  | .communicate p q => ((network m1 m2).communicate s.proc p q).map fun f => { s with proc := f }
  | .result i        => resultStep s i
  | .main            => (s.done.receive dim).map fun d => { s with done := d }

-- What `main` has made of the rows it has received.
def State.results (s : State dim w) : Matrix dim w :=
  s.done.received.foldl (fun m r => update m r.i r.row) fun _ _ => 0

def start : (p : Process dim) → Local dim w p
  | .zero _ | .sink _ => ()
  | .result _         => { i := 0, row := fun _ => 0, finished := false }
  | .source _         => (0 : ℕ)
  | .multiplier _ _   => .north

def init (dim w : ℕ) : State dim w where
  proc := start
  done := .empty

def machine (m1 m2 : Matrix dim w) : Machine (State dim w) (Label dim) where
  init s := s = init dim w
  step   := step m1 m2

end ParallelMatrixMultiplication
