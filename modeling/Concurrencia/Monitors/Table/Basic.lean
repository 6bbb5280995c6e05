import Concurrencia.ObjectMonitor.Basic
import Concurrencia.RoundTable.Basic

open Function ObjectMonitor

-- The program `monitors/Philosopher.java`, with the methods of `Table`.
namespace TableMonitor

variable {n : ℕ}

def leftFork (id : Fin n) : Fin n :=
  id

def rightFork (id : Fin n) : Fin n :=
  RoundTable.after id

inductive Call (n : ℕ)
  | pick (left right : Fin n)
  | release (left right : Fin n)
  deriving DecidableEq

-- The fields of the table are its `forks`.
def ready : Call n → (Fin n → Bool) → Bool
  | .pick left right, forks => !(!forks left || !forks right)
  | .release _ _, _         => true

def body : Call n → List ((Fin n → Bool) → Fin n → Bool)
  | .pick left right    => [(update · left false), (update · right false)]
  | .release left right => [(update · left true), (update · right true)]

def notifies : Call n → (Fin n → Bool) → Bool
  | .pick _ _, _    => false
  | .release _ _, _ => true

-- The loop variable of a philosopher, and whether it has picked its forks.
structure Point where
  i : ℕ
  eating : Bool
  deriving DecidableEq

def fetch (eatCount : ℕ) (id : Fin n) (x : Point) : Option (Act (Call n) Unit) :=
  if x.eating then some (.call (.release (leftFork id) (rightFork id)))
  else if x.i < eatCount then some (.call (.pick (leftFork id) (rightFork id)))
  else none

def next (x : Point) : Point :=
  if x.eating then ⟨x.i + 1, false⟩ else { x with eating := true }

def program (n eatCount : ℕ) : Program (Fin n → Bool) (Fin n) (Call n) Unit Point where
  ready    := ready
  body _   := body
  notifies := notifies
  fetch    := fetch eatCount
  next     := next
  start    := ⟨0, false⟩
  fields _ := true
  vars     := ()

end TableMonitor
