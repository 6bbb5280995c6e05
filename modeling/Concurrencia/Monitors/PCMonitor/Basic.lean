import Concurrencia.ObjectMonitor.Basic

open Function ObjectMonitor

-- The program `monitors/ProducerConsumer.java`, with the methods of `PCMonitor`.
namespace PCMonitor

-- `data j` are the values which `take` has returned to consumer `j`, and `noSuchElement` tells
-- whether `remove` has raised its exception.
structure Fields (consumers : ℕ) where
  buffer : List ℕ
  data : Fin consumers → List ℕ
  noSuchElement : Bool

inductive Call (consumers : ℕ)
  | append (data : ℕ)
  | take (j : Fin consumers)
  deriving DecidableEq

variable {producers consumers : ℕ}

def ready (size : ℕ) : Call consumers → Fields consumers → Bool
  | .append _, d => d.buffer.length ≠ size
  | .take _, d   => !d.buffer.isEmpty

def remove (j : Fin consumers) (d : Fields consumers) : Fields consumers :=
  match d.buffer with
  | []     => { d with noSuchElement := true }
  | x :: b => { d with buffer := b, data := update d.data j (d.data j ++ [x]) }

def body : Call consumers → List (Fields consumers → Fields consumers)
  | .append x => [fun d => { d with buffer := d.buffer ++ [x] }]
  | .take j   => [remove j]

-- The loops of the two classes, with their loop variable `i`.
def fetch (toProduce toConsume : ℕ) :
    Fin producers ⊕ Fin consumers → ℕ → Option (Act (Call consumers) Unit)
  | .inl _, i => if i < toProduce then some (.call (.append i)) else none
  | .inr j, i => if i < toConsume then some (.call (.take j)) else none

def program (producers consumers size toProduce toConsume : ℕ) :
    Program (Fields consumers) (Fin producers ⊕ Fin consumers) (Call consumers) Unit ℕ where
  ready        := ready size
  body _       := body
  notifies _ _ := true
  fetch        := fetch toProduce toConsume
  next i       := i + 1
  start        := 0
  fields       := ⟨[], fun _ => [], false⟩
  vars         := ()

end PCMonitor
