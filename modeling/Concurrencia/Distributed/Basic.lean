import Concurrencia.Machine.Basic
import Concurrencia.Threads.Basic
import Concurrencia.Threads.Count

open Function

namespace Distributed

-- The two goroutines of a node: the caller of `node` and the `receiver` it launches.
inductive Process (n : ℕ)
  | main (i : Fin n)
  | receiver (i : Fin n)
  deriving DecidableEq

def Process.node {n : ℕ} : Process n → Fin n
  | main i | receiver i => i

variable {ι : Type*} [Fintype ι] [DecidableEq ι] {i : ι} {c : ℕ}
variable {done done' : ι → ℕ} {loaded loaded' : ι → Option ℕ}

-- What the nodes do to the counter of the test: the increments which they have made, and the values
-- which they have loaded and not stored yet.
structure Counted (c : ℕ) (done : ι → ℕ) (loaded : ι → Option ℕ) : Prop where
  counter : c = ∑ i, done i
  loaded  : ∀ i, ∀ v ∈ loaded i, v = c

namespace Counted

variable (h : Counted c done loaded)
include h

theorem load (hd : ∀ j, done' j = done j) (hl : ∀ j ≠ i, loaded' j = loaded j)
    (hi : ∀ v ∈ loaded' i, v = c) : Counted c done' loaded' where
  counter := h.counter.trans (Finset.sum_congr rfl fun j _ => (hd j).symm)
  loaded j := by
    by_cases hj : j = i
    case pos => exact hj ▸ hi
    case neg => exact hl j hj ▸ h.loaded j

theorem store {v : ℕ} (hv : loaded i = some v) (hn : ∀ j, loaded' j = none)
    (hd : ∀ j ≠ i, done' j = done j) (hi : done' i = done i + 1) :
    Counted (v + 1) done' loaded' where
  counter := by
    have hs := Threads.sum_eq_of_ne hd
    have := h.counter
    have := h.loaded i v hv
    omega
  loaded j := by simp [hn]

end Counted

end Distributed
