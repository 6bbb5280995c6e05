import Mathlib.Algebra.BigOperators.Group.Finset.Basic
import Mathlib.Algebra.Order.BigOperators.Group.Finset
import Mathlib.Data.Fintype.BigOperators
import Mathlib.Data.List.Range

open Function

-- Producers which pass their values to consumers through a queue. The values of producer `i` are
-- `value i 0`, `value i 1` and so on.
namespace Pipeline

variable {ι κ α β : Type*} [DecidableEq ι] [DecidableEq κ]

-- The entries of the list which belong to `k`.
def entries (k : κ) (l : List (κ × β)) : List β :=
  l.filterMap fun x => if x.1 = k then some x.2 else none

section Entries

variable {k k' : κ} {x : β} {l l' : List (κ × β)}

@[simp] theorem entries_nil : entries k ([] : List (κ × β)) = [] := rfl

theorem entries_append : entries k (l ++ l') = entries k l ++ entries k l' :=
  List.filterMap_append ..

theorem entries_concat_self : entries k (l ++ [(k, x)]) = entries k l ++ [x] := by
  simp [entries]

theorem entries_concat_of_ne (h : k ≠ k') : entries k (l ++ [(k', x)]) = entries k l := by
  simp [entries, h.symm]

theorem sum_length_entries [Fintype κ] (l : List (κ × β)) :
    ∑ k, (entries k l).length = l.length := by
  induction l
  case nil => simp
  case cons x l hi =>
    have h (k : κ) : (entries k (x :: l)).length =
        (if x.1 = k then 1 else 0) + (entries k l).length := by
      by_cases hx : x.1 = k
      case pos => simp [entries, hx, Nat.add_comm]
      case neg => simp [entries, hx]
    simp [h, Finset.sum_add_distrib, hi, Nat.add_comm]

end Entries

-- The values which have been taken and those in the queue are the ones which have been sent. They
-- are taken in the order of the queue, and the values of each producer stand in their order there.
def Delivers (value : ι → ℕ → α) (sent : ι → ℕ) (queue : List α) (read : κ → List α) : Prop :=
  ∃ (taken : List (κ × ι × ℕ)) (rest : List (ι × ℕ)),
    queue = rest.map (fun x => value x.1 x.2) ∧
    (∀ j, read j = (entries j taken).map fun x => value x.1 x.2) ∧
    ∀ i, entries i (taken.map Prod.snd ++ rest) = List.range (sent i)

variable {value : ι → ℕ → α} {sent : ι → ℕ} {queue : List α} {read : κ → List α} {i : ι} {j : κ}
variable {x : α}

namespace Delivers

theorem init : Delivers (κ := κ) value (fun _ => 0) [] fun _ => [] :=
  ⟨[], [], rfl, fun _ => rfl, fun _ => rfl⟩

theorem send (h : Delivers value sent queue read) :
    Delivers value (update sent i (sent i + 1)) (queue ++ [value i (sent i)]) read := by
  obtain ⟨taken, rest, rfl, hr, hs⟩ := h
  refine ⟨taken, rest ++ [(i, sent i)], by simp, hr, fun k => ?_⟩
  rw [← List.append_assoc]
  by_cases hk : k = i
  case pos => rw [hk, entries_concat_self, hs, update_self, List.range_succ]
  case neg => rw [entries_concat_of_ne hk, hs, update_of_ne hk]

theorem take (h : Delivers value sent (x :: queue) read) :
    Delivers value sent queue (update read j (read j ++ [x])) := by
  obtain ⟨taken, rest, hq, hr, hs⟩ := h
  obtain ⟨y, rest, rfl, rfl, rfl⟩ := List.map_eq_cons_iff.mp hq.symm
  refine ⟨taken ++ [(j, y)], rest, rfl, fun k => ?_, fun k => by simpa using hs k⟩
  by_cases hk : k = j
  case pos => simp [hk, entries_concat_self, hr]
  case neg => simp [hk, entries_concat_of_ne, hr]

theorem sum_sent [Fintype ι] [Fintype κ] (h : Delivers value sent queue read) :
    ∑ i, sent i = ∑ j, (read j).length + queue.length := by
  obtain ⟨taken, rest, rfl, hr, hs⟩ := h
  have hi (i : ι) : sent i = (entries i (taken.map Prod.snd ++ rest)).length := by simp [hs]
  simp [hi, hr, sum_length_entries]

section Counts

variable [Fintype ι] [Fintype κ] {p c : ℕ} (h : Delivers value sent queue read)
include h

-- A consumer which has to read something need not wait for ever.
theorem exists_sender (hr : ∀ j, (read j).length ≤ c) (hj : (read j).length < c)
    (hc : Fintype.card κ * c ≤ Fintype.card ι * p) (hq : queue = []) : ∃ i, sent i < p := by
  by_contra hn
  have hs : Fintype.card ι * p ≤ ∑ i, sent i := by
    simpa using Finset.sum_le_sum fun i (_ : i ∈ Finset.univ) => not_lt.mp (not_exists.mp hn i)
  have hl : ∑ j, (read j).length < Fintype.card κ * c := by
    simpa using Finset.sum_lt_sum (fun j (_ : j ∈ Finset.univ) => hr j) ⟨j, Finset.mem_univ j, hj⟩
  have := h.sum_sent
  simp only [hq, List.length_nil] at this
  omega

-- When everything has been read, a producer which has to send something finds room.
theorem length_lt {size : ℕ} (hr : ∀ j, (read j).length = c) (hs : ∀ i, sent i ≤ p)
    (hi : sent i < p) (hc : Fintype.card ι * p ≤ Fintype.card κ * c + size) :
    queue.length < size := by
  have hl : ∑ i, sent i < Fintype.card ι * p := by
    simpa using Finset.sum_lt_sum (fun i (_ : i ∈ Finset.univ) => hs i) ⟨i, Finset.mem_univ i, hi⟩
  have : ∑ i, sent i = Fintype.card κ * c + queue.length := by simpa [hr] using h.sum_sent
  omega

theorem card_eq (hr : ∀ j, (read j).length = c) (hs : ∀ i, sent i = p) :
    Fintype.card ι * p = Fintype.card κ * c + queue.length := by
  simpa [hr, hs] using h.sum_sent

end Counts

end Delivers

end Pipeline
