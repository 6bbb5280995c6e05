import Mathlib.Data.Fin.Basic
import Mathlib.Data.Fintype.Card
import Mathlib.Tactic.SplitIfs

-- `n` seats around a table. Each of them has one seat after it and one before it.
namespace RoundTable

variable {n : ℕ} {i j : Fin n}

def after (i : Fin n) : Fin n :=
  ⟨(i + 1) % n, Nat.mod_lt _ i.pos⟩

def before (i : Fin n) : Fin n :=
  ⟨(i + n - 1) % n, Nat.mod_lt _ i.pos⟩

def Adjacent (i j : Fin n) : Prop :=
  j = after i ∨ j = before i

instance : Decidable (Adjacent i j) :=
  inferInstanceAs <| Decidable (_ ∨ _)

-- The order of the seats breaks up between the last one and the first one only.
theorem val_after : (after i).val = if i + 1 = n then 0 else i.val + 1 := by
  have hi := i.isLt
  rw [after]
  split_ifs with h
  · simp [h]
  · exact Nat.mod_eq_of_lt (by omega)

theorem val_before : (before i).val = if i.val = 0 then n - 1 else i.val - 1 := by
  have hi := i.isLt
  rw [before]
  split_ifs with h
  · simp only [h, Nat.zero_add]
    exact Nat.mod_eq_of_lt (by omega)
  · have hs : i.val + n - 1 = (i.val - 1) + n := by omega
    simp only [hs, Nat.add_mod_right]
    exact Nat.mod_eq_of_lt (by omega)

@[simp] theorem before_after : before (after i) = i := by
  have hi := i.isLt
  ext
  rw [val_before, val_after]
  grind

@[simp] theorem after_before : after (before i) = i := by
  have hi := i.isLt
  ext
  rw [val_after, val_before]
  grind

theorem eq_before_iff : i = before j ↔ after i = j := by
  constructor
  · rintro rfl
    exact after_before
  · rintro rfl
    exact before_after.symm

theorem after_ne (hn : 2 ≤ n) : after i ≠ i := by
  have hi := i.isLt
  intro h
  have hv := congrArg Fin.val h
  rw [val_after] at hv
  grind

theorem before_ne (hn : 2 ≤ n) : before i ≠ i :=
  fun h => after_ne hn (eq_before_iff.mp h.symm)

theorem after_ne_before (hn : 3 ≤ n) : after i ≠ before i := by
  have hi := i.isLt
  intro h
  have hv := congrArg Fin.val h
  rw [val_after, val_before] at hv
  grind

namespace Adjacent

theorem symm (h : Adjacent i j) : Adjacent j i := by
  cases h
  case inl h => exact .inr (by simp [h])
  case inr h => exact .inl (by simp [h])

theorem ne (hn : 2 ≤ n) (h : Adjacent i j) : j ≠ i := by
  cases h
  case inl h => exact h ▸ after_ne hn
  case inr h => exact h ▸ before_ne hn

end Adjacent

section Count

variable {P : Fin n → Prop} [DecidablePred P]

-- At a table with three seats or more the two neighbours of a seat are different.
theorem card_adjacent (hn : 3 ≤ n) :
    (Finset.univ.filter fun j => Adjacent i j ∧ P j).card =
    (if P (after i) then 1 else 0) + if P (before i) then 1 else 0 := by
  have h : (Finset.univ.filter fun j => Adjacent i j ∧ P j) =
      ({after i, before i} : Finset (Fin n)).filter P := by
    ext j
    rw [Finset.mem_filter, Finset.mem_filter]
    simp [Adjacent]
  have hne : after i ≠ before i := after_ne_before hn
  rw [h, Finset.filter_insert, Finset.filter_singleton]
  split_ifs <;> simp [hne]

end Count

end RoundTable
