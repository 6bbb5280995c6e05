import Mathlib.Algebra.BigOperators.Group.Finset.Basic
import Mathlib.Algebra.Order.BigOperators.Group.Finset
import Mathlib.Data.Fintype.BigOperators

open Function

namespace Threads

variable {ι α : Type*} [DecidableEq ι] {f : ι → α} {P : α → Prop} {i : ι} {p : α}
variable [Fintype ι] [DecidablePred P]

omit [DecidablePred P] in
theorem sum_update {g : α → ℕ} :
    ∑ j, g (update f i p j) + g (f i) = ∑ j, g (f j) + g p := by
  simp only [← Finset.add_sum_erase _ _ (Finset.mem_univ i), update_self]
  have h : ∑ j ∈ Finset.univ.erase i, g (update f i p j) = ∑ j ∈ Finset.univ.erase i, g (f j) := by
    apply Finset.sum_congr rfl
    intro j hj
    rw [update_of_ne (Finset.ne_of_mem_erase hj)]
  omega

omit [DecidablePred P] in
theorem sum_eq_of_ne {f g : ι → ℕ} (h : ∀ j ≠ i, g j = f j) : ∑ j, g j + f i = ∑ j, f j + g i := by
  have hs := sum_update (f := f) (i := i) (p := g i) (g := id)
  have hu (j : ι) : update f i (g i) j = g j := by
    by_cases hj : j = i
    case pos => simp [hj]
    case neg => simp [hj, h]
  simpa [hu] using hs

-- The number of the threads whose local state is in `P`.
def count (f : ι → α) (P : α → Prop) [DecidablePred P] : ℕ :=
  ∑ i, if P (f i) then 1 else 0

theorem count_update :
    count (update f i p) P + (if P (f i) then 1 else 0) =
    count f P + (if P p then 1 else 0) :=
  sum_update (g := fun a => if P a then 1 else 0)

theorem count_update_toNat {g : α → Bool} :
    count (update f i p) (g · = true) + (g (f i)).toNat =
    count f (g · = true) + (g p).toNat := by
  have h := count_update (f := f) (i := i) (p := p) (P := (g · = true))
  cases hi : g (f i) <;> cases hp : g p <;> simpa [hi, hp] using h

theorem count_keep (h : P p ↔ P (f i)) : count (update f i p) P = count f P := by
  have := count_update (f := f) (P := P) (i := i) (p := p)
  simp only [h] at this
  omega

theorem count_enter (hi : ¬P (f i)) (hp : P p) : count (update f i p) P = count f P + 1 := by
  simpa [hi, hp] using count_update (f := f) (P := P) (i := i) (p := p)

theorem count_leave (hi : P (f i)) (hp : ¬P p) : count (update f i p) P + 1 = count f P := by
  simpa [hi, hp] using count_update (f := f) (P := P) (i := i) (p := p)

omit [DecidableEq ι] in
theorem count_pos (h : P (f i)) : 0 < count f P :=
  Finset.sum_pos' (fun _ _ => Nat.zero_le _) ⟨i, Finset.mem_univ i, by simp [h]⟩

omit [DecidableEq ι] in
theorem count_le_card : count f P ≤ Fintype.card ι := by
  rw [count, ← Finset.card_filter]
  exact Finset.card_le_univ _

omit [DecidableEq ι] in
theorem count_eq_zero (h : ∀ i, ¬P (f i)) : count f P = 0 :=
  Finset.sum_eq_zero fun i _ => if_neg (h i)

omit [DecidableEq ι] in
theorem count_lt_card (h : ¬P (f i)) : count f P < Fintype.card ι := by
  rw [count, ← Finset.card_filter]
  exact Finset.card_lt_univ_of_notMem (x := i) (by simpa)

omit [DecidableEq ι] in
theorem exists_of_count_lt (h : count f P < Fintype.card ι) : ∃ i, ¬P (f i) := by
  by_contra hn
  have hn (i : ι) : P (f i) := not_not.mp (not_exists.mp hn i)
  simp [count, hn] at h

omit [DecidableEq ι] in
theorem exists_of_count_pos (h : 0 < count f P) : ∃ i, P (f i) := by
  by_contra hn
  exact h.ne' <| count_eq_zero (not_exists.mp hn)

omit [DecidableEq ι] in
theorem eq_of_count_le_one {j : ι} (h : count f P ≤ 1) (hi : P (f i)) (hj : P (f j)) : i = j := by
  rw [count, ← Finset.card_filter] at h
  exact Finset.card_le_one.mp h i (by simpa) j (by simpa)

omit [DecidableEq ι] in
theorem count_eq_one (hi : P (f i)) (h : ∀ j, P (f j) → j = i) : count f P = 1 := by
  rw [count, ← Finset.card_filter, Finset.card_eq_one]
  refine ⟨i, Finset.ext fun j => ?_⟩
  simp only [Finset.mem_filter, Finset.mem_univ, true_and, Finset.mem_singleton]
  exact ⟨h j, fun hj => hj ▸ hi⟩

omit [DecidableEq ι] in
theorem count_mono {Q : α → Prop} [DecidablePred Q] (h : ∀ a, P a → Q a) :
    count f P ≤ count f Q := by
  apply Finset.sum_le_sum
  intro i _
  by_cases hp : P (f i)
  case pos => simp [hp, h _ hp]
  case neg => simp [hp]

omit [DecidableEq ι] in
theorem count_congr {β : Type*} {g : ι → β} {Q : β → Prop} [DecidablePred Q]
    (h : ∀ i, P (f i) ↔ Q (g i)) : count f P = count g Q :=
  Finset.sum_congr rfl fun i _ => if_congr (h i) rfl rfl

omit [DecidableEq ι] in
theorem count_add {Q R : α → Prop} [DecidablePred Q] [DecidablePred R]
    (h : ∀ a, (if P a then 1 else 0) = (if Q a then 1 else 0) + (if R a then 1 else 0)) :
    count f P = count f Q + count f R := by
  simp only [count, h, Finset.sum_add_distrib]

section Credit

variable {W C : α → Prop} [DecidablePred C] {j : ι} {q : α} {k m : ℕ}

-- If some thread waits, then there are as many threads in `C`, which have been woken or will wake
-- another one, as there are things to be had.
def Covered (f : ι → α) (W C : α → Prop) [DecidablePred C] (k : ℕ) : Prop :=
  (∃ i, W (f i)) → k ≤ count f C

namespace Covered

omit [DecidableEq ι] in
theorem of_zero (h : k = 0) : Covered f W C k :=
  fun _ => h ▸ Nat.zero_le _

omit [DecidableEq ι] in
theorem of_none (h : ∀ i, ¬W (f i)) : Covered f W C k :=
  fun ⟨i, hi⟩ => absurd hi (h i)

-- A thread takes one thing when it leaves `C`, or it enters `C` for a new one.
theorem step (h : Covered f W C k) (hw : W p → W (f i))
    (hk : m + (if C (f i) then 1 else 0) ≤ k + (if C p then 1 else 0)) :
    Covered (update f i p) W C m := by
  intro ⟨j, hj⟩
  have hn := h <| by
    by_cases hi : j = i
    case pos => exact ⟨i, hw (by simpa [hi] using hj)⟩
    case neg => exact ⟨j, by simpa [hi] using hj⟩
  have := count_update (f := f) (i := i) (P := C) (p := p)
  omega

theorem keep (h : Covered f W C k) (hw : W p → W (f i)) (hc : C (f i) → C p) (hk : m ≤ k) :
    Covered (update f i p) W C m := by
  apply h.step hw
  by_cases hi : C (f i)
  case pos => simpa [hi, hc hi]
  case neg =>
    rw [if_neg hi]
    omega

-- Thread `i` leaves `C` and wakes thread `j`.
theorem wake (h : Covered f W C k) (hi : C (f i)) (hp : ¬W p) (hn : j ≠ i) (hj : ¬C (f j))
    (hq : C q) (hw : ¬W q) : Covered (update (update f i p) j q) W C k := by
  have h₁ : Covered (update f j q) W C (k + 1) := h.step (absurd · hw) (by simp [hj, hq])
  rw [update_comm hn.symm]
  refine h₁.step (absurd · hp) ?_
  rw [update_of_ne hn.symm, if_pos hi]
  omega

end Covered

end Credit

end Threads
