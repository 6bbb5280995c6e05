import Concurrencia.Spinlocks.ArrayLockVariableSize.Basic
import Mathlib.Tactic.Ring

namespace ArrayLockVariableSize

variable {p : BitVec 32} {s s' : BitVec 16} {v : BitVec 16} {k P j r : ℕ}

theorem toNat_size : (size p).toNat = 4 * p.toNat % 2 ^ 32 := by
  rw [size, BitVec.toNat_mul]
  rfl

-- The product is truncated twice.
theorem toNat_index : (index p s).toNat = s.toNat % 4 * p.toNat % 2 ^ 16 := by
  have hs : (BitVec.ofNat 32 (s.toNat % numThreads)).toNat = s.toNat % 4 :=
    Nat.mod_eq_of_lt ((Nat.mod_lt _ (by decide)).trans_le (by decide))
  rw [index, BitVec.toNat_setWidth, BitVec.toNat_mul, hs, Nat.mod_mod_of_dvd _ (by decide)]

theorem toNat_position :
    (position p v).toNat = (v.toNat + p.toNat) % 2 ^ 32 % (4 * p.toNat % 2 ^ 32) := by
  rw [position, BitVec.toNat_umod, BitVec.toNat_add, toNat_size,
    BitVec.toNat_setWidth_of_le (by decide)]

-- The positions of `lock` and `unlock` fit together.
def Fits (padding : BitVec 32) : Prop :=
  ∀ s s' : BitVec 16,
    (s.toNat % numThreads ≠ s'.toNat % numThreads → index padding s ≠ index padding s') ∧
    (index padding s).toNat < (size padding).toNat ∧
    (position padding (index padding s)).toNat = (index padding (s + 1)).toNat

-- The same for the four slots, in terms of natural numbers.
structure Agree (P : ℕ) : Prop where
  distinct : ∀ k < 4, ∀ l < 4, k ≠ l → k * P % 2 ^ 16 ≠ l * P % 2 ^ 16
  inside   : ∀ k < 4, k * P % 2 ^ 16 < 4 * P % 2 ^ 32
  next     : ∀ k < 4, (k * P % 2 ^ 16 + P) % 2 ^ 32 % (4 * P % 2 ^ 32) = (k + 1) % 4 * P % 2 ^ 16

theorem fits_iff : Fits p ↔ Agree p.toNat := by
  have hs (k : ℕ) (hk : k < 4) : (BitVec.ofNat 16 k).toNat = k := Nat.mod_eq_of_lt (by omega)
  have hn (s : BitVec 16) : (s + 1).toNat % 4 = (s.toNat % 4 + 1) % 4 := by
    rw [BitVec.toNat_add, Nat.mod_mod_of_dvd _ (by decide)]
    have : (1 : BitVec 16).toNat = 1 := rfl
    omega
  constructor
  case mp =>
    intro h
    refine ⟨fun k hk l hl hkl he => ?_, fun k hk => ?_, fun k hk => ?_⟩
    · refine (h (.ofNat 16 k) (.ofNat 16 l)).left ?_ (BitVec.eq_of_toNat_eq ?_)
      · simpa [hs k hk, hs l hl, numThreads, Nat.mod_eq_of_lt hk, Nat.mod_eq_of_lt hl] using hkl
      · simpa [toNat_index, hs k hk, hs l hl, Nat.mod_eq_of_lt hk, Nat.mod_eq_of_lt hl] using he
    · have hi := (h (.ofNat 16 k) 0).right.left
      rwa [toNat_index, toNat_size, hs k hk, Nat.mod_eq_of_lt hk] at hi
    · have hi := (h (.ofNat 16 k) 0).right.right
      rwa [toNat_position, toNat_index, toNat_index, hn, hs k hk, Nat.mod_eq_of_lt hk] at hi
  case mpr =>
    intro h s s'
    have hl (s : BitVec 16) : s.toNat % 4 < 4 := Nat.mod_lt _ (by decide)
    refine ⟨fun hd he => ?_, ?_, ?_⟩
    · have he := congrArg BitVec.toNat he
      rw [toNat_index, toNat_index] at he
      exact h.distinct _ (hl s) _ (hl s') hd he
    · rw [toNat_index, toNat_size]
      exact h.inside _ (hl s)
    · rw [toNat_position, toNat_index, toNat_index, hn]
      exact h.next _ (hl s)

-- Without the multiples of 2^30, which do not count for the size, four elements fit into the
-- positions of 16 bits, and these multiples do not count for the position of `unlock` either. The
-- last padding is the one of the argument -16384.
def Suitable (P : ℕ) : Prop :=
  0 < P % 2 ^ 30 ∧ 3 * (P % 2 ^ 30) < 2 ^ 16 ∧ 4 * (P % 2 ^ 30) ∣ P - P % 2 ^ 30 ∨
  P = 2 ^ 32 - 2 ^ 14

instance : DecidablePred Suitable :=
  fun _ => inferInstanceAs <| Decidable (_ ∨ _)

section Arithmetic

-- The position of a multiple of `r`.
theorem mul_mod_size {q m : ℕ} (hm : m < 4 * r) : (4 * r * q + m) % (4 * r) = m := by
  rw [Nat.mul_add_mod, Nat.mod_eq_of_lt hm]

theorem size_eq (hP : P = j * 2 ^ 30 + r) (hr : r < 2 ^ 30) :
    4 * P % 2 ^ 32 = 4 * r := by
  omega

theorem index_eq (hP : P = j * 2 ^ 30 + r) : k * P % 2 ^ 16 = k * r % 2 ^ 16 := by
  have h : k * P = 2 ^ 16 * (k * j * 2 ^ 14) + k * r := by
    rw [hP]
    ring
  rw [h, Nat.mul_add_mod]

theorem Agree.of_dvd (hP : P = j * 2 ^ 30 + r) (hj : j < 4) (h₀ : 0 < r) (h₁ : 3 * r < 2 ^ 16)
    (hd : 4 * r ∣ j * 2 ^ 30) : Agree P := by
  have hi (k : ℕ) (hk : k < 4) : k * P % 2 ^ 16 = k * r := by
    have : k * r ≤ 3 * r := Nat.mul_le_mul_right r (by omega)
    rw [index_eq hP, Nat.mod_eq_of_lt (by omega)]
  have hz : 4 * P % 2 ^ 32 = 4 * r := size_eq hP (by omega)
  obtain ⟨q, hq⟩ := hd
  refine ⟨fun k hk l hl hkl he => ?_, fun k hk => ?_, fun k hk => ?_⟩
  · rw [hi k hk, hi l hl] at he
    exact hkl (Nat.eq_of_mul_eq_mul_right h₀ he)
  · rw [hi k hk, hz]
    exact Nat.mul_lt_mul_of_pos_right hk h₀
  · have hkr : k * r ≤ 3 * r := Nat.mul_le_mul_right r (by omega)
    have hs : k * r + P = 4 * r * q + (k + 1) * r := by
      rw [hP, hq]
      ring
    rw [hi k hk, hi _ (Nat.mod_lt _ (by decide)), hz, Nat.mod_eq_of_lt (a := k * r + P) (by omega),
      hs]
    by_cases hl : k = 3
    case pos =>
      rw [hl, Nat.mul_add_mod, Nat.mod_self]
      simp
    case neg =>
      have hk : k + 1 < 4 := by omega
      rw [mul_mod_size (Nat.mul_lt_mul_of_pos_right hk h₀), Nat.mod_eq_of_lt hk]

theorem Agree.of_eq : Agree (2 ^ 32 - 2 ^ 14) := by
  constructor <;> decide

namespace Agree

variable (h : Agree P) (hP : P = j * 2 ^ 30 + r) (hj : j < 4) (hr : r < 2 ^ 30)
include h hP

theorem index_one_ne : r % 2 ^ 16 ≠ 0 := by
  have hd := h.distinct 1 (by decide) 0 (by decide) (by decide)
  rw [index_eq hP, index_eq hP] at hd
  simpa using hd

theorem pos : 0 < r :=
  Nat.pos_of_ne_zero fun hz => h.index_one_ne hP (by simp [hz])

include hr

theorem next_eq (hk : k < 4) :
    (k * r % 2 ^ 16 + P) % 2 ^ 32 % (4 * r) = (k + 1) % 4 * r % 2 ^ 16 := by
  have hn := h.next k hk
  rwa [size_eq hP hr, index_eq hP, index_eq hP] at hn

theorem next_zero (hl : P < 2 ^ 32) : P % (4 * r) = r % 2 ^ 16 := by
  have hn := h.next_eq hP hr (k := 0) (by decide)
  rw [Nat.zero_mul, Nat.zero_mod, Nat.zero_add, Nat.mod_eq_of_lt hl] at hn
  simpa using hn

include hj

-- If the first position is the rest itself, then so are its multiples.
theorem dvd_of_lt (hl : r < 2 ^ 16) : 3 * r < 2 ^ 16 ∧ 4 * r ∣ j * 2 ^ 30 := by
  have h₀ := h.next_zero hP hr (by omega)
  rw [Nat.mod_eq_of_lt hl] at h₀
  have hd := Nat.div_add_mod P (4 * r)
  rw [h₀] at hd
  generalize P / (4 * r) = q at hd
  have step (k : ℕ) (hk : k < 3) (hi : k * r % 2 ^ 16 = k * r) :
      (k + 1) * r % 2 ^ 16 = (k + 1) * r := by
    have hk' : k * r ≤ 2 * r := Nat.mul_le_mul_right r (by omega)
    have hn := h.next_eq hP hr (k := k) (by omega)
    have hs : k * r + P = 4 * r * q + (k + 1) * r := by
      rw [← hd]
      ring
    have hlt : (k + 1) * r < 4 * r :=
      Nat.mul_lt_mul_of_pos_right (by omega) (h.pos hP)
    rw [hi, Nat.mod_eq_of_lt (a := k * r + P) (by omega), hs, mul_mod_size hlt,
      Nat.mod_eq_of_lt (a := k + 1) (by omega)] at hn
    exact hn.symm
  have h₁ := step 0 (by decide) (by simp)
  have h₂ := step 1 (by decide) h₁
  have h₃ := step 2 (by decide) h₂
  refine ⟨h₃ ▸ Nat.mod_lt _ (by decide), q, ?_⟩
  omega

-- Otherwise the positions of `unlock` would go on growing after the last slot, unless the sum wraps.
theorem eq_of_le (hl : 2 ^ 16 ≤ r) : P = 2 ^ 32 - 2 ^ 14 := by
  have h₀ := h.next_zero hP hr (by omega)
  have ha := h.index_one_ne hP
  have hlt : r % 2 ^ 16 < 2 ^ 16 := Nat.mod_lt _ (by decide)
  by_cases hw : P + 3 * 2 ^ 16 ≤ 2 ^ 32
  case neg =>
    -- The size is almost the padding.
    have hj : j = 3 := by omega
    have hm : P % (4 * r) = 3 * (2 ^ 30 - r) := by
      have hs : P = 4 * r * 1 + 3 * (2 ^ 30 - r) := by omega
      rw [hs, mul_mod_size (by omega)]
    omega
  case pos =>
    exfalso
    have hd := Nat.div_add_mod P (4 * r)
    rw [h₀] at hd
    generalize P / (4 * r) = q at hd
    generalize hra : r % 2 ^ 16 = a at *
    have step (k : ℕ) (hk : k < 4) (hi : k * r % 2 ^ 16 = k * a) :
        (k + 1) % 4 * r % 2 ^ 16 = (k + 1) * a := by
      have hk' : k * a ≤ 3 * a := Nat.mul_le_mul_right a (by omega)
      have hn := h.next_eq hP hr hk
      have hs : k * a + P = 4 * r * q + (k + 1) * a := by
        rw [← hd]
        ring
      have hlt : (k + 1) * a < 4 * r := by
        have : (k + 1) * a ≤ 4 * a := Nat.mul_le_mul_right a (by omega)
        omega
      rw [hi, Nat.mod_eq_of_lt (a := k * a + P) (by omega), hs, mul_mod_size hlt] at hn
      exact hn.symm
    have h₁ := step 0 (by decide) (by simp)
    have h₂ := step 1 (by decide) h₁
    have h₃ := step 2 (by decide) h₂
    have h₄ := step 3 (by decide) h₃
    omega

end Agree

theorem agree_iff (hl : P < 2 ^ 32) : Agree P ↔ Suitable P := by
  have hP : P = P / 2 ^ 30 * 2 ^ 30 + P % 2 ^ 30 := (Nat.div_add_mod' P _).symm
  have hs : P - P % 2 ^ 30 = P / 2 ^ 30 * 2 ^ 30 := by omega
  have hj : P / 2 ^ 30 < 4 := by omega
  have hr : P % 2 ^ 30 < 2 ^ 30 := Nat.mod_lt _ (by decide)
  rw [Suitable, hs]
  constructor
  case mp =>
    intro h
    by_cases hr' : P % 2 ^ 30 < 2 ^ 16
    case neg => exact .inr (h.eq_of_le hP hj hr (Nat.le_of_not_lt hr'))
    case pos =>
      exact .inl ⟨h.pos hP, h.dvd_of_lt hP hj hr hr'⟩
  case mpr =>
    intro h
    cases h
    case inl h => exact .of_dvd hP hj h.left h.right.left h.right.right
    case inr h => exact h ▸ .of_eq

end Arithmetic

theorem parse_iff : (∃ argument, parse argument = some p) ↔ p ≠ 0 := by
  have hz : p ≤ 0 ↔ p = 0 := by
    rw [BitVec.le_def, ← BitVec.toNat_inj]
    exact Nat.le_zero
  constructor
  case mp =>
    intro ⟨argument, h⟩
    have ⟨hp, he⟩ := Option.ite_none_left_eq_some.mp h
    rw [Option.some.inj he] at hp
    exact mt hz.mpr hp
  case mpr =>
    intro h
    refine ⟨p.setWidth 64, ?_⟩
    have hp : (p.setWidth 64).setWidth 32 = p := by simp
    rw [parse, hp, if_neg (mt hz.mp h)]

-- For each padding which `main` accepts, which are all but zero.
theorem positions_agree (padding : BitVec 32) :
    ((∃ argument, parse argument = some padding) ↔ padding ≠ 0) ∧
    (Fits padding ↔ Suitable padding.toNat) :=
  ⟨parse_iff, fits_iff.trans (agree_iff padding.isLt)⟩

-- With a padding of 65536 all slots get position 0, and `unlock` sets another one.
theorem positions_disagree :
    ¬∀ argument padding, parse argument = some padding → Fits padding := by
  intro h
  have hs := (h 65536 65536 rfl 0 1).left (by decide)
  exact hs (by decide)

end ArrayLockVariableSize
