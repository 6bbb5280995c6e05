import Mathlib.Algebra.Ring.Nat
import Mathlib.Data.Nat.Bitwise

-- Words which consist of a counter of `w` bits and a flag above it.
namespace PackedWord

variable {w : ℕ} {x : BitVec (w + 1)}

def counterMask (w : ℕ) : BitVec (w + 1) :=
  .ofNat (w + 1) (2 ^ w - 1)

def flagMask (w : ℕ) : BitVec (w + 1) :=
  .ofNat (w + 1) (2 ^ w)

theorem two_pow_lt : 2 ^ w < 2 ^ (w + 1) :=
  Nat.pow_lt_pow_right Nat.one_lt_two w.lt_succ_self

theorem toNat_and_counterMask : (x &&& counterMask w).toNat = x.toNat % 2 ^ w := by
  have h : 2 ^ w - 1 < 2 ^ (w + 1) := (Nat.sub_le ..).trans_lt two_pow_lt
  rw [BitVec.toNat_and, counterMask, BitVec.toNat_ofNat, Nat.mod_eq_of_lt h,
    Nat.and_two_pow_sub_one_eq_mod]

theorem toNat_and_flagMask : (x &&& flagMask w).toNat = x.toNat / 2 ^ w * 2 ^ w := by
  have hx : x.toNat / 2 ^ w < 2 := by
    rw [Nat.div_lt_iff_lt_mul (Nat.two_pow_pos w), ← Nat.pow_succ']
    exact x.isLt
  rw [BitVec.toNat_and, flagMask, BitVec.toNat_ofNat, Nat.mod_eq_of_lt two_pow_lt, Nat.and_two_pow,
    Nat.testBit_eq_decide_div_mod_eq, Nat.mod_eq_of_lt hx]
  congr
  cases Nat.le_one_iff_eq_zero_or_eq_one.mp (Nat.le_of_lt_succ hx)
  all_goals simp [*]

theorem and_flagMask_eq_zero : x &&& flagMask w = 0 ↔ x.toNat < 2 ^ w := by
  rw [← BitVec.toNat_inj, toNat_and_flagMask]
  simp [Nat.div_eq_zero_iff]

theorem toNat_or_flagMask (h : x.toNat < 2 ^ w) : (x ||| flagMask w).toNat = x.toNat + 2 ^ w := by
  have ha := Nat.two_pow_add_eq_or_of_lt h 1
  rw [Nat.mul_one] at ha
  rw [BitVec.toNat_or, flagMask, BitVec.toNat_ofNat, Nat.mod_eq_of_lt two_pow_lt, Nat.or_comm, ← ha,
    Nat.add_comm]

end PackedWord
