import Mathlib.Algebra.Ring.Nat
import Mathlib.Algebra.Ring.Int.Defs

-- Operations on the C types `int` and `unsigned` of 32 bits, where they may be undefined.
namespace CInt

def intMax : ℤ := 2 ^ 31 - 1

-- The expression `1 << count`. A bit which is shifted into the sign is kept.
def bit (count : ℤ) : Option (BitVec 32) :=
  if 0 ≤ count ∧ count < 32 then some ((1 : BitVec 32) <<< count.toNat) else none

variable {c : ℤ} {k : ℕ} {v : BitVec 32}

theorem bit_isSome : (bit c).isSome ↔ 0 ≤ c ∧ c < 32 := by
  simp [bit]

theorem bit_of_lt (h : k < 32) : bit k = some ((1 : BitVec 32) <<< k) := by
  have hk : 0 ≤ (k : ℤ) ∧ (k : ℤ) < 32 := by omega
  simp [bit, hk]

theorem toNat_one_shiftLeft (h : k < 32) : ((1 : BitVec 32) <<< k).toNat = 2 ^ k := by
  have hk : 2 ^ k < 2 ^ 32 := Nat.pow_lt_pow_right (by decide) h
  rw [BitVec.toNat_shiftLeft, Nat.shiftLeft_eq]
  exact (congrArg (· % 2 ^ 32) (Nat.one_mul _)).trans (Nat.mod_eq_of_lt hk)

-- A value below 2^31 does not change when it is converted to `int`, ...
theorem toInt_of_lt (h : v.toNat < 2 ^ 31) : v.toInt = v.toNat :=
  BitVec.toInt_eq_toNat_of_lt (by omega)

-- ... and the others become negative.
theorem toInt_of_ge (h : 2 ^ 31 ≤ v.toNat) : v.toInt = v.toNat - 2 ^ 32 := by
  rw [BitVec.toInt_eq_toNat_cond, if_neg (by omega)]
  rfl

end CInt
