import Mathlib.Tactic.Ring

/-!
# Masks and fields

A mask of the `k` low bits keeps the residue of a word modulo `2 ^ k`, and its complement the
multiple of `2 ^ k` below the word. Fields are joined by a shift and an or, and compared from the
highest down.
-/

namespace QStorage.Lib.Bits

variable {w k : ℕ}

/-- The bits under the mask are the residue. -/
theorem toNat_and_mask (hk : k ≤ w) (x : BitVec w) :
    (x &&& BitVec.ofNat w (2 ^ k - 1)).toNat = x.toNat % 2 ^ k := by
  have hpow : 2 ^ k ≤ 2 ^ w := Nat.pow_le_pow_right (by decide) hk
  have hpos : 0 < 2 ^ k := Nat.two_pow_pos k
  rw [BitVec.toNat_and, BitVec.toNat_ofNat, Nat.mod_eq_of_lt (a := 2 ^ k - 1) (by omega),
    Nat.and_two_pow_sub_one_eq_mod]

theorem getLsbD_mask (k i : ℕ) :
    (BitVec.ofNat w (2 ^ k - 1)).getLsbD i = (decide (i < w) && decide (i < k)) := by
  rw [BitVec.getLsbD_ofNat, Nat.testBit_two_pow_sub_one]

/-- To clear the low bits is to shift them out and zeros in. -/
theorem and_not_mask (x : BitVec w) : x &&& ~~~BitVec.ofNat w (2 ^ k - 1) = x >>> k <<< k := by
  apply BitVec.eq_of_getLsbD_eq
  intro i hi
  rw [BitVec.getLsbD_and, BitVec.getLsbD_not, getLsbD_mask, BitVec.getLsbD_shiftLeft,
    BitVec.getLsbD_ushiftRight]
  by_cases hik : i < k
  · simp [hik]
  · simp [hi, hik, show k + (i - k) = i by omega]

/-- The other bits are the multiple below. -/
theorem toNat_and_not_mask (x : BitVec w) :
    (x &&& ~~~BitVec.ofNat w (2 ^ k - 1)).toNat = x.toNat / 2 ^ k * 2 ^ k := by
  have hle : x.toNat / 2 ^ k * 2 ^ k ≤ x.toNat := Nat.div_mul_le_self _ _
  rw [and_not_mask, BitVec.toNat_shiftLeft, BitVec.toNat_ushiftRight, Nat.shiftRight_eq_div_pow,
    Nat.shiftLeft_eq, Nat.mod_eq_of_lt (lt_of_le_of_lt hle x.isLt)]

/-- A field placed above the bits of another one is added to it. -/
theorem toNat_shiftLeft_or {hi lo : BitVec w} (hfits : hi.toNat * 2 ^ k < 2 ^ w)
    (hlo : lo.toNat < 2 ^ k) : (hi <<< k ||| lo).toNat = hi.toNat * 2 ^ k + lo.toNat := by
  have hshift : (hi <<< k).toNat = hi.toNat <<< k := by
    rw [BitVec.toNat_shiftLeft, Nat.mod_eq_of_lt (by rwa [Nat.shiftLeft_eq])]
  rw [BitVec.toNat_or, hshift, ← Nat.shiftLeft_add_eq_or_of_lt hlo, Nat.shiftLeft_eq]

/-- Words compare as their numbers. -/
theorem compare_toNat (x y : BitVec w) : compare x y = compare x.toNat y.toNat := by
  change compareOfLessAndEq x y = compareOfLessAndEq x.toNat y.toNat
  simp only [compareOfLessAndEq, BitVec.lt_def, BitVec.toNat_inj]

/-- Of two fields side by side the high one is compared first. -/
theorem compare_mul_add {n hi hi' lo lo' : ℕ} (hlo : lo < n) (hlo' : lo' < n) :
    compare (hi * n + lo) (hi' * n + lo') = (compare hi hi').then (compare lo lo') := by
  have hbelow {a b r s : ℕ} (hr : r < n) (hab : a < b) : a * n + r < b * n + s := by
    have hmul : (a + 1) * n ≤ b * n := Nat.mul_le_mul_right n hab
    grind
  rcases lt_trichotomy hi hi' with hlt | rfl | hgt
  · rw [Nat.compare_eq_lt.mpr hlt, Nat.compare_eq_lt.mpr (hbelow hlo hlt), Ordering.lt_then]
  · rw [Nat.compare_eq_eq.mpr rfl, Ordering.eq_then, Nat.compare_eq_ite_lt, Nat.compare_eq_ite_lt]
    simp only [Nat.add_lt_add_iff_left]
  · rw [Nat.compare_eq_gt.mpr hgt, Nat.compare_eq_gt.mpr (hbelow hlo' hgt), Ordering.gt_then]

end QStorage.Lib.Bits
