import QStorage.Lib.Bits
import Mathlib.Data.Nat.ModEq

/-!
# Wrapping counters

A counter of `w` bits carries an unbounded count modulo `2 ^ w`. The lemmas read
the differences and masked values of such counters back as facts about the counts.
-/

namespace QStorage.Lib.Counter

variable {w : Nat}

/-- The difference of two wrapped counters is the true distance while that is below `2 ^ w`. -/
theorem toNat_sub {a b : Nat} (hle : b ≤ a) (hlt : a < b + 2 ^ w) :
    (BitVec.ofNat w a - BitVec.ofNat w b).toNat = a - b := by
  have hadd : BitVec.ofNat w a = BitVec.ofNat w (a - b) + BitVec.ofNat w b := by
    rw [← BitVec.ofNat_add, Nat.sub_add_cancel hle]
  rw [hadd, BitVec.add_sub_cancel, BitVec.toNat_ofNat, Nat.mod_eq_of_lt (by omega)]

/-- A counter that a word was added to counts that many more. -/
theorem ofNat_add_word (a : Nat) (n : BitVec w) :
    BitVec.ofNat w a + n = BitVec.ofNat w (a + n.toNat) := by
  rw [BitVec.ofNat_add, BitVec.ofNat_toNat, BitVec.setWidth_eq]

/-- Masking with `2 ^ k - 1` keeps the count modulo `2 ^ k`, wrapped or not. -/
theorem toNat_and_mask {k : Nat} (hk : k ≤ w) (a : Nat) :
    (BitVec.ofNat w a &&& BitVec.ofNat w (2 ^ k - 1)).toNat = a % 2 ^ k := by
  rw [Bits.toNat_and_mask hk, BitVec.toNat_ofNat, Nat.mod_mod_of_dvd _ (Nat.pow_dvd_pow 2 hk)]

end QStorage.Lib.Counter
