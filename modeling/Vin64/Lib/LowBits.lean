import Mathlib.Algebra.Order.Ring.Nat

/-!
# Words with their low bits cleared
-/

namespace Vin64.Lib

variable {w : Nat}

theorem and_not_low (x : BitVec w) (k : Nat) :
    x &&& ~~~BitVec.ofNat w (2 ^ k - 1) = (x >>> k) <<< k := by
  refine BitVec.eq_of_getLsbD_eq fun i hi => ?_
  rw [BitVec.getLsbD_and, BitVec.getLsbD_not, BitVec.getLsbD_ofNat, Nat.testBit_two_pow_sub_one,
    BitVec.getLsbD_shiftLeft, BitVec.getLsbD_ushiftRight, decide_eq_true hi, Bool.true_and,
    Bool.true_and]
  by_cases h : i < k
  · rw [decide_eq_true h]
    simp
  · rw [decide_eq_false h, Nat.add_sub_cancel' (Nat.le_of_not_lt h)]
    simp

theorem toNat_and_not_low (x : BitVec w) (k : Nat) :
    (x &&& ~~~BitVec.ofNat w (2 ^ k - 1)).toNat = x.toNat / 2 ^ k * 2 ^ k := by
  have hle := Nat.div_mul_le_self x.toNat (2 ^ k)
  rw [and_not_low, BitVec.toNat_shiftLeft, BitVec.toNat_ushiftRight, Nat.shiftRight_eq_div_pow,
    Nat.shiftLeft_eq]
  exact Nat.mod_eq_of_lt (Nat.lt_of_le_of_lt hle x.isLt)

end Vin64.Lib
