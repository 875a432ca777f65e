import Mathlib.Algebra.Group.Nat.Defs
import Mathlib.Data.Nat.Basic

/-! Machine words that are read as signed numbers: below half of the range comparing and widening
them is comparing and widening what they stand for. -/
namespace TwosComplement
variable {w v : Nat} {a b : BitVec w}

def NotNegative (a : BitVec w) : Prop := 2 * a.toNat < 2^w

theorem NotNegative.toInt (small : NotNegative a) : a.toInt = a.toNat := by
  exact BitVec.toInt_eq_toNat_of_lt small

theorem slt_iff (first : NotNegative a) (second : NotNegative b) : a.slt b = true ↔ a < b := by
  rw [BitVec.slt,decide_eq_true_eq,first.toInt,second.toInt,BitVec.lt_def]
  omega

theorem sle_iff (first : NotNegative a) (second : NotNegative b) : a.sle b = true ↔ a ≤ b := by
  rw [BitVec.sle,decide_eq_true_eq,first.toInt,second.toInt,BitVec.le_def]
  omega

theorem toNat_signExtend (small : NotNegative a) (wider : w ≤ v) : (a.signExtend v).toNat = a.toNat := by
  have clear : a.msb = false := BitVec.msb_eq_false_iff_two_mul_lt.mpr small
  rw [BitVec.signExtend_eq_setWidth_of_msb_false clear,BitVec.toNat_setWidth,
    Nat.mod_eq_of_lt (lt_of_lt_of_le a.isLt (Nat.pow_le_pow_right Nat.two_pos wider))]

end TwosComplement
