import Mathlib.Algebra.Group.Int.Defs
import Mathlib.Algebra.Group.Nat.Defs
import Mathlib.Data.Nat.Basic

/-! Circular sequence numbers: `w`-bit counters that stand for natural numbers
which keep growing, compared through the sign of their difference. As long as two
of the numbers are less than half a revolution apart, the sign is the real one. -/
namespace SerialNumber
variable {w : Nat}

def lead (a b : BitVec w) : Int := (a - b).toInt

theorem lead_ofNat {a b : Nat} (low : -2^w ≤ 2 * ((a : Int) - b))
    (high : 2 * ((a : Int) - b) < 2^w) :
    lead (BitVec.ofNat w a) (BitVec.ofNat w b) = (a : Int) - b := by
  unfold lead
  rw [BitVec.toInt_sub,BitVec.toInt_ofNat',BitVec.toInt_ofNat',Int.bmod_sub_bmod,Int.sub_bmod_bmod]
  apply Int.bmod_eq_of_le_mul_two
  · push_cast
    omega
  · push_cast
    omega

theorem ofNat_inj_of_near {a b : Nat} (order : a ≤ b) (near : b < a + 2^w) :
    BitVec.ofNat w a = BitVec.ofNat w b ↔ a = b := by
  constructor
  · intro equal
    have same : a % 2^w = b % 2^w := by simpa using congrArg BitVec.toNat equal
    have gap : (b - a) % 2^w = 0 := Nat.sub_mod_eq_zero_of_mod_eq same.symm
    rw [Nat.mod_eq_of_lt (by omega)] at gap
    omega
  · exact congrArg _

theorem toNat_ofNat_sub_ofNat {a b : Nat} (order : b ≤ a) (near : a < b + 2^w) :
    (BitVec.ofNat w a - BitVec.ofNat w b).toNat = a - b := by
  obtain ⟨n,rfl⟩ := Nat.exists_eq_add_of_le order
  rw [BitVec.ofNat_add,BitVec.add_comm,BitVec.add_sub_cancel,BitVec.toNat_ofNat,Nat.mod_eq_of_lt (by omega)]
  omega

@[simp] theorem ofNat_add_ofNat (a b : Nat) :
    BitVec.ofNat w a + BitVec.ofNat w b = BitVec.ofNat w (a + b) :=
  (BitVec.ofNat_add a b).symm

end SerialNumber
