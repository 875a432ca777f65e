import Mathlib.Data.List.Basic
import Mathlib.Tactic.Ring

/-! Fixed-width little-endian byte encoding of natural numbers. A number that
does not fit keeps its low bytes, as a narrowing integer conversion does. -/
namespace LittleEndian

def toBytes : Nat → Nat → List UInt8
  | 0, _ => []
  | k+1, n => UInt8.ofNat (n % 256) :: toBytes k (n / 256)

def ofBytes : List UInt8 → Nat
  | [] => 0
  | b :: bs => b.toNat + 256 * ofBytes bs

@[simp] theorem length_toBytes (k n : Nat) : (toBytes k n).length = k := by
  induction k generalizing n with
  | zero => rfl
  | succ k ih => simp [toBytes,ih]

theorem toBytes_eq_map (k n : Nat) :
    toBytes k n = (List.range k).map (fun i => UInt8.ofNat (n / 256^i % 256)) := by
  induction k generalizing n with
  | zero => rfl
  | succ k ih =>
    rw [toBytes,ih,List.range_succ_eq_map,List.map_cons,List.map_map]
    congr 1
    · simp
    · apply List.map_congr_left
      intro i _
      simp only [Function.comp_apply,Nat.pow_succ',Nat.div_div_eq_div_mul]

theorem ofBytes_toBytes_mod (k n : Nat) : ofBytes (toBytes k n) = n % 256^k := by
  induction k generalizing n with
  | zero => simp [toBytes,ofBytes,Nat.mod_one]
  | succ k ih =>
    have digit : (UInt8.ofNat (n % 256)).toNat = n % 256 := by
      simp [UInt8.toNat_ofNat']
    simp only [toBytes,ofBytes,ih,digit]
    rw [Nat.pow_succ,Nat.mul_comm (256^k) 256,Nat.mod_mul]

theorem ofBytes_toBytes {k n : Nat} (fits : n < 256^k) : ofBytes (toBytes k n) = n := by
  rw [ofBytes_toBytes_mod,Nat.mod_eq_of_lt fits]

theorem ofBytes_lt (bytes : List UInt8) : ofBytes bytes < 256^bytes.length := by
  induction bytes with
  | nil => exact Nat.one_pos
  | cons b bytes ih =>
    have digit := b.toNat_lt
    rw [ofBytes,List.length_cons,Nat.pow_succ]
    omega

end LittleEndian
