import Mathlib.Data.Nat.Bitwise
import Toroni.Library.SerialNumber

/-! Stream positions and the position arithmetic shared by writer and reader:
64-bit counters compared through the sign of their difference, and the index of a
position in a buffer whose size is a power of two. -/
namespace Toroni.Rmp
open SerialNumber

abbrev Position := BitVec 64
abbrev StatCounter := BitVec 64

def bufIndex (indexMask pos : Position) : Position := pos &&& indexMask

def greaterThan (a b : Position) : Bool := (b - a).toInt < 0

def greaterOrEqualThan (a b : Position) : Bool := (b - a).toInt ≤ 0

def expired (pos freePos bufSize : Position) : Bool := greaterOrEqualThan freePos (pos + bufSize)

def isZeroOrPowerOfTwo (x : Position) : Bool := (x &&& (x - 1)) == 0

def indexMask (bufSizePowOf2 : Position) : Position := bufSizePowOf2 - 1

/-- The buffer sizes the protocol is used with: powers of two that hold a message
header. Below eight bytes the size limit of a message, `size - 5`, wraps around. -/
structure RingSize where
  bytes : Nat
  powerOfTwo : ∃ k, 3 ≤ k ∧ k ≤ 63 ∧ bytes = 2^k

def ring16 : RingSize := ⟨16,4,by decide,by decide,rfl⟩

def ring64 : RingSize := ⟨64,6,by decide,by decide,rfl⟩

def RingSize.position (size : RingSize) : Position := BitVec.ofNat 64 size.bytes

section
variable (size : RingSize)

theorem RingSize.bounds : 8 ≤ size.bytes ∧ size.bytes ≤ 2^63 := by
  obtain ⟨k,low,high,equal⟩ := size.powerOfTwo
  have small : 2^3 ≤ 2^k := Nat.pow_le_pow_right Nat.two_pos low
  have large : 2^k ≤ 2^63 := Nat.pow_le_pow_right Nat.two_pos high
  omega

theorem RingSize.positive : 0 < size.bytes := by
  have := size.bounds
  omega

theorem RingSize.mod_lt (p : Nat) : p % size.bytes < size.bytes := by
  exact Nat.mod_lt p size.positive

theorem RingSize.dvd : size.bytes ∣ 2^64 := by
  obtain ⟨k,_,high,equal⟩ := size.powerOfTwo
  exact equal ▸ Nat.pow_dvd_pow 2 (by omega)

@[simp] theorem RingSize.toNat_position : size.position.toNat = size.bytes := by
  have := size.bounds
  simp only [RingSize.position,BitVec.toNat_ofNat]
  omega

theorem bufIndex_toNat (pos : Position) :
    (bufIndex (indexMask size.position) pos).toNat = pos.toNat % size.bytes := by
  obtain ⟨k,low,high,equal⟩ := size.powerOfTwo
  have mask : (indexMask size.position).toNat = 2^k - 1 := by
    have := size.bounds
    have value := size.toNat_position
    have one : (1 : Position).toNat = 1 := rfl
    rw [indexMask,BitVec.toNat_sub,value,one,← equal]
    omega
  rw [bufIndex,BitVec.toNat_and,mask,equal,Nat.and_two_pow_sub_one_eq_mod]

theorem bufIndex_ofNat (p : Nat) :
    (bufIndex (indexMask size.position) (BitVec.ofNat 64 p)).toNat = p % size.bytes := by
  rw [bufIndex_toNat,BitVec.toNat_ofNat,Nat.mod_mod_of_dvd _ size.dvd]

theorem isZeroOrPowerOfTwo_position : isZeroOrPowerOfTwo size.position = true := by
  have index := bufIndex_toNat size size.position
  rw [RingSize.toNat_position,Nat.mod_self] at index
  have zero : bufIndex (indexMask size.position) size.position = 0 :=
    BitVec.eq_of_toNat_eq (by simpa using index)
  simpa [isZeroOrPowerOfTwo,bufIndex,indexMask] using zero

theorem toNat_bufEnd (p : Nat) :
    (size.position - bufIndex (indexMask size.position) (BitVec.ofNat 64 p)).toNat =
      size.bytes - p % size.bytes := by
  have inside := size.mod_lt p
  rw [BitVec.toNat_sub_of_le]
  · rw [bufIndex_ofNat,RingSize.toNat_position]
  · rw [BitVec.le_def,bufIndex_ofNat,RingSize.toNat_position]
    omega

theorem bufEnd_lt (p n : Nat) (narrow : n < 2^64) :
    size.position - bufIndex (indexMask size.position) (BitVec.ofNat 64 p) < BitVec.ofNat 64 n ↔
      size.bytes - p % size.bytes < n := by
  rw [BitVec.lt_def,toNat_bufEnd,BitVec.toNat_ofNat,Nat.mod_eq_of_lt narrow]

theorem bufIndex_add_le {p n : Nat} (inside : p % size.bytes + n ≤ size.bytes) :
    ¬ size.position < bufIndex (indexMask size.position) (BitVec.ofNat 64 p) + BitVec.ofNat 64 n := by
  have bounds := size.bounds
  rw [BitVec.lt_def,BitVec.toNat_add,bufIndex_ofNat,BitVec.toNat_ofNat,RingSize.toNat_position]
  omega

/-- The comparison is the real one while the positions are within half the counter range. -/
theorem greaterThan_iff {a b : Nat} (low : a ≤ b + 2^63) (high : b < a + 2^63) :
    greaterThan (BitVec.ofNat 64 a) (BitVec.ofNat 64 b) = true ↔ b < a := by
  have real := lead_ofNat (w := 64) (a := b) (b := a) (by omega) (by omega)
  simp only [lead] at real
  simp only [greaterThan,real,decide_eq_true_eq]
  omega

/-- Expiry is the real one while the reader is ahead of the point where its bytes
start to be replaced by less than `2^63` and behind it by at most `2^63`. -/
theorem expired_iff {p f : Nat} (low : f ≤ p + size.bytes + 2^63)
    (high : p + size.bytes < f + 2^63) :
    expired (BitVec.ofNat 64 p) (BitVec.ofNat 64 f) size.position = true ↔ p + size.bytes ≤ f := by
  have real := lead_ofNat (w := 64) (a := p + size.bytes) (b := f) (by omega) (by omega)
  simp only [lead] at real
  simp only [expired,greaterOrEqualThan,RingSize.position,ofNat_add_ofNat,real,decide_eq_true_eq]
  omega

theorem expired_behind {p f : Nat} (behind : p < f) (near : f ≤ p + size.bytes + 2^63) :
    expired (BitVec.ofNat 64 p) (BitVec.ofNat 64 f) size.position = true ↔ p + size.bytes ≤ f := by
  exact expired_iff size near (by have := size.bounds; omega)

/-- A reader at or behind the stream end that does not look expired is less than a revolution
behind. -/
theorem lt_of_not_expired {p f : Nat} (order : p ≤ f) (near : f ≤ p + size.bytes + 2^63)
    (live : expired (BitVec.ofNat 64 p) (BitVec.ofNat 64 f) size.position = false) :
    f < p + size.bytes := by
  have bounds := size.bounds
  rcases Nat.eq_or_lt_of_le order with rfl | behind
  · omega
  · by_contra far
    have gone := (expired_behind size behind near).mpr (by omega)
    simp [live] at gone

end

theorem toInt_nonpos_iff (x : Position) : x.toInt ≤ 0 ↔ x.toNat = 0 ∨ 2^63 ≤ x.toNat := by
  rw [BitVec.toInt_eq_toNat_cond]
  split <;> omega

theorem distance_le_of_greaterOrEqualThan {f pos : Position} (behind : greaterOrEqualThan f pos = true) :
    (f - pos).toNat ≤ 2^63 := by
  simp only [greaterOrEqualThan,decide_eq_true_eq,toInt_nonpos_iff] at behind
  bv_omega

/-- When the stream end moves on by `n`, a position behind one that expires expires as well,
unless it was expired before. -/
theorem expired_of_behind {p o f n B : Position} (few : n.toNat < 2^62)
    (live : expired p f B = false) (behind : greaterOrEqualThan o p = true)
    (ownLive : expired o f B = false) (ownGone : expired o (f + n) B = true) :
    expired p (f + n) B = true := by
  simp only [expired,greaterOrEqualThan,decide_eq_true_eq,decide_eq_false_iff_not,toInt_nonpos_iff] at *
  have room : o + B - f = (p + B - f) + (o - p) := by grind
  have less : p + B - (f + n) = (p + B - f) - n := by grind
  have lessOwn : o + B - (f + n) = (p + B - f) + (o - p) - n := by grind
  have back : p - o = - (o - p) := by grind
  rw [less]
  rw [room] at ownLive
  rw [lessOwn] at ownGone
  rw [back] at behind
  generalize p + B - f = a at *
  generalize o - p = x at *
  rw [BitVec.toNat_add] at ownLive
  rw [BitVec.toNat_neg] at behind
  rw [BitVec.toNat_sub,BitVec.toNat_add] at ownGone
  rw [BitVec.toNat_sub]
  have wide := x.isLt
  generalize a.toNat = a at *
  generalize x.toNat = x at *
  generalize n.toNat = n at *
  have half : x ≤ 2^63 := by omega
  have whole : (a + x) % 2^64 = a + x := by omega
  rw [whole] at ownLive ownGone
  clear whole behind
  have few : a + x ≤ n := by omega
  omega

theorem eq_ofNat_distance (base pos : Position) :
    pos = BitVec.ofNat 64 (base.toNat + (pos - base).toNat) := by
  rw [BitVec.ofNat_add,BitVec.ofNat_toNat,BitVec.ofNat_toNat,BitVec.setWidth_eq,BitVec.setWidth_eq,
    BitVec.add_comm,BitVec.sub_add_cancel]

end Toroni.Rmp
