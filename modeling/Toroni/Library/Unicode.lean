import Mathlib.Data.List.Basic

/-! Two encodings of Unicode text. They have the same units for ASCII characters, and for no
others: every unit of another character is above the ASCII range. -/
namespace Unicode

def utf8 (text : List Char) : List UInt8 := text.flatMap String.utf8EncodeChar

def utf16EncodeChar (c : Char) : List (BitVec 16) :=
  if c.toNat < 0x10000 then [BitVec.ofNat 16 c.toNat]
  else [BitVec.ofNat 16 (0xD800 + (c.toNat - 0x10000) / 0x400),
    BitVec.ofNat 16 (0xDC00 + (c.toNat - 0x10000) % 0x400)]

def utf16 (text : List Char) : List (BitVec 16) := text.flatMap utf16EncodeChar

def IsAscii (text : List Char) : Prop := ∀ c ∈ text, c.toNat < 128

instance (text : List Char) : Decidable (IsAscii text) := List.decidableBAll _ _

section
variable {c : Char} {text : List Char}

@[simp] theorem utf8_nil : utf8 [] = [] := rfl

@[simp] theorem utf8_cons : utf8 (c :: text) = String.utf8EncodeChar c ++ utf8 text := List.flatMap_cons

@[simp] theorem utf16_nil : utf16 [] = [] := rfl

@[simp] theorem utf16_cons : utf16 (c :: text) = utf16EncodeChar c ++ utf16 text := List.flatMap_cons

@[simp] theorem isAscii_nil : IsAscii [] := nofun

@[simp] theorem isAscii_cons : IsAscii (c :: text) ↔ c.toNat < 128 ∧ IsAscii text := List.forall_mem_cons

theorem utf8EncodeChar_ascii (ascii : c.toNat < 128) : String.utf8EncodeChar c = [UInt8.ofNat c.toNat] := by
  unfold String.utf8EncodeChar
  exact if_pos (Nat.le_of_lt_succ ascii)

theorem utf16EncodeChar_ascii (ascii : c.toNat < 128) : utf16EncodeChar c = [BitVec.ofNat 16 c.toNat] := by
  exact if_pos (by omega)

theorem utf8EncodeChar_high (other : 128 ≤ c.toNat) : ∀ b ∈ String.utf8EncodeChar c, 128 ≤ b.toNat := by
  have low : ¬ c.val.toNat ≤ 0x7f := by
    change 128 ≤ c.val.toNat at other
    omega
  simp only [String.utf8EncodeChar,if_neg low]
  split
  · simp [UInt8.toNat_ofNat']
    omega
  · split
    · simp [UInt8.toNat_ofNat']
      omega
    · simp [UInt8.toNat_ofNat']
      omega

theorem utf16EncodeChar_high (other : 128 ≤ c.toNat) : ∀ u ∈ utf16EncodeChar c, 128 ≤ u.toNat := by
  have valid : c.toNat < 0xd800 ∨ (0xdfff < c.toNat ∧ c.toNat < 0x110000) := c.valid
  unfold utf16EncodeChar
  split
  · simp
    omega
  · simp
    omega

theorem length_utf16EncodeChar_lt (other : 128 ≤ c.toNat) :
    0 < (utf16EncodeChar c).length ∧ (utf16EncodeChar c).length < (String.utf8EncodeChar c).length := by
  have low : ¬ c.val.toNat ≤ 0x7f := by
    change 128 ≤ c.val.toNat at other
    omega
  simp only [String.utf8EncodeChar,if_neg low,utf16EncodeChar]
  have same : c.toNat = c.val.toNat := rfl
  repeat' split
  all_goals simp
  all_goals omega

theorem length_utf16_le (text : List Char) : (utf16 text).length ≤ (utf8 text).length := by
  induction text with
  | nil => exact Nat.le_refl _
  | cons c text ih =>
    simp only [utf16_cons,utf8_cons,List.length_append]
    by_cases ascii : c.toNat < 128
    · rw [utf8EncodeChar_ascii ascii,utf16EncodeChar_ascii ascii]
      simpa using ih
    · have := length_utf16EncodeChar_lt (Nat.le_of_not_lt ascii)
      omega

theorem length_utf8_le_iff : (utf8 text).length ≤ (utf16 text).length ↔ IsAscii text := by
  induction text with
  | nil => simp
  | cons c text ih =>
    simp only [utf16_cons,utf8_cons,List.length_append,isAscii_cons]
    by_cases ascii : c.toNat < 128
    · rw [utf8EncodeChar_ascii ascii,utf16EncodeChar_ascii ascii,← ih]
      simp [ascii]
    · have := length_utf16EncodeChar_lt (Nat.le_of_not_lt ascii)
      have := length_utf16_le text
      constructor
      · omega
      · exact fun both => absurd both.1 ascii

theorem length_utf8_ascii (ascii : IsAscii text) : (utf8 text).length = text.length := by
  induction text with
  | nil => rfl
  | cons c text ih =>
    obtain ⟨first,rest⟩ := isAscii_cons.mp ascii
    simp [utf8EncodeChar_ascii first,ih rest]

theorem utf8_low (ascii : IsAscii text) : ∀ b ∈ utf8 text, b.toNat < 128 := by
  intro b member
  obtain ⟨c,inside,encoded⟩ := List.mem_flatMap.mp member
  have low := ascii c inside
  rw [utf8EncodeChar_ascii low,List.mem_singleton] at encoded
  rw [encoded,UInt8.toNat_ofNat']
  omega

theorem utf8EncodeChar_ne_zero (noZero : c.toNat ≠ 0) : ∀ b ∈ String.utf8EncodeChar c, b ≠ 0 := by
  intro b encoded zero
  by_cases ascii : c.toNat < 128
  · rw [utf8EncodeChar_ascii ascii,List.mem_singleton] at encoded
    have value := congrArg UInt8.toNat (encoded.symm.trans zero)
    rw [UInt8.toNat_ofNat',Nat.mod_eq_of_lt (by omega)] at value
    exact noZero value
  · have high := utf8EncodeChar_high (Nat.le_of_not_lt ascii) b encoded
    rw [zero] at high
    exact absurd high (by decide)

theorem utf8_ne_zero (noZero : ∀ c ∈ text, c.toNat ≠ 0) : ∀ b ∈ utf8 text, b ≠ 0 := by
  intro b member
  obtain ⟨c,inside,encoded⟩ := List.mem_flatMap.mp member
  exact utf8EncodeChar_ne_zero (noZero c inside) b encoded

end
end Unicode
