import Toroni.Java.TopicMsg

/-! Topics as Java has them: strings of any units of 16 bits, surrogates without a partner among
them. How they are encoded, and how they are compared with the bytes of an encoded one. -/
namespace Toroni.Java.Strings
open Unicode Tp

abbrev JavaString := List (BitVec 16)

def isHighSurrogate (u : BitVec 16) : Bool := 0xD800 ≤ u.toNat && u.toNat < 0xDC00

def isLowSurrogate (u : BitVec 16) : Bool := 0xDC00 ≤ u.toNat && u.toNat < 0xE000

def scalar (u : BitVec 16) : Char :=
  if isHighSurrogate u || isLowSurrogate u then '?' else Char.ofNat u.toNat

def pair (high low : BitVec 16) : Char :=
  Char.ofNat (0x10000 + (high.toNat - 0xD800) * 0x400 + (low.toNat - 0xDC00))

def decode : JavaString → List Char
  | [] => []
  | [u] => [scalar u]
  | u :: v :: units =>
    if isHighSurrogate u && isLowSurrogate v then pair u v :: decode units
    else scalar u :: decode (v :: units)

def getBytes (s : JavaString) : List UInt8 := utf8 (decode s)

def widen (b : UInt8) : BitVec 16 := b.toBitVec.signExtend 16

open TopicMsgDeserializer in
def topicMatches (readerChannel : JavaString) (handleDescendants : Bool) (writerChannel : List UInt8)
    (postToDescendants : Bool) : Bool :=
  let clen := commonLength readerChannel writerChannel
  (clen == readerChannel.length && clen == writerChannel.length) ||
    (postToDescendants && clen == writerChannel.length) ||
    (handleDescendants && clen == readerChannel.length)

def IsDescendant {α : Type} (slash : α) (topic ancestor : List α) : Prop :=
  ∃ rest, rest ≠ [] ∧ (topic = ancestor ++ slash :: rest ∨
    (ancestor.getLast? = some slash ∧ topic = ancestor ++ rest))

def Hierarchical {α : Type} (slash : α) (reader writer : List α)
    (handleDescendants postToDescendants : Bool) : Prop :=
  reader = writer ∨ (postToDescendants = true ∧ IsDescendant slash reader writer) ∨
    (handleDescendants = true ∧ IsDescendant slash writer reader)

def Textual {α : Type} (reader writer : List α) (handleDescendants postToDescendants : Bool) : Prop :=
  reader = writer ∨ (postToDescendants = true ∧ writer <+: reader) ∨
    (handleDescendants = true ∧ reader <+: writer)

section
variable {u v : BitVec 16} {s reader writer : JavaString} {name : List UInt8}
  {handleDescendants postToDescendants : Bool}

@[simp] theorem getBytes_nil : getBytes [] = [] := rfl

/-- A string is empty, or starts with a pair, or with a unit that is decoded alone. -/
@[elab_as_elim] theorem units_induction {P : JavaString → Prop} (nil : P [])
    (pairs : ∀ u v s, isHighSurrogate u = true → isLowSurrogate v = true →
      getBytes (u :: v :: s) = String.utf8EncodeChar (pair u v) ++ getBytes s → P s → P (u :: v :: s))
    (alone : ∀ u s, getBytes (u :: s) = String.utf8EncodeChar (scalar u) ++ getBytes s → P s → P (u :: s)) :
    ∀ s, P s := by
  intro s
  induction s using decode.induct with
  | case1 => exact nil
  | case2 u => exact alone u [] (by rw [getBytes,decode,utf8_cons]; rfl) nil
  | case3 u v s surrogates ih =>
    obtain ⟨high,low⟩ := Bool.and_eq_true_iff.mp surrogates
    exact pairs u v s high low (by rw [getBytes,decode,if_pos surrogates,utf8_cons]; rfl) ih
  | case4 u v s single ih =>
    exact alone u (v :: s) (by rw [getBytes,decode,if_neg single,utf8_cons]; rfl) ih

theorem toNat_charOfNat {n : Nat} (valid : n.isValidChar) : (Char.ofNat n).toNat = n := by
  rw [Char.ofNat,dif_pos valid]
  rfl

theorem toNat_scalar (plain : (isHighSurrogate u || isLowSurrogate u) = false) :
    (scalar u).toNat = u.toNat := by
  rw [scalar,plain]
  apply toNat_charOfNat
  have := u.isLt
  simp [isHighSurrogate,isLowSurrogate] at plain
  simp only [Nat.isValidChar]
  omega

theorem toNat_pair (high : isHighSurrogate u = true) (low : isLowSurrogate v = true) :
    (pair u v).toNat = 0x10000 + (u.toNat - 0xD800) * 0x400 + (v.toNat - 0xDC00) := by
  apply toNat_charOfNat
  simp [isHighSurrogate,isLowSurrogate] at high low
  simp only [Nat.isValidChar]
  omega

theorem two_le_length_utf8EncodeChar {c : Char} (other : 128 ≤ c.toNat) :
    2 ≤ (String.utf8EncodeChar c).length := by
  have := length_utf16EncodeChar_lt other
  omega

theorem three_le_length_pair (high : isHighSurrogate u = true) (low : isLowSurrogate v = true) :
    3 ≤ (String.utf8EncodeChar (pair u v)).length := by
  have value := toNat_pair high low
  have more := length_utf16EncodeChar_lt (show 128 ≤ (pair u v).toNat by omega)
  rw [utf16EncodeChar,if_neg (by omega)] at more
  exact more.2

theorem length_le (s : JavaString) : s.length ≤ (getBytes s).length := by
  induction s using units_induction with
  | nil => exact Nat.zero_le _
  | pairs u v s high low bytes ih =>
    have := three_le_length_pair high low
    rw [bytes,List.length_append,List.length_cons,List.length_cons]
    omega
  | alone u s bytes ih =>
    have := Char.utf8Size_pos (scalar u)
    rw [bytes,List.length_append,String.length_utf8EncodeChar,List.length_cons]
    omega

theorem scalar_ascii (ascii : u.toNat < 128) : String.utf8EncodeChar (scalar u) = [UInt8.ofNat u.toNat] := by
  have plain : (isHighSurrogate u || isLowSurrogate u) = false := by
    simp [isHighSurrogate,isLowSurrogate]
    omega
  have value := toNat_scalar plain
  rw [utf8EncodeChar_ascii (by omega),value]

theorem toNat_widen {b : UInt8} (low : b.toNat < 128) : (widen b).toNat = b.toNat := by
  exact toNat_char low

/-- The bytes of a character that is not in ASCII are more than one, or a question mark. -/
theorem other_not_widened (other : 128 ≤ u.toNat)
    (bytes : getBytes (u :: s) = String.utf8EncodeChar (scalar u) ++ getBytes s) :
    u :: s ≠ (getBytes (u :: s)).map widen := by
  intro same
  rw [bytes] at same
  cases plain : isHighSurrogate u || isLowSurrogate u with
  | false =>
    have longer := two_le_length_utf8EncodeChar (c := scalar u) (by rw [toNat_scalar plain]; exact other)
    have lengths := congrArg List.length same
    have := length_le s
    simp only [List.length_cons,List.length_map,List.length_append] at lengths
    omega
  | true =>
    have replaced : scalar u = '?' := if_pos plain
    rw [replaced] at same
    have first : u = widen 0x3F := (List.cons.inj same).1
    rw [first] at other
    exact absurd other (by decide)

theorem eq_map_widen_iff : s = (getBytes s).map widen ↔ ∀ u ∈ s, u.toNat < 128 := by
  induction s using units_induction with
  | nil => simp
  | pairs u v s high low bytes ih =>
    have longer := three_le_length_pair high low
    have := length_le s
    apply iff_of_false
    · intro same
      have lengths := congrArg List.length same
      simp only [bytes,List.length_cons,List.length_map,List.length_append] at lengths
      omega
    · intro ascii
      have := ascii u List.mem_cons_self
      simp [isHighSurrogate] at high
      omega
  | alone u s bytes ih =>
    rw [List.forall_mem_cons,← ih]
    by_cases ascii : u.toNat < 128
    · have unit : widen (UInt8.ofNat u.toNat) = u := by
        rw [← BitVec.toNat_inj,toNat_widen (by simp; omega),UInt8.toNat_ofNat']
        omega
      rw [bytes,scalar_ascii ascii]
      simp [unit,ascii]
    · exact iff_of_false (other_not_widened (Nat.le_of_not_lt ascii) bytes) (fun both => ascii both.1)

theorem noZero_getBytes (noZero : ∀ u ∈ s, u ≠ 0) : NoZero (getBytes s) := by
  induction s using units_induction with
  | nil => exact nofun
  | pairs u v s high low bytes ih =>
    have value := toNat_pair high low
    have rest := ih (fun w member => noZero w (by simp [member]))
    rw [bytes]
    exact List.forall_mem_append.mpr ⟨utf8EncodeChar_ne_zero (by omega),rest⟩
  | alone u s bytes ih =>
    obtain ⟨first,rest⟩ := List.forall_mem_cons.mp noZero
    rw [bytes]
    refine List.forall_mem_append.mpr ⟨utf8EncodeChar_ne_zero ?_,ih rest⟩
    cases plain : isHighSurrogate u || isLowSurrogate u with
    | false =>
      rw [toNat_scalar plain]
      exact fun zero => first (BitVec.eq_of_toNat_eq zero)
    | true =>
      have replaced : scalar u = '?' := if_pos plain
      rw [replaced]
      decide

theorem commonLength_cons {b : UInt8} : TopicMsgDeserializer.commonLength (u :: s) (b :: name) =
    if u = widen b then TopicMsgDeserializer.commonLength s name + 1 else 0 := by
  rfl

theorem commonLength_left : TopicMsgDeserializer.commonLength s name = s.length ↔ s <+: name.map widen := by
  induction s generalizing name with
  | nil => simp [TopicMsgDeserializer.commonLength]
  | cons u s ih =>
    cases name with
    | nil => simp [TopicMsgDeserializer.commonLength]
    | cons b name =>
      rw [commonLength_cons,List.map_cons,List.cons_prefix_cons,← ih]
      by_cases same : u = widen b
      · simp [same]
      · simp [same]

theorem commonLength_right : TopicMsgDeserializer.commonLength s name = name.length ↔ name.map widen <+: s := by
  induction s generalizing name with
  | nil => cases name <;> simp [TopicMsgDeserializer.commonLength]
  | cons u s ih =>
    cases name with
    | nil => simp [TopicMsgDeserializer.commonLength]
    | cons b name =>
      rw [commonLength_cons,List.map_cons,List.cons_prefix_cons,← ih]
      by_cases same : u = widen b
      · simp [same]
      · simp [same,eq_comm (a := widen b)]

theorem topicMatches_iff : topicMatches reader handleDescendants name postToDescendants = true ↔
    reader = name.map widen ∨ (postToDescendants = true ∧ name.map widen <+: reader) ∨
      (handleDescendants = true ∧ reader <+: name.map widen) := by
  have both : (reader <+: name.map widen ∧ name.map widen <+: reader) ↔ reader = name.map widen :=
    ⟨fun prefixes => prefixes.1.eq_of_length_le prefixes.2.length_le,fun same => by simp [same]⟩
  simp only [topicMatches,Bool.or_eq_true,Bool.and_eq_true,beq_iff_eq,commonLength_left,commonLength_right,
    both,or_assoc]

theorem IsDescendant.extends {α : Type} {slash : α} {topic ancestor : List α}
    (descendant : IsDescendant slash topic ancestor) : ancestor <+: topic := by
  obtain ⟨rest,_,rfl | ⟨_,rfl⟩⟩ := descendant
  · exact List.prefix_append _ _
  · exact List.prefix_append _ _

theorem Hierarchical.textual {α : Type} {slash : α} {reader writer : List α}
    (related : Hierarchical slash reader writer handleDescendants postToDescendants) :
    Textual reader writer handleDescendants postToDescendants := by
  rcases related with same | ⟨posted,below⟩ | ⟨handles,below⟩
  · exact Or.inl same
  · exact Or.inr (Or.inl ⟨posted,below.extends⟩)
  · exact Or.inr (Or.inr ⟨handles,below.extends⟩)

/-- Both matchers compare topics as texts, so a topic and its descendants always belong together. In
Java this is about the messages of topics in ASCII. -/
theorem topicMatches_textually (readerChannel writerChannel : Chars)
    (ascii : ∀ u ∈ writer, u.toNat < 128) :
    (TopicMsgBinaryDeserializer.topicMatches readerChannel handleDescendants writerChannel
        postToDescendants = true ↔ Textual readerChannel writerChannel handleDescendants postToDescendants) ∧
      (topicMatches reader handleDescendants (getBytes writer) postToDescendants = true ↔
        Textual reader writer handleDescendants postToDescendants) ∧
      (Hierarchical 47 readerChannel writerChannel handleDescendants postToDescendants →
        TopicMsgBinaryDeserializer.topicMatches readerChannel handleDescendants writerChannel
          postToDescendants = true) ∧
      (Hierarchical 47 reader writer handleDescendants postToDescendants →
        topicMatches reader handleDescendants (getBytes writer) postToDescendants = true) := by
  have cpp : TopicMsgBinaryDeserializer.topicMatches readerChannel handleDescendants writerChannel
      postToDescendants = true ↔ Textual readerChannel writerChannel handleDescendants postToDescendants :=
    Tp.topicMatches_iff
  have java : topicMatches reader handleDescendants (getBytes writer) postToDescendants = true ↔
      Textual reader writer handleDescendants postToDescendants := by
    rw [topicMatches_iff,← eq_map_widen_iff.mpr ascii]
    rfl
  exact ⟨cpp,java,fun related => cpp.mpr related.textual,fun related => java.mpr related.textual⟩

end

/-- A reader of `/a` that handles descendants, and a message of `/a/b`. -/
theorem topicMatches_component :
    (TopicMsgBinaryDeserializer.topicMatches [47,97] true [47,97,47,98] false = true ↔
      Textual ([47,97] : Chars) [47,97,47,98] true false) ∧
    (topicMatches [47,97] true (getBytes [47,97,47,98]) false = true ↔
      Textual ([47,97] : JavaString) [47,97,47,98] true false) ∧
    (Hierarchical 47 ([47,97] : Chars) [47,97,47,98] true false →
      TopicMsgBinaryDeserializer.topicMatches [47,97] true [47,97,47,98] false = true) ∧
    (Hierarchical 47 ([47,97] : JavaString) [47,97,47,98] true false →
      topicMatches [47,97] true (getBytes [47,97,47,98]) false = true) := by
  exact topicMatches_textually [47,97] [47,97,47,98] (by simp)

theorem not_isDescendant_sibling {α : Type} {slash a b : α} (first : b ≠ slash) (second : a ≠ slash) :
    ¬ IsDescendant slash [slash,a,b] [slash,a] := by
  rintro ⟨rest,_,same | ⟨last,_⟩⟩
  · simp at same
    exact first same.1
  · simp at last
    exact second last

/-- A message posted to the descendants of `/a` reaches a reader of `/ab`, and in Java none reaches
a reader of its own topic if that has a character that is not in ASCII. -/
theorem not_hierarchical :
    ¬ (TopicMsgBinaryDeserializer.topicMatches [47,97,98] false [47,97] true = true ↔
      Hierarchical (47 : UInt8) [47,97,98] [47,97] false true) ∧
    ¬ (topicMatches [47,97,98] false (getBytes [47,97]) true = true ↔
      Hierarchical (47 : BitVec 16) [47,97,98] [47,97] false true) ∧
    ¬ (topicMatches [0xE9] false (getBytes [0xE9]) false = true ↔
      Hierarchical (47 : BitVec 16) [0xE9] [0xE9] false false) := by
  have sibling : ∀ {α : Type} {slash a b : α}, b ≠ slash → a ≠ slash →
      ¬ Hierarchical slash [slash,a,b] [slash,a] false true := by
    rintro α slash a b first second (same | ⟨_,descendant⟩ | ⟨off,_⟩)
    · simp at same
    · exact not_isDescendant_sibling first second descendant
    · contradiction
  refine ⟨fun agree => ?_,fun agree => ?_,fun agree => ?_⟩
  · exact sibling (by decide) (by decide) (agree.mp (by decide))
  · exact sibling (by decide) (by decide) (agree.mp (by decide))
  · exact absurd (agree.mpr (Or.inl rfl)) (by decide)

end Toroni.Java.Strings
