import Mathlib.Data.List.TakeWhile
import Toroni.Library.LittleEndian

/-! The binary layout of a topic message: eight bytes of reader generation, one byte that tells
whether it is posted to descendants, the zero-terminated channel name, and the data. -/
namespace Toroni.Tp
open LittleEndian

abbrev ReaderGen := BitVec 64

abbrev Chars := List UInt8

namespace TopicMsgBinarySerializer

def sizeOf (channelName : Chars) (dataLen : BitVec 32) : BitVec 32 :=
  BitVec.ofNat 32 (8 + 1 + (channelName.length + 1) + dataLen.toNat)

/-- The `n` bytes that `strncpy` stores: those before the first zero, then zeros. -/
def strncpy (src : Chars) (n : Nat) : Chars :=
  let shown := (src.takeWhile (· != 0)).take n
  shown ++ List.replicate (n - shown.length) 0

def serialize (readerGen : ReaderGen) (postToDescendants : Bool) (channelName : Chars)
    (data : List UInt8) : List UInt8 :=
  toBytes 8 readerGen.toNat ++ (if postToDescendants then 1 else 0) ::
    (strncpy channelName (channelName.length + 1) ++ data)

end TopicMsgBinarySerializer

namespace TopicMsgBinaryDeserializer

def commonLength : Chars → Chars → Nat
  | a :: as, b :: bs => if a = b then commonLength as bs + 1 else 0
  | _, _ => 0

def topicMatches (readerChannel : Chars) (handleDescendents : Bool) (writerChannel : Chars)
    (postToDescendents : Bool) : Bool :=
  let clen := commonLength readerChannel writerChannel
  (clen == readerChannel.length && clen == writerChannel.length) ||
    (postToDescendents && clen == writerChannel.length) ||
    (handleDescendents && clen == readerChannel.length)

inductive Filtered
  | rejected
  | accepted (data : List UInt8)
  | outOfRange
  | assertionFailed
  deriving DecidableEq

def Filtered.payload : Filtered → Option (List UInt8)
  | accepted data => some data
  | _ => none

def deserializeAndFilter (data : List UInt8) (readerGen : ReaderGen) (channelName : Chars)
    (handleDescendants : Bool) : Filtered :=
  if data.length < (TopicMsgBinarySerializer.sizeOf [] 0).toNat then .assertionFailed
  else if ofBytes (data.take 8) < readerGen.toNat then .rejected
  else
    let writerPd := (data.drop 8).headD 0 != 0
    let names := data.drop 9
    let writerChName := names.takeWhile (· != 0)
    if names.length ≤ writerChName.length then .outOfRange
    else if topicMatches channelName handleDescendants writerChName writerPd then
      .accepted (names.drop (writerChName.length + 1))
    else .rejected

end TopicMsgBinaryDeserializer

open TopicMsgBinarySerializer TopicMsgBinaryDeserializer

def NoZero (name : Chars) : Prop := ∀ c ∈ name, c ≠ 0

section
variable {readerGen writerGen : ReaderGen} {postToDescendants handleDescendants : Bool}
  {name channel : Chars} {data : List UInt8}

theorem toNat_sizeOf_empty : (TopicMsgBinarySerializer.sizeOf [] 0).toNat = 10 := by
  rfl

theorem NoZero.takeWhile (noZero : NoZero name) : name.takeWhile (· != 0) = name := by
  exact List.takeWhile_eq_self_iff.mpr (fun c member => by simpa using noZero c member)

theorem noZero_takeWhile (name : Chars) : NoZero (name.takeWhile (· != 0)) := by
  intro _ member
  simpa using List.mem_takeWhile_imp member

theorem NoZero.strncpy (noZero : NoZero name) : strncpy name (name.length + 1) = name ++ [0] := by
  rw [TopicMsgBinarySerializer.strncpy,noZero.takeWhile,List.take_of_length_le (Nat.le_succ _),
    Nat.add_sub_cancel_left]
  rfl

@[simp] theorem length_strncpy (src : Chars) (n : Nat) :
    (TopicMsgBinarySerializer.strncpy src n).length = n := by
  simp only [TopicMsgBinarySerializer.strncpy,List.length_append,List.length_replicate,List.length_take]
  omega

@[simp] theorem length_serialize : (serialize readerGen postToDescendants name data).length =
    8 + 1 + (name.length + 1) + data.length := by
  simp [serialize]
  omega

theorem commonLength_eq_left : commonLength channel name = channel.length ↔ channel <+: name := by
  induction channel generalizing name with
  | nil => simp [commonLength]
  | cons a as ih =>
    cases name with
    | nil => simp [commonLength]
    | cons b bs =>
      by_cases same : a = b
      · simp [commonLength,same,ih]
      · simp [commonLength,same]

theorem commonLength_comm (channel name : Chars) : commonLength channel name = commonLength name channel := by
  induction channel generalizing name with
  | nil => cases name <;> rfl
  | cons a as ih =>
    cases name with
    | nil => rfl
    | cons b bs => simp only [commonLength,ih bs,eq_comm]

/-- Two topics match when they are equal, or when one of them is a prefix of the other and the
side that has the shorter one asks for the descendants. -/
theorem topicMatches_iff : topicMatches channel handleDescendants name postToDescendants = true ↔
    channel = name ∨ (postToDescendants = true ∧ name <+: channel) ∨
      (handleDescendants = true ∧ channel <+: name) := by
  have right : commonLength channel name = name.length ↔ name <+: channel := by
    rw [commonLength_comm]
    exact commonLength_eq_left
  have both : (channel <+: name ∧ name <+: channel) ↔ channel = name :=
    ⟨fun prefixes => prefixes.1.eq_of_length_le prefixes.2.length_le,fun same => by simp [same]⟩
  simp only [topicMatches,Bool.or_eq_true,Bool.and_eq_true,beq_iff_eq,commonLength_eq_left,right,both,
    or_assoc]

/-- Reading back a serialized message: it is dropped if it is older than the reader, or if the
topics do not match, and otherwise all of its data is delivered. -/
theorem deserializeAndFilter_serialize (noZero : NoZero name) :
    deserializeAndFilter (serialize writerGen postToDescendants name data) readerGen channel
      handleDescendants =
    if readerGen ≤ writerGen ∧ topicMatches channel handleDescendants name postToDescendants = true then
      .accepted data else .rejected := by
  have stamp : ofBytes ((serialize writerGen postToDescendants name data).take 8) = writerGen.toNat := by
    rw [serialize,List.take_left' (length_toBytes 8 _),ofBytes_toBytes writerGen.isLt]
  have tail : (serialize writerGen postToDescendants name data).drop 8 =
      (if postToDescendants then 1 else 0) :: (name ++ 0 :: data) := by
    rw [serialize,List.drop_left' (length_toBytes 8 _),noZero.strncpy,List.append_assoc]
    rfl
  have names : (serialize writerGen postToDescendants name data).drop 9 = name ++ 0 :: data := by
    rw [← List.drop_drop (i := 1),tail]
    rfl
  have shown : (name ++ 0 :: data).takeWhile (· != 0) = name := by
    rw [List.takeWhile_append_of_pos (fun c member => by simpa using noZero c member)]
    simp
  have whole : ¬ (serialize writerGen postToDescendants name data).length <
      (TopicMsgBinarySerializer.sizeOf [] 0).toNat := by
    rw [length_serialize,toNat_sizeOf_empty]
    omega
  have flag : ((if postToDescendants then 1 else 0 : UInt8) != 0) = postToDescendants := by
    cases postToDescendants <;> rfl
  have payload : (name ++ 0 :: data).drop (name.length + 1) = data := by
    rw [← List.drop_drop,List.drop_left]
    rfl
  simp only [deserializeAndFilter,if_neg whole,stamp,tail,names,shown,List.headD_cons,flag,payload,
    List.length_append,List.length_cons,BitVec.le_def]
  by_cases old : writerGen.toNat < readerGen.toNat
  · rw [if_pos old,if_neg (by omega)]
  · rw [if_neg old,if_neg (by omega)]
    by_cases matching : topicMatches channel handleDescendants name postToDescendants = true
    · rw [if_pos matching,if_pos ⟨by omega,matching⟩]
    · rw [if_neg matching,if_neg (by simp [matching])]

end
end Toroni.Tp
