import Toroni.Java.Strings
import Toroni.Tp.InPlace

/-! Messages of string topics in Java, parsed at the start of a buffer that is reused: what lies
behind a message is left there by earlier ones. -/
namespace Toroni.Java.Strings
open LittleEndian TwosComplement Unicode Tp
open Tp.InPlace (Failure)

def sizeOf (channelName : JavaString) (dataLen : BitVec 32) : BitVec 32 :=
  8 + 1 + (BitVec.ofNat 32 channelName.length + 1) + dataLen

def serialize (rbMsg : List UInt8) (readerGen : Long) (postToDescendants : Bool)
    (channelName : JavaString) (msg : List UInt8) : Option (List UInt8) := do
  let rbMsg ← arraycopy (Util.longToByteArray readerGen) rbMsg 0
  let rbMsg ← arraycopy [if postToDescendants then 1 else 0] rbMsg 8
  let channelNameByteArray := getBytes channelName
  let rbMsg ← arraycopy channelNameByteArray rbMsg 9
  let rbMsg ← arraycopy [0] rbMsg (9 + channelNameByteArray.length)
  arraycopy msg rbMsg (9 + channelNameByteArray.length + 1)

/-- `reach` is where the bytes end that a call has read; no code reads that. -/
structure ResultMessagePair where
  result : Bool
  message : Option (List UInt8)
  reach : Nat
  deriving DecidableEq

/-- The message is in the first `length` bytes of `data`. The scan for the end of the name stops at
the end of the array only, and wrapping a negative number of bytes fails like it. -/
def deserializeAndFilter (data : List UInt8) (length : Nat) (readerGen : Long)
    (channelName : JavaString) (handleDescendants : Bool) : Except Failure ResultMessagePair :=
  if data.length < length ∨ length < (sizeOf [] 0).toNat then .error .assertionFailed
  else if (Util.readLongValue data 0).slt readerGen then .ok ⟨false,none,8⟩
  else
    let writerPd := (data.drop 8).headD 0 == 1
    let writerChannel := (data.drop 9).takeWhile (· != 0)
    let msgInd := 9 + writerChannel.length + 1
    if data.length < msgInd then .error .outOfRange
    else if length < msgInd then .error .outOfRange
    else if topicMatches channelName handleDescendants writerChannel writerPd then
      .ok ⟨true,some ((data.drop msgInd).take (length - msgInd)),msgInd⟩
    else .ok ⟨false,none,msgInd⟩

section
variable {topic channel : JavaString} {data message stale : List UInt8} {writerGen readerGen : Long}
  {postToDescendants handleDescendants : Bool}

theorem toNat_sizeOf_empty : (sizeOf [] 0).toNat = 10 := by
  rfl

theorem serialize_eq (rbMsg msg : List UInt8) :
    serialize rbMsg readerGen postToDescendants topic msg =
      serializeBytes rbMsg readerGen postToDescendants (getBytes topic) msg := by
  rfl

theorem deserializeAndFilter_serialized (noZero : NoZero (getBytes topic)) (stale : List UInt8) :
    let message := TopicMsgBinarySerializer.serialize writerGen postToDescendants (getBytes topic) data
    deserializeAndFilter (message ++ stale) message.length readerGen channel handleDescendants =
      if writerGen.slt readerGen then .ok ⟨false,none,8⟩
      else if topicMatches channel handleDescendants (getBytes topic) postToDescendants then
        .ok ⟨true,some data,9 + (getBytes topic).length + 1⟩
      else .ok ⟨false,none,9 + (getBytes topic).length + 1⟩ := by
  intro message
  obtain ⟨stamp,flag,shown,payload⟩ := message_parts writerGen postToDescendants noZero data stale
  have length : message.length = 10 + (getBytes topic).length + data.length := by
    rw [length_serialize]
    omega
  have inside : ¬ ((message ++ stale).length < message.length ∨ message.length < (sizeOf [] 0).toNat) := by
    rw [List.length_append,length,toNat_sizeOf_empty]
    omega
  have array : ¬ (message ++ stale).length < 9 + (getBytes topic).length + 1 := by
    rw [List.length_append,length]
    omega
  have whole : ¬ message.length < 9 + (getBytes topic).length + 1 := by
    omega
  simp only [deserializeAndFilter,if_neg inside,stamp,shown,flag,if_neg array,if_neg whole,payload,message]

/-- The size of a message is what is stored, storing it in an array of that size succeeds, and wherever
it is copied to a reader of the same topic accepts it with its payload. -/
def RoundTrip (topic : JavaString) (data : List UInt8) (writerGen readerGen : Long)
    (postToDescendants handleDescendants : Bool) : Prop :=
  let size := (sizeOf topic (BitVec.ofNat 32 data.length)).toNat
  size = 8 + 1 + ((getBytes topic).length + 1) + data.length ∧
    ∀ rbMsg, rbMsg.length = size →
      ∃ message, serialize rbMsg writerGen postToDescendants topic data = some message ∧
        ∀ stale, ∃ reach, deserializeAndFilter (message ++ stale) message.length readerGen topic
          handleDescendants = .ok ⟨true,some data,reach⟩

theorem toNat_sizeOf (small : 10 + topic.length + data.length < 2^32) :
    (sizeOf topic (BitVec.ofNat 32 data.length)).toNat = 10 + topic.length + data.length := by
  have sum : sizeOf topic (BitVec.ofNat 32 data.length) = BitVec.ofNat 32 (10 + topic.length + data.length) := by
    rw [sizeOf,BitVec.ofNat_add,BitVec.ofNat_add,show BitVec.ofNat 32 10 = 8 + 1 + 1 from rfl]
    ac_rfl
  rw [sum,BitVec.toNat_ofNat,Nat.mod_eq_of_lt small]

/-- Messages make the round trip exactly if their topics are in ASCII. -/
theorem roundTrip_iff (noZero : ∀ u ∈ topic, u ≠ 0) (young : writerGen.slt readerGen = false)
    (small : 10 + (getBytes topic).length + data.length < 2^31) :
    RoundTrip topic data writerGen readerGen postToDescendants handleDescendants ↔
      ∀ u ∈ topic, u.toNat < 128 := by
  have noZeroBytes := noZero_getBytes noZero
  have longer := length_le topic
  rw [RoundTrip,toNat_sizeOf (by omega)]
  constructor
  · rintro ⟨exact_,stored⟩
    obtain ⟨message,built,accepted⟩ := stored (List.replicate _ 0) List.length_replicate
    rw [serialize_eq,serializeBytes_eq noZeroBytes (by rw [List.length_replicate]; omega)] at built
    obtain ⟨reach,result⟩ := accepted []
    rw [← Option.some.inj built,deserializeAndFilter_serialized noZeroBytes,young] at result
    have matching : topicMatches topic handleDescendants (getBytes topic) postToDescendants = true := by
      by_contra other
      simp [other] at result
    -- both have the same length, so either being a beginning of the other is being equal
    have lengths : topic.length = ((getBytes topic).map widen).length := by
      rw [List.length_map]
      omega
    apply eq_map_widen_iff.mp
    rcases topicMatches_iff.mp matching with same | ⟨_,shorter⟩ | ⟨_,shorter⟩
    · exact same
    · exact (shorter.eq_of_length lengths.symm).symm
    · exact shorter.eq_of_length lengths
  · intro ascii
    have same := eq_map_widen_iff.mpr ascii
    have lengths : topic.length = (getBytes topic).length := by
      rw [← List.length_map widen,← same]
    refine ⟨by omega,fun rbMsg sized => ?_⟩
    refine ⟨_,serializeBytes_eq noZeroBytes (by omega),fun stale => ?_⟩
    have matching : topicMatches topic handleDescendants (getBytes topic) postToDescendants = true :=
      topicMatches_iff.mpr (Or.inl same)
    refine ⟨9 + (getBytes topic).length + 1,?_⟩
    rw [deserializeAndFilter_serialized noZeroBytes,young,matching]
    rfl

end

/-- A topic of one character in ASCII, and a payload with a zero in it. -/
theorem roundTrip_ascii : RoundTrip [97] [0,7] 3 2 false false ↔ ∀ u ∈ ([97] : JavaString), u.toNat < 128 := by
  exact roundTrip_iff (by simp) (by decide) (by decide)

/-- The topic `é` is one unit and two bytes. -/
theorem not_roundTrip : ¬ RoundTrip [0xE9] [7] 1 1 false false := by
  intro trip
  exact absurd trip.1 (by decide)

section
variable {channel : JavaString} {message stale : List UInt8} {readerGen : Long} {handleDescendants : Bool}

def Safe (message stale : List UInt8) (readerGen : Long) (channel : JavaString)
    (handleDescendants : Bool) : Prop :=
  ∃ parsed, deserializeAndFilter (message ++ stale) message.length readerGen channel handleDescendants =
      .ok parsed ∧ parsed.reach ≤ message.length ∧
    ∀ payload, parsed.message = some payload →
      payload <:+ message ∧ payload.length ≤ message.length - 10

theorem safe_iff (enough : 10 ≤ message.length) : Safe message stale readerGen channel handleDescendants ↔
    (Util.readLongValue message 0).slt readerGen = true ∨ 0 ∈ message.drop 9 := by
  have least : ¬ ((message ++ stale).length < message.length ∨ message.length < (sizeOf [] 0).toNat) := by
    rw [List.length_append,toNat_sizeOf_empty]
    omega
  have stamp : Util.readLongValue (message ++ stale) 0 = Util.readLongValue message 0 := by
    rw [readLongValue_eq,readLongValue_eq,List.take_append_of_le_length (by omega)]
  rw [Safe,← InPlace.length_takeWhile_lt,List.length_drop]
  simp only [deserializeAndFilter,if_neg least,stamp]
  cases older : (Util.readLongValue message 0).slt readerGen with
  | true =>
    rw [if_pos rfl]
    exact iff_of_true ⟨_,rfl,show 8 ≤ message.length by omega,nofun⟩ (Or.inl rfl)
  | false =>
    rw [if_neg nofun]
    by_cases ends : 9 + ((message.drop 9).takeWhile (· != 0)).length < message.length
    · have rest : (message ++ stale).drop (9 + ((message.drop 9).takeWhile (· != 0)).length + 1) =
          message.drop (9 + ((message.drop 9).takeWhile (· != 0)).length + 1) ++ stale :=
        List.drop_append_of_le_length (by omega)
      refine iff_of_true ?_ (Or.inr (by omega))
      rw [InPlace.name_inside stale ends,if_neg (by rw [List.length_append]; omega),if_neg (by omega),rest,
        List.take_left' (by rw [List.length_drop])]
      split
      · refine ⟨_,rfl,ends,fun payload same => ?_⟩
        rw [← Option.some.inj same,List.length_drop]
        exact ⟨List.drop_suffix _ _,by omega⟩
      · exact ⟨_,rfl,ends,nofun⟩
    · have past := InPlace.name_outside stale (show 9 ≤ message.length by omega) (Nat.le_of_not_lt ends)
      refine iff_of_false ?_ (not_or_intro nofun (by omega))
      rintro ⟨parsed,call,_⟩
      split at call
      · contradiction
      · rw [if_pos (by omega)] at call
        contradiction

/-- Parsing is safe in both languages exactly if the message is older than the reader, or if a zero
ends its name. -/
theorem parse_safe_iff {cppChannel : Chars} {cppReaderGen : ReaderGen} (enough : 10 ≤ message.length)
    (small : message.length < 2^32) :
    (InPlace.Safe message stale cppReaderGen cppChannel handleDescendants ↔
        LittleEndian.ofBytes (message.take 8) < cppReaderGen.toNat ∨ 0 ∈ message.drop 9) ∧
      (Safe message stale readerGen channel handleDescendants ↔
        (Util.readLongValue message 0).slt readerGen = true ∨ 0 ∈ message.drop 9) := by
  constructor
  · exact InPlace.safe_iff enough small
  · exact safe_iff enough

end

theorem parse_safe_zeros :
    (InPlace.Safe (List.replicate 10 0) [7] 0 [] true ↔
        LittleEndian.ofBytes ((List.replicate 10 0).take 8) < (0 : ReaderGen).toNat ∨
          0 ∈ (List.replicate 10 (0 : UInt8)).drop 9) ∧
      (Safe (List.replicate 10 0) [7] 0 [] true ↔
        (Util.readLongValue (List.replicate 10 0) 0).slt 0 = true ∨ 0 ∈ (List.replicate 10 (0 : UInt8)).drop 9) := by
  exact parse_safe_iff (by decide) (by decide)

/-- Nothing ends the name in these ten bytes. Before a zero byte they are accepted with almost 2^32 bytes
of payload, at the end of an array the scan fails. -/
theorem not_safe :
    ¬ InPlace.Safe [0,0,0,0,0,0,0,0,0,97] [0] 0 [97] false ∧
      InPlace.deserializeAndFilter [0,0,0,0,0,0,0,0,0,97,0] 10 0 [97] false =
        .ok {result := true,data := 11,dataSize := BitVec.ofNat 32 (2^32 - 1),reach := 11} ∧
      ¬ Safe [0,0,0,0,0,0,0,0,0,97] [] 0 [97] false := by
  have accepted : InPlace.deserializeAndFilter [0,0,0,0,0,0,0,0,0,97,0] 10 0 [97] false =
      .ok {result := true,data := 11,dataSize := BitVec.ofNat 32 (2^32 - 1),reach := 11} := by
    decide
  have failed : deserializeAndFilter [0,0,0,0,0,0,0,0,0,97] 10 0 [97] false = .error .outOfRange := by
    decide
  refine ⟨?_,accepted,?_⟩
  · rintro ⟨parsed,call,reach,_⟩
    obtain rfl := Except.ok.inj (accepted.symm.trans call)
    exact absurd reach (by decide)
  · rintro ⟨parsed,call,_⟩
    exact nomatch failed.symm.trans call
end Toroni.Java.Strings
