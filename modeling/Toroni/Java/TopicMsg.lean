import Toroni.Java.Rmp
import Toroni.Library.Unicode
import Toroni.Tp.TopicMsgBinary

/-! The Java implementation of the topic messages, and where it agrees with the other one on what
is sent. A topic is text here: its `length` and `charAt` count units of 16 bits, and `getBytes`
encodes it in UTF-8. -/
namespace Toroni.Java
open LittleEndian Unicode TwosComplement Tp

namespace Util

def longToByteArray (x : Long) : List UInt8 :=
  (List.range 8).map (fun k => UInt8.ofBitVec ((x.sshiftRight (8 * k) &&& 0xff).setWidth 8))

def readLongValue (data : List UInt8) (start : Nat) : Long :=
  ((data.drop start).take 8).foldr (fun b value => (value <<< 8) + BitVec.ofNat 64 b.toNat) 0

end Util

/-- `System.arraycopy` of a whole array, `none` where it would end behind the other one. -/
def arraycopy (src dest : List UInt8) (destPos : Nat) : Option (List UInt8) :=
  if destPos + src.length ≤ dest.length then
    some (dest.take destPos ++ (src ++ dest.drop (destPos + src.length)))
  else none

namespace TopicMsgSerializer

def sizeOf (channelName : List Char) (dataLen : BitVec 32) : BitVec 32 :=
  8 + 1 + (BitVec.ofNat 32 (utf16 channelName).length + 1) + dataLen

def serialize (rbMsg : List UInt8) (readerGen : Long) (postToDescendants : Bool)
    (channelName : List Char) (msg : List UInt8) : Option (List UInt8) := do
  let rbMsg ← arraycopy (Util.longToByteArray readerGen) rbMsg 0
  let rbMsg ← arraycopy [if postToDescendants then 1 else 0] rbMsg 8
  let channelNameByteArray := utf8 channelName
  let rbMsg ← arraycopy channelNameByteArray rbMsg 9
  let rbMsg ← arraycopy [0] rbMsg (9 + channelNameByteArray.length)
  arraycopy msg rbMsg (9 + channelNameByteArray.length + 1)

/-- How `createMessage` builds a message: in a new array of `sizeOf` bytes, which cannot be had if
that is negative. -/
def createMessage (readerGen : Long) (postToDescendants : Bool) (channelName : List Char)
    (msg : List UInt8) : Option (List UInt8) :=
  let topicMsgLen := sizeOf channelName (BitVec.ofNat 32 msg.length)
  if topicMsgLen.slt 0 then none
  else serialize (List.replicate topicMsgLen.toNat 0) readerGen postToDescendants channelName msg

end TopicMsgSerializer

namespace TopicMsgDeserializer
open TopicMsgBinaryDeserializer

/-- Where the comparison of characters with bytes stops, each byte widened to a character with its
sign. -/
def commonLength : List (BitVec 16) → List UInt8 → Nat
  | a :: as, b :: bs => if a = b.toBitVec.signExtend 16 then commonLength as bs + 1 else 0
  | _, _ => 0

def topicMatches (readerChannel : List Char) (handleDescendants : Bool) (writerChannel : List UInt8)
    (postToDescendants : Bool) : Bool :=
  let clen := commonLength (utf16 readerChannel) writerChannel
  (clen == (utf16 readerChannel).length && clen == writerChannel.length) ||
    (postToDescendants && clen == writerChannel.length) ||
    (handleDescendants && clen == (utf16 readerChannel).length)

def deserializeAndFilter (data : List UInt8) (length : Nat) (readerGen : Long)
    (channelName : List Char) (handleDescendants : Bool) : Filtered :=
  if data.length < length ∨ length < (TopicMsgSerializer.sizeOf [] 0).toNat then .assertionFailed
  else if (Util.readLongValue data 0).slt readerGen then .rejected
  else
    let writerPd := (data.drop 8).headD 0 == 1
    let writerChannel := (data.drop 9).takeWhile (· != 0)
    let msgInd := 9 + writerChannel.length + 1
    if data.length < msgInd ∨ length < msgInd then .outOfRange
    else if topicMatches channelName handleDescendants writerChannel writerPd then
      .accepted ((data.drop msgInd).take (length - msgInd))
    else .rejected

end TopicMsgDeserializer

/-- `id` stands for the object and its handler. -/
structure ChannelReader where
  id : Nat
  name : List Char
  handleDescendants : Bool
  readerGen : Long
  deriving DecidableEq

def ChannelReader.filter (c : ChannelReader) (data : List UInt8) : TopicMsgBinaryDeserializer.Filtered :=
  TopicMsgDeserializer.deserializeAndFilter data data.length c.readerGen c.name c.handleDescendants

open TopicMsgSerializer TopicMsgDeserializer

section
variable {readerGen writerGen : ReaderGen} {postToDescendants handleDescendants : Bool}
  {topic channel : List Char} {data done rest : List UInt8}

theorem byte_eq (x : Long) {k : Nat} (few : k < 8) :
    UInt8.ofBitVec ((x.sshiftRight (8 * k) &&& 0xff).setWidth 8) = UInt8.ofNat (x.toNat / 256^k % 256) := by
  have bits : (x.sshiftRight (8 * k) &&& 0xff).setWidth 8 = (x >>> (8 * k)).setWidth 8 := by
    apply BitVec.eq_of_getLsbD_eq
    intro i bound
    have inside : 8 * k + i < 64 := by omega
    have mask : BitVec.getLsbD (0xff : BitVec 64) i = true := by
      clear inside
      revert i
      decide
    simp only [BitVec.getLsbD_setWidth,BitVec.getLsbD_and,mask,BitVec.getLsbD_sshiftRight,bound,
      BitVec.getLsbD_ushiftRight]
    simp [inside]
    omega
  rw [bits]
  apply UInt8.toNat_inj.mp
  rw [UInt8.toNat_ofBitVec,BitVec.toNat_setWidth,BitVec.toNat_ushiftRight,UInt8.toNat_ofNat',
    Nat.shiftRight_eq_div_pow,Nat.pow_mul]
  simp

theorem longToByteArray_eq (x : Long) : Util.longToByteArray x = toBytes 8 x.toNat := by
  rw [Util.longToByteArray,toBytes_eq_map]
  exact List.map_congr_left (fun k inside => byte_eq x (List.mem_range.mp inside))

theorem readLongValue_eq (data : List UInt8) :
    Util.readLongValue data 0 = BitVec.ofNat 64 (ofBytes (data.take 8)) := by
  rw [Util.readLongValue,List.drop_zero]
  generalize data.take 8 = bytes
  induction bytes with
  | nil => rfl
  | cons b bytes ih =>
    rw [List.foldr_cons,ih,ofBytes,BitVec.shiftLeft_eq_mul_twoPow,BitVec.add_comm,BitVec.ofNat_add,
      BitVec.mul_comm,BitVec.ofNat_mul]
    rfl

theorem arraycopy_behind {src : List UInt8} (fits : src.length ≤ rest.length) {destPos : Nat}
    (behind : destPos = done.length) :
    arraycopy src (done ++ rest) destPos = some ((done ++ src) ++ rest.drop src.length) := by
  subst behind
  simp [arraycopy,fits]

theorem arraycopy_bounds {src dest out : List UInt8} {destPos : Nat}
    (copied : arraycopy src dest destPos = some out) :
    destPos + src.length ≤ dest.length ∧ out.length = dest.length := by
  obtain ⟨fits,built⟩ := Option.ite_none_right_eq_some.mp copied
  obtain rfl := Option.some.inj built
  refine ⟨fits,?_⟩
  simp
  omega

def serializeBytes (rbMsg : List UInt8) (readerGen : Long) (postToDescendants : Bool)
    (channelNameByteArray msg : List UInt8) : Option (List UInt8) := do
  let rbMsg ← arraycopy (Util.longToByteArray readerGen) rbMsg 0
  let rbMsg ← arraycopy [if postToDescendants then 1 else 0] rbMsg 8
  let rbMsg ← arraycopy channelNameByteArray rbMsg 9
  let rbMsg ← arraycopy [0] rbMsg (9 + channelNameByteArray.length)
  arraycopy msg rbMsg (9 + channelNameByteArray.length + 1)

theorem serializeBytes_bounds {rbMsg out name : List UInt8}
    (built : serializeBytes rbMsg writerGen postToDescendants name data = some out) :
    9 + name.length + 1 + data.length ≤ rbMsg.length := by
  obtain ⟨first,gen,built⟩ := Option.bind_eq_some_iff.mp built
  obtain ⟨second,flag,built⟩ := Option.bind_eq_some_iff.mp built
  obtain ⟨third,name,built⟩ := Option.bind_eq_some_iff.mp built
  obtain ⟨fourth,zero,built⟩ := Option.bind_eq_some_iff.mp built
  have := arraycopy_bounds gen
  have := arraycopy_bounds flag
  have := arraycopy_bounds name
  have := arraycopy_bounds zero
  have := arraycopy_bounds built
  omega

theorem serializeBytes_eq {rbMsg name : List UInt8} (noZero : NoZero name)
    (fits : rbMsg.length = 9 + name.length + 1 + data.length) :
    serializeBytes rbMsg writerGen postToDescendants name data =
      some (TopicMsgBinarySerializer.serialize writerGen postToDescendants name data) := by
  have gen : (Util.longToByteArray writerGen).length = 8 := by
    rw [longToByteArray_eq,length_toBytes]
  have first : arraycopy (Util.longToByteArray writerGen) ([] ++ rbMsg) 0 =
      some ([] ++ Util.longToByteArray writerGen ++ rbMsg.drop (Util.longToByteArray writerGen).length) :=
    arraycopy_behind (by omega) rfl
  rw [List.nil_append,List.nil_append] at first
  rw [serializeBytes]
  simp only [first,Option.bind_eq_bind,Option.bind_some]
  rw [arraycopy_behind (by simp; omega) (by omega),Option.bind_some,
    arraycopy_behind (by simp; omega) (by simp; omega),Option.bind_some,
    arraycopy_behind (by simp; omega) (by simp; omega),Option.bind_some,
    arraycopy_behind (by simp; omega) (by simp; omega),List.drop_eq_nil_of_le (by simp; omega),
    TopicMsgBinarySerializer.serialize,noZero.strncpy,longToByteArray_eq]
  simp

theorem serialize_bounds {rbMsg out : List UInt8}
    (built : TopicMsgSerializer.serialize rbMsg writerGen postToDescendants topic data = some out) :
    9 + (utf8 topic).length + 1 + data.length ≤ rbMsg.length := by
  exact serializeBytes_bounds built

theorem serialize_eq {rbMsg : List UInt8} (noZero : NoZero (utf8 topic))
    (fits : rbMsg.length = 9 + (utf8 topic).length + 1 + data.length) :
    TopicMsgSerializer.serialize rbMsg writerGen postToDescendants topic data =
      some (TopicMsgBinarySerializer.serialize writerGen postToDescendants (utf8 topic) data) := by
  exact serializeBytes_eq noZero fits

theorem sizeOf_eq (topic : List Char) (dataLen : Nat) :
    TopicMsgSerializer.sizeOf topic (BitVec.ofNat 32 dataLen) =
      BitVec.ofNat 32 (10 + (utf16 topic).length + dataLen) := by
  rw [TopicMsgSerializer.sizeOf,BitVec.ofNat_add,BitVec.ofNat_add,show BitVec.ofNat 32 10 = 8 + 1 + 1 from rfl]
  ac_rfl

/-- The array is large enough exactly for ASCII topics, as the size counts characters. -/
theorem createMessage_iff (noZero : NoZero (utf8 topic)) :
    createMessage writerGen postToDescendants topic data =
        some (TopicMsgBinarySerializer.serialize writerGen postToDescendants (utf8 topic) data) ↔
      IsAscii topic ∧ 10 + topic.length + data.length < 2^31 := by
  have longer := length_utf16_le topic
  rw [createMessage,sizeOf_eq]
  generalize size : BitVec.ofNat 32 (10 + (utf16 topic).length + data.length) = topicMsgLen
  have value : topicMsgLen.toNat = (10 + (utf16 topic).length + data.length) % 2^32 := by
    rw [← size,BitVec.toNat_ofNat]
  have negative : topicMsgLen.slt 0 = true ↔ 2^31 ≤ topicMsgLen.toNat := by
    rw [BitVec.slt,decide_eq_true_eq,BitVec.toInt_eq_toNat_cond]
    simp
    omega
  constructor
  · intro built
    by_cases below : topicMsgLen.slt 0 = true
    · rw [if_pos below] at built
      contradiction
    · rw [if_neg below] at built
      have fits := serialize_bounds built
      rw [negative] at below
      rw [List.length_replicate] at fits
      have ascii := length_utf8_le_iff.mp (show (utf8 topic).length ≤ (utf16 topic).length by omega)
      have := length_utf8_ascii ascii
      exact ⟨ascii,by omega⟩
  · rintro ⟨ascii,small⟩
    have := length_utf8_ascii ascii
    have := length_utf8_le_iff.mpr ascii
    rw [if_neg (by rw [negative]; omega)]
    exact serialize_eq noZero (by rw [List.length_replicate]; omega)

theorem toNat_char {b : UInt8} (low : b.toNat < 128) : (b.toBitVec.signExtend 16).toNat = b.toNat := by
  exact toNat_signExtend (show NotNegative b.toBitVec by unfold NotNegative; simp; omega) (by decide)

theorem commonLength_high {name : Chars} (ascii : ∀ b ∈ name, b.toNat < 128) {c : Char}
    (other : 128 ≤ c.toNat) (channel : List Char) :
    commonLength (utf16 (c :: channel)) name = 0 ∧
      TopicMsgBinaryDeserializer.commonLength (utf8 (c :: channel)) name = 0 := by
  obtain ⟨some,fewer⟩ := length_utf16EncodeChar_lt other
  obtain ⟨u,us,units⟩ := List.exists_cons_of_length_pos some
  obtain ⟨d,ds,bytes⟩ := List.exists_cons_of_length_pos (some.trans fewer)
  have unit := utf16EncodeChar_high other u (by simp [units])
  have byte := utf8EncodeChar_high other d (by simp [bytes])
  rw [utf8_cons,utf16_cons,units,bytes,List.cons_append,List.cons_append]
  cases name with
  | nil => exact ⟨rfl,rfl⟩
  | cons b name =>
    have low := ascii b List.mem_cons_self
    constructor
    · refine if_neg (fun same => ?_)
      have := toNat_char low
      rw [← same] at this
      omega
    · refine if_neg (fun same => ?_)
      rw [same] at byte
      omega

theorem commonLength_ascii {name : Chars} (ascii : ∀ b ∈ name, b.toNat < 128) (channel : List Char) :
    commonLength (utf16 channel) name = TopicMsgBinaryDeserializer.commonLength (utf8 channel) name ∧
      (commonLength (utf16 channel) name = (utf16 channel).length ↔
        TopicMsgBinaryDeserializer.commonLength (utf8 channel) name = (utf8 channel).length) := by
  induction channel generalizing name with
  | nil => simp [commonLength,TopicMsgBinaryDeserializer.commonLength]
  | cons c channel ih =>
    by_cases other : 128 ≤ c.toNat
    · obtain ⟨left,right⟩ := commonLength_high ascii other channel
      have := length_utf16EncodeChar_lt other
      rw [left,right,utf8_cons,utf16_cons,List.length_append,List.length_append]
      exact ⟨rfl,by omega⟩
    · rw [utf8_cons,utf16_cons,utf8EncodeChar_ascii (by omega),utf16EncodeChar_ascii (by omega)]
      cases name with
      | nil => simp [commonLength,TopicMsgBinaryDeserializer.commonLength]
      | cons b name =>
        obtain ⟨low,rest⟩ := List.forall_mem_cons.mp ascii
        obtain ⟨same,whole⟩ := ih rest
        have unit : BitVec.ofNat 16 c.toNat = b.toBitVec.signExtend 16 ↔ UInt8.ofNat c.toNat = b := by
          rw [← BitVec.toNat_inj,← UInt8.toNat_inj,toNat_char low,BitVec.toNat_ofNat,UInt8.toNat_ofNat']
          omega
        simp only [List.singleton_append,commonLength,TopicMsgBinaryDeserializer.commonLength,unit,List.length_cons]
        split
        · simpa [same] using whole
        · simp

theorem topicMatches_ascii (ascii : IsAscii topic) :
    topicMatches channel handleDescendants (utf8 topic) postToDescendants =
      TopicMsgBinaryDeserializer.topicMatches (utf8 channel) handleDescendants (utf8 topic) postToDescendants := by
  obtain ⟨same,whole⟩ := commonLength_ascii (utf8_low ascii) channel
  simp only [topicMatches,TopicMsgBinaryDeserializer.topicMatches]
  rw [same] at whole ⊢
  have left : (TopicMsgBinaryDeserializer.commonLength (utf8 channel) (utf8 topic) == (utf16 channel).length) =
      (TopicMsgBinaryDeserializer.commonLength (utf8 channel) (utf8 topic) == (utf8 channel).length) := by
    rw [Bool.eq_iff_iff,beq_iff_eq,beq_iff_eq]
    exact whole
  rw [left]

theorem message_parts (writerGen : ReaderGen) (postToDescendants : Bool) {name : List UInt8}
    (noZero : NoZero name) (data stale : List UInt8) :
    let message := TopicMsgBinarySerializer.serialize writerGen postToDescendants name data
    Util.readLongValue (message ++ stale) 0 = writerGen ∧
      ((((message ++ stale).drop 8).headD 0 == 1) = postToDescendants) ∧
      ((message ++ stale).drop 9).takeWhile (· != 0) = name ∧
      ((message ++ stale).drop (9 + name.length + 1)).take (message.length - (9 + name.length + 1)) = data := by
  intro message
  have shape : message ++ stale = toBytes 8 writerGen.toNat ++
      ((if postToDescendants then 1 else 0) :: (name ++ 0 :: (data ++ stale))) := by
    simp [message,TopicMsgBinarySerializer.serialize,noZero.strncpy]
  have tail : (message ++ stale).drop 8 =
      (if postToDescendants then 1 else 0) :: (name ++ 0 :: (data ++ stale)) := by
    rw [shape,List.drop_left' (length_toBytes 8 _)]
  have names : (message ++ stale).drop 9 = name ++ 0 :: (data ++ stale) := by
    rw [← List.drop_drop (i := 1),tail]
    rfl
  refine ⟨?_,?_,?_,?_⟩
  · rw [readLongValue_eq,shape,List.take_left' (length_toBytes 8 _),ofBytes_toBytes writerGen.isLt]
    simp
  · rw [tail,List.headD_cons]
    cases postToDescendants <;> rfl
  · rw [names,List.takeWhile_append_of_pos (fun c member => by simpa using noZero c member)]
    simp
  · rw [Nat.add_assoc,← List.drop_drop,names,← List.drop_drop,List.drop_left,length_serialize,
      show 8 + 1 + (name.length + 1) + data.length - (9 + (name.length + 1)) = data.length by omega]
    exact List.take_left

/-- Whichever implementation has made the message, and whatever bytes its name has. -/
theorem parse_serialized {name : List UInt8} (noZero : NoZero name) (writerGen : Long)
    (postToDescendants : Bool) (msg stale : List UInt8) :
    let message := TopicMsgBinarySerializer.serialize writerGen postToDescendants name msg
    deserializeAndFilter (message ++ stale) message.length readerGen channel handleDescendants =
      if writerGen.slt readerGen then .rejected
      else if topicMatches channel handleDescendants name postToDescendants then .accepted msg
      else .rejected := by
  intro message
  obtain ⟨stamp,flag,shown,payload⟩ := message_parts writerGen postToDescendants noZero msg stale
  have length : message.length = 10 + name.length + msg.length := by
    rw [length_serialize]
    omega
  have inside : ¬ ((message ++ stale).length < message.length ∨
      message.length < (TopicMsgSerializer.sizeOf [] 0).toNat) := by
    rw [List.length_append,length,show (TopicMsgSerializer.sizeOf [] 0).toNat = 10 from rfl]
    omega
  have whole : ¬ ((message ++ stale).length < 9 + name.length + 1 ∨ message.length < 9 + name.length + 1) := by
    rw [List.length_append,length]
    omega
  simp only [deserializeAndFilter,if_neg inside,stamp,shown,flag,if_neg whole,payload,message]

theorem deserializeAndFilter_eq (noZero : NoZero (utf8 topic)) (writerSmall : NotNegative writerGen)
    (readerSmall : NotNegative readerGen) (stale : List UInt8) :
    let message := TopicMsgBinarySerializer.serialize writerGen postToDescendants (utf8 topic) data
    deserializeAndFilter (message ++ stale) message.length readerGen channel handleDescendants =
      if readerGen ≤ writerGen ∧ topicMatches channel handleDescendants (utf8 topic) postToDescendants = true then
        .accepted data else .rejected := by
  intro message
  rw [parse_serialized noZero]
  simp only [slt_iff writerSmall readerSmall,BitVec.lt_def,BitVec.le_def]
  by_cases old : writerGen.toNat < readerGen.toNat
  · rw [if_pos old,if_neg (by omega)]
  · rw [if_neg old]
    by_cases matching : topicMatches channel handleDescendants (utf8 topic) postToDescendants = true
    · rw [if_pos matching,if_pos ⟨by omega,matching⟩]
    · rw [if_neg matching,if_neg (fun both => matching both.2)]

def Agree (writerGen : ReaderGen) (postToDescendants : Bool) (topic : List Char) (data : List UInt8)
    (readerGen : ReaderGen) (channel : List Char) (handleDescendants : Bool) : Prop :=
  let message := TopicMsgBinarySerializer.serialize writerGen postToDescendants (utf8 topic) data
  createMessage writerGen postToDescendants topic data = some message ∧
    ∀ stale, deserializeAndFilter (message ++ stale) message.length readerGen channel handleDescendants =
      TopicMsgBinaryDeserializer.deserializeAndFilter message readerGen (utf8 channel) handleDescendants

/-- Both implementations agree on what is sent and received exactly for topics in ASCII, in a message
that an array can hold. -/
theorem wire_agrees_iff (noZero : ∀ c ∈ topic, c.toNat ≠ 0) (writerSmall : writerGen.toNat < 2^63)
    (readerSmall : readerGen.toNat < 2^63) :
    Agree writerGen postToDescendants topic data readerGen channel handleDescendants ↔
      IsAscii topic ∧ 10 + topic.length + data.length < 2^31 := by
  have noZero : NoZero (utf8 topic) := utf8_ne_zero noZero
  rw [Agree,createMessage_iff noZero,and_iff_left_iff_imp]
  rintro ⟨ascii,_⟩ stale
  rw [deserializeAndFilter_eq noZero (show NotNegative _ by unfold NotNegative; omega) (show NotNegative _ by unfold NotNegative; omega),
    deserializeAndFilter_serialize noZero,topicMatches_ascii ascii]

end

/-- A topic in ASCII, and a reader of an ancestor that handles descendants. -/
theorem wire_agrees_ascii : Agree 3 false ['a','/','b'] [1,2] 2 ['a'] true := by
  exact (wire_agrees_iff (by simp) (by decide) (by decide)).mpr ⟨by decide,by decide⟩

/-- No message can be built for a topic of one character and two bytes, and one that the other
implementation builds is not accepted by a reader of the same topic. -/
theorem wire_differs :
    ¬ Agree 1 false ['é'] [7] 1 ['é'] false ∧
      createMessage 1 false ['é'] [7] = none ∧
      TopicMsgBinaryDeserializer.deserializeAndFilter
        (TopicMsgBinarySerializer.serialize 1 false (utf8 ['é']) [7]) 1 (utf8 ['é']) false = .accepted [7] ∧
      deserializeAndFilter (TopicMsgBinarySerializer.serialize 1 false (utf8 ['é']) [7]) 13 1 ['é'] false =
        .rejected := by
  have unbuilt : createMessage 1 false ['é'] [7] = none := by decide
  refine ⟨fun agree => ?_,unbuilt,by decide,by decide⟩
  rw [Agree,unbuilt] at agree
  exact absurd agree.1 nofun

end Toroni.Java
