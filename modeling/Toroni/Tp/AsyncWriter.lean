import Toroni.Rmp.Writer
import Toroni.Tp.TopicMsgBinary
import Toroni.Traits.MPSCMessageQueue

/-! The asynchronous writer of topic messages: what it accepts, and how a message gets into its
queue. -/
namespace Toroni.Tp
open Rmp Traits

abbrev TopicMsgBinary := List UInt8

namespace AsyncWriter
open TopicMsgBinarySerializer

/-- What becomes of a call of `CreateMessage`. It `overruns` when `Serialize` stores behind the
end of the vector that was allocated for the message. -/
inductive Created
  | created (rbMsg : TopicMsgBinary)
  | threw (err : String)
  | assertionFailed
  | overruns
  deriving DecidableEq

def createMessage (rb : ByteRingBuffer) (readerGen : ReaderGen) (channelName : Chars)
    (msg : List UInt8) (postToDescendants : Bool) : Created :=
  if msg.length = 0 then .assertionFailed
  else
    let name := channelName.takeWhile (· != 0)
    let dataLen := BitVec.ofNat 32 msg.length
    let topicMsgLen := TopicMsgBinarySerializer.sizeOf name dataLen
    if Writer.getMaxMessageSize rb < topicMsgLen.setWidth 64 then
      .threw "Message size exceeds ringbuffer size"
    else
      let rbMsg := serialize readerGen postToDescendants name (msg.take dataLen.toNat)
      if rbMsg.length = topicMsgLen.toNat then .created rbMsg else .overruns

/-- Whether a drainer has to be started, and the queue; `none` when the assertion fails. What is
queued is a pointer to the message with these `contents`. -/
def post {α : Type} (rb : ByteRingBuffer) (contents : α → TopicMsgBinary)
    (queue : MPSCMessageQueue α) (rbMsg : α) : Option (Bool × MPSCMessageQueue α) :=
  if BitVec.ofNat 64 (contents rbMsg).length < Writer.getMaxMessageSize rb then
    some (queue.enqueue rbMsg)
  else none

open TopicMsgBinaryDeserializer

/-- The call throws, or its message has the size of all its parts and any reader that matches gets
the whole payload out of it. -/
def SizeSafe (rb : ByteRingBuffer) (readerGen : ReaderGen) (channelName : Chars) (msg : List UInt8)
    (postToDescendants : Bool) : Prop :=
  let name := channelName.takeWhile (· != 0)
  (∃ err, createMessage rb readerGen channelName msg postToDescendants = .threw err) ∨
    ∃ rbMsg, createMessage rb readerGen channelName msg postToDescendants = .created rbMsg ∧
      rbMsg.length = 8 + 1 + (name.length + 1) + msg.length ∧
      ∀ gen ≤ readerGen, ∀ channel handleDescendants,
        topicMatches channel handleDescendants name postToDescendants = true →
          deserializeAndFilter rbMsg gen channel handleDescendants = .accepted msg

section
variable {rb : ByteRingBuffer} {readerGen : ReaderGen} {channelName rbMsg : Chars} {msg : List UInt8}
  {postToDescendants : Bool} {err : String}

theorem toNat_topicMsgLen (name : Chars) (length : Nat) :
    (TopicMsgBinarySerializer.sizeOf name (BitVec.ofNat 32 length)).toNat = (10 + name.length + length) % 2^32 := by
  rw [TopicMsgBinarySerializer.sizeOf,BitVec.toNat_ofNat,BitVec.toNat_ofNat]
  omega

theorem length_created
    (created : createMessage rb readerGen channelName msg postToDescendants = .created rbMsg) :
    rbMsg.length = (10 + (channelName.takeWhile (· != 0)).length + msg.length) % 2^32 := by
  simp only [createMessage] at created
  split at created
  · contradiction
  split at created
  · contradiction
  split at created
  case isTrue fits =>
    rw [← Created.created.inj created,fits,toNat_topicMsgLen]
  case isFalse => contradiction

theorem exceeds_iff (name : Chars) (length : Nat) :
    Writer.getMaxMessageSize rb < (TopicMsgBinarySerializer.sizeOf name (BitVec.ofNat 32 length)).setWidth 64 ↔
      (Writer.getMaxMessageSize rb).toNat < (10 + name.length + length) % 2^32 := by
  rw [BitVec.lt_def,BitVec.toNat_setWidth,toNat_topicMsgLen,Nat.mod_eq_of_lt (b := 2^64) (by omega)]

theorem exceeds_of_threw
    (threw : createMessage rb readerGen channelName msg postToDescendants = .threw err) :
    (Writer.getMaxMessageSize rb).toNat <
      (10 + (channelName.takeWhile (· != 0)).length + msg.length) % 2^32 := by
  simp only [createMessage] at threw
  split at threw
  · contradiction
  split at threw
  case isTrue exceeds => exact (exceeds_iff _ _).mp exceeds
  case isFalse =>
    split at threw
    · contradiction
    · contradiction

theorem createMessage_fits (some_ : msg ≠ [])
    (small : 10 + (channelName.takeWhile (· != 0)).length + msg.length < 2^32)
    (within : ¬ (Writer.getMaxMessageSize rb).toNat <
      (10 + (channelName.takeWhile (· != 0)).length + msg.length) % 2^32) :
    createMessage rb readerGen channelName msg postToDescendants =
      .created (serialize readerGen postToDescendants (channelName.takeWhile (· != 0)) msg) := by
  have whole : msg.take (BitVec.ofNat 32 msg.length).toNat = msg := by
    rw [BitVec.toNat_ofNat,Nat.mod_eq_of_lt (by omega),List.take_length]
  simp only [createMessage]
  rw [if_neg (by simpa using some_),if_neg (by rwa [exceeds_iff]),whole,if_pos]
  rw [length_serialize,toNat_topicMsgLen,Nat.mod_eq_of_lt small]
  omega

theorem SizeSafe.fits (safe : SizeSafe rb readerGen channelName msg postToDescendants) :
    msg ≠ [] ∧ (10 + (channelName.takeWhile (· != 0)).length + msg.length < 2^32 ∨
      (Writer.getMaxMessageSize rb).toNat <
        (10 + (channelName.takeWhile (· != 0)).length + msg.length) % 2^32) := by
  rcases safe with ⟨err,threw⟩ | ⟨rbMsg,created,whole,_⟩
  · refine ⟨?_,Or.inr (exceeds_of_threw threw)⟩
    rintro rfl
    contradiction
  · refine ⟨?_,Or.inl ?_⟩
    · rintro rfl
      contradiction
    · rw [length_created created] at whole
      omega

/-- A message is created safely exactly when it has a payload and its length is not narrowed, or when
the narrowed length still exceeds what the ring can take. -/
theorem sizeSafe_iff : SizeSafe rb readerGen channelName msg postToDescendants ↔
    msg ≠ [] ∧ (10 + (channelName.takeWhile (· != 0)).length + msg.length < 2^32 ∨
      (Writer.getMaxMessageSize rb).toNat <
        (10 + (channelName.takeWhile (· != 0)).length + msg.length) % 2^32) := by
  constructor
  · exact SizeSafe.fits
  · rintro ⟨some_,sized⟩
    by_cases exceeds : (Writer.getMaxMessageSize rb).toNat <
        (10 + (channelName.takeWhile (· != 0)).length + msg.length) % 2^32
    · left
      simp only [createMessage]
      rw [if_neg (by simpa using some_),if_pos ((exceeds_iff _ _).mpr exceeds)]
      exact ⟨_,rfl⟩
    · right
      refine ⟨_,createMessage_fits some_ (sized.resolve_right exceeds) exceeds,length_serialize,?_⟩
      intro gen older channel handleDescendants matching
      rw [deserializeAndFilter_serialize (noZero_takeWhile _),if_pos ⟨older,matching⟩]

end

/-- In a ring of 64 bytes a payload of 2^32 + 1 bytes is not refused, nor is one of 2^32 - 1 bytes:
with the name and the header they need twelve and ten bytes too many for 32 bits. -/
theorem not_sizeSafe :
    ¬ SizeSafe (ByteRingBuffer.create 64 (fun _ => 0)) 0 [97] (List.replicate (2^32 + 1) 7) false ∧
      ¬ SizeSafe (ByteRingBuffer.create 64 (fun _ => 0)) 0 [97] (List.replicate (2^32 - 1) 7) false := by
  have name : (([97] : Chars).takeWhile (· != 0)).length = 1 := rfl
  have limit : (Writer.getMaxMessageSize (ByteRingBuffer.create 64 (fun _ => 0))).toNat = 59 := rfl
  constructor
  · intro safe
    have fits := safe.fits.2
    rw [name,limit,List.length_replicate] at fits
    omega
  · intro safe
    have fits := safe.fits.2
    rw [name,limit,List.length_replicate] at fits
    omega

end AsyncWriter
end Toroni.Tp
