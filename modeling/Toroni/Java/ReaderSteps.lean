import Toroni.Java.Interchange
import Toroni.Rmp.ReaderSteps

/-! The Java reader load by load. It goes the way of the C++ one where the headers say what an `int`
holds, but for the lag that it lets the published position have. -/
namespace Toroni.Java
open Rmp CircularMemory TwosComplement

def signedLength (hdrCopy : MsgHeader) : Long := (BitVec.ofNat 32 hdrCopy.length).signExtend 64

namespace ReaderState

/-- The next step of `readEx`. A copy of a negative number of bytes throws, which is taken like an
assertion that fails. -/
def step (rb : ByteRingBuffer) (r : Rmp.ReaderState) : Option Rmp.ReaderState :=
  let bufSize := rb.configBufSizeBytes
  let bufIndex := Util.bufIndex (Util.indexMask bufSize) r.pos
  match r.pc with
  | .idle => none
  | .entry =>
    some { r with pc := if Util.greaterThan r.pos rb.freePos then .done (some .invalidPosition) else .head }
  | .head => some { r with pc := if r.pos = rb.freePos then .last else .early }
  | .early =>
    if (bufSize - bufIndex).slt (MessageHeader.size.signExtend 64) then
      some { r with pc := .head, pos := r.pos + (bufSize - bufIndex), at_ := r.at_ + (bufSize - bufIndex).toNat }
    else
      some { r with pc := if Util.expired r.pos rb.freePos bufSize then .done (some .expiredPosition)
                          else .header [] }
  | .header copied =>
    let copied := copied ++ [rb.data (bufIndex.toNat + copied.length)]
    some { r with pc := if copied.length = MsgHeader.size then .check (MsgHeader.decode copied)
                        else .header copied }
  | .check hdrCopy =>
    let msgHeaderCpy : MessageHeader := ⟨hdrCopy.type,signedLength hdrCopy⟩
    some { r with pc :=
      if !msgHeaderCpy.valid || Util.expired r.pos rb.freePos bufSize then .done (some .expiredPosition)
      else if bufSize.slt (bufIndex + MessageHeader.size.signExtend 64 + msgHeaderCpy.length) then .done none
      else if msgHeaderCpy.type = MessageHeader.MESSAGE then
        if (msgHeaderCpy.length.setWidth 32).slt 0 then .done none else .payload hdrCopy []
      else .advance hdrCopy }
  | .payload hdrCopy copied =>
    let copied := copied ++ [rb.data ((bufIndex + MessageHeader.size.signExtend 64).toNat + copied.length)]
    some { r with pc := if copied.length = ((signedLength hdrCopy).setWidth 32).toNat then .final hdrCopy copied
                        else .payload hdrCopy copied }
  | .final hdrCopy data =>
    some { r with pc := if Util.expired r.pos rb.freePos bufSize then .done (some .expiredPosition)
                        else .confirm hdrCopy data }
  | .confirm hdrCopy _ => some { r with pc := .advance hdrCopy }
  | .advance hdrCopy =>
    some { r with pc := .publish
                  pos := r.pos + (MessageHeader.size.signExtend 64 + signedLength hdrCopy)
                  at_ := (r.at_ + (MsgHeader.size + (signedLength hdrCopy).toInt)).toNat }
  | .publish =>
    let bposMaxLag := bufSize
    some { r with pc := .head, bpos := if (r.bpos + bposMaxLag).sle r.pos then r.pos else r.bpos }
  | .last => some { r with pc := .done (some .success), bpos := r.pos }
  | .done _ => none

def Counted (rb : ByteRingBuffer) (r : Rmp.ReaderState) : Prop :=
  match r.pc with
  | .check hdrCopy =>
    ¬ Rmp.expired r.pos rb.freePos rb.configBufSizeBytes = true → hdrCopy.length < 2^31
  | .payload hdrCopy _ | .advance hdrCopy => hdrCopy.length < 2^31
  | _ => True

end ReaderState

section
variable {size : RingSize} {rb : ByteRingBuffer} {r : Rmp.ReaderState} {hdrCopy : MsgHeader}

theorem signedLength_eq (counted : hdrCopy.length < 2^31) :
    signedLength hdrCopy = BitVec.ofNat 64 hdrCopy.length := by
  exact signExtend_ofNat counted

theorem bytes_le (large : size.bytes < 2^63) : size.bytes ≤ 2^62 := by
  obtain ⟨k,_,_,equal⟩ := size.powerOfTwo
  rw [equal] at large ⊢
  apply Nat.pow_le_pow_right Nat.two_pos
  have := (Nat.pow_lt_pow_iff_right Nat.one_lt_two).mp large
  omega

theorem step_check (config : rb.configBufSizeBytes = size.position) (large : size.bytes < 2^63)
    (pc : r.pc = .check hdrCopy) (counted : ReaderState.Counted rb r) : ReaderState.step rb r = r.step rb := by
  have five : MsgHeader.size = 5 := rfl
  simp only [ReaderState.Counted,pc] at counted
  have bound := bytes_le large
  have index := bufIndex_toNat size r.pos
  have inside := size.mod_lt r.pos.toNat
  have whole := size.toNat_position
  simp only [ReaderState.step,Rmp.ReaderState.step,pc,expired_eq,bufIndex_eq,indexMask_eq,size_eq]
  rcases Bool.eq_false_or_eq_true (Rmp.expired r.pos rb.freePos rb.configBufSizeBytes) with gone | live
  · simp only [gone,Bool.or_true,if_true]
  · have short := counted (by simp [live])
    have same := signedLength_eq short
    obtain ⟨positive,_⟩ := setWidth_length short
    have sum : Rmp.bufIndex (indexMask rb.configBufSizeBytes) r.pos + BitVec.ofNat 64 MsgHeader.size +
        BitVec.ofNat 64 hdrCopy.length =
        Rmp.bufIndex (indexMask rb.configBufSizeBytes) r.pos + BitVec.ofNat 64 (MsgHeader.size + hdrCopy.length) := by
      rw [BitVec.add_assoc,SerialNumber.ofNat_add_ofNat]
    have outside := slt_iff (a := rb.configBufSizeBytes)
      (b := Rmp.bufIndex (indexMask rb.configBufSizeBytes) r.pos +
        BitVec.ofNat 64 (MsgHeader.size + hdrCopy.length))
      (NotNegative.of_le (n := 2^62) (by rw [config,whole]; exact bound) (by decide))
      (NotNegative.of_le (n := 2^62 + 2^32) (by
        rw [config,BitVec.toNat_add,index,BitVec.toNat_ofNat]
        omega) (by decide))
    simp only [live,same,valid_eq short,sum,outside,positive,Bool.false_eq_true,if_false]
    rfl

/-- A step of the Java reader, other than publishing, is that of the C++ one. -/
theorem step_eq (config : rb.configBufSizeBytes = size.position) (large : size.bytes < 2^63)
    (counted : ReaderState.Counted rb r) (unpublished : r.pc ≠ .publish) :
    ReaderState.step rb r = r.step rb := by
  have bound := bytes_le large
  have whole := size.toNat_position
  cases pc : r.pc with
  | publish => exact absurd pc unpublished
  | check hdrCopy => exact step_check config large pc counted
  | idle | head | confirm | last | done => simp only [ReaderState.step,Rmp.ReaderState.step,pc]
  | entry => simp only [ReaderState.step,Rmp.ReaderState.step,pc,greaterThan_eq]
  | early =>
    have tail := toNat_tail config r.pos
    have blank := slt_iff (NotNegative.of_le (n := 2^62) (show (rb.configBufSizeBytes -
        Rmp.bufIndex (indexMask rb.configBufSizeBytes) r.pos).toNat ≤ 2^62 by omega) (by decide))
      (show NotNegative (BitVec.ofNat 64 MsgHeader.size) by unfold NotNegative; decide)
    simp only [ReaderState.step,Rmp.ReaderState.step,pc,expired_eq,bufIndex_eq,indexMask_eq,size_eq,blank]
  | header copied => simp only [ReaderState.step,Rmp.ReaderState.step,pc,bufIndex_eq,indexMask_eq]
  | payload hdrCopy copied =>
    simp only [ReaderState.Counted,pc] at counted
    have same := signedLength_eq counted
    obtain ⟨_,count⟩ := setWidth_length counted
    have index := bufIndex_toNat size r.pos
    have inside := size.mod_lt r.pos.toNat
    have next : (Rmp.bufIndex (indexMask rb.configBufSizeBytes) r.pos + BitVec.ofNat 64 MsgHeader.size).toNat =
        (Rmp.bufIndex (indexMask rb.configBufSizeBytes) r.pos).toNat + MsgHeader.size := by
      rw [config,BitVec.toNat_add,index,BitVec.toNat_ofNat,MsgHeader.size]
      omega
    simp only [ReaderState.step,Rmp.ReaderState.step,pc,bufIndex_eq,indexMask_eq,size_eq,same,count,next]
  | final hdrCopy data => simp only [ReaderState.step,Rmp.ReaderState.step,pc,expired_eq]
  | advance hdrCopy =>
    simp only [ReaderState.Counted,pc] at counted
    have same := signedLength_eq counted
    have real : (BitVec.ofNat 64 hdrCopy.length).toInt = hdrCopy.length := by
      have value : (BitVec.ofNat 64 hdrCopy.length).toNat = hdrCopy.length := by
        rw [BitVec.toNat_ofNat]
        omega
      rw [NotNegative.toInt (NotNegative.of_le (n := 2^31) (by omega) (by decide)),value]
    simp only [ReaderState.step,Rmp.ReaderState.step,pc,size_eq,same,real,SerialNumber.ofNat_add_ofNat]
    have place : ((r.at_ : Int) + ((MsgHeader.size : Int) + (hdrCopy.length : Int))).toNat =
        r.at_ + (MsgHeader.size + hdrCopy.length) := by omega
    rw [place]

end
end Toroni.Java
