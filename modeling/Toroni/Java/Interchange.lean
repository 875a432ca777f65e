import Toroni.Java.Rmp
import Toroni.Language
import Toroni.Library.Transition

/-! Both implementations on one ring: each call of the one does what the same call of the other
would do. -/
namespace Toroni.Java
open Rmp CircularMemory LittleEndian Rmp.Writer TwosComplement Traits Transition

section
variable {size : RingSize} {rb : ByteRingBuffer} {data : List UInt8}

theorem greaterThan_eq (a b : Position) : Util.greaterThan a b = Rmp.greaterThan a b := by
  simp [Util.greaterThan,Rmp.greaterThan,BitVec.slt]

theorem expired_eq (pos freePos bufSize : Position) :
    Util.expired pos freePos bufSize = Rmp.expired pos freePos bufSize := by
  simp [Util.expired,Util.greaterThanOrEqualTo,Rmp.expired,Rmp.greaterOrEqualThan,BitVec.sle]

theorem bufIndex_eq (mask pos : Position) : Util.bufIndex mask pos = Rmp.bufIndex mask pos := by
  exact BitVec.and_comm _ _

theorem indexMask_eq (bufSize : Position) : Util.indexMask bufSize = Rmp.indexMask bufSize := by
  rfl

theorem size_eq : MessageHeader.size.signExtend 64 = BitVec.ofNat 64 MsgHeader.size := by decide

theorem updateActiveRange_eq (ri : Rmp.ReaderInfo) :
    ReaderInfo.updateActiveRange ri = ri.updateActiveRange := by
  have word : BitVec.ofNat 32 ri.scan.1 <<< 16 ||| BitVec.ofNat 32 (ri.scan.2 + 1) = packRange ri.scan := by
    apply BitVec.eq_of_toNat_eq
    rw [packRange,BitVec.toNat_or,BitVec.toNat_shiftLeft,BitVec.toNat_ofNat,BitVec.toNat_ofNat,
      BitVec.toNat_ofNat,Nat.or_mod_two_pow,Nat.shiftLeft_eq,Nat.shiftLeft_eq,Nat.mod_mul_mod]
  rw [ReaderInfo.updateActiveRange,Rmp.ReaderInfo.updateActiveRange,word]

theorem activate_eq (ri : Rmp.ReaderInfo) (readerId : ReaderId) (pos : Position) :
    ReaderInfo.activate ri readerId pos = ri.activate readerId pos := by
  cases readerId with
  | none => rfl
  | some i =>
    rw [ReaderInfo.activate,Rmp.ReaderInfo.activate,updateActiveRange_eq]
    simp [Rmp.ReaderInfo.setActive,Rmp.ReaderInfo.setPosition]

theorem deactivate_eq (ri : Rmp.ReaderInfo) (readerId : ReaderId) :
    ReaderInfo.deactivate ri readerId = ri.deactivate readerId := by
  cases readerId with
  | none => rfl
  | some i => rw [ReaderInfo.deactivate,Rmp.ReaderInfo.deactivate,updateActiveRange_eq]

theorem alloc_eq (ri : Rmp.ReaderInfo) (self : Owner) : ReaderInfo.alloc ri self = ri.alloc self := by
  unfold ReaderInfo.alloc Rmp.ReaderInfo.alloc
  cases (List.range ri.configMaxReaders.toNat).find? (fun i => ((ri.info i).lock.tryLock self).isSome) with
  | none => rfl
  | some i => exact congrArg _ (deactivate_eq _ _)

theorem free_eq (ri : Rmp.ReaderInfo) (readerId : ReaderId) : ReaderInfo.free ri readerId = ri.free readerId := by
  cases readerId with
  | none => rfl
  | some i => rw [ReaderInfo.free,Rmp.ReaderInfo.free,deactivate_eq]

def RangeFits (ri : Rmp.ReaderInfo) : Prop := ri.getActiveRange.1 < 2^15 ∧ ri.getActiveRange.2 < 2^15

theorem toInt_getActiveRange {ri : Rmp.ReaderInfo} (fits : RangeFits ri) :
    (ReaderInfo.getActiveRange ri).1.toInt = ri.getActiveRange.1 ∧
      (ReaderInfo.getActiveRange ri).2.toInt = ri.getActiveRange.2 := by
  have low : (ReaderInfo.getActiveRange ri).1.toNat = ri.getActiveRange.1 := by
    have word := ri.readersMinMax.isLt
    have shifted : (ri.readersMinMax.sshiftRight 16).setWidth 16 = (ri.readersMinMax >>> 16).setWidth 16 := by
      apply BitVec.eq_of_getLsbD_eq
      intro i bound
      have inside : 16 + i < 32 := by omega
      simp [BitVec.getLsbD_sshiftRight,bound,inside,show ¬ 32 ≤ i by omega]
    simp only [ReaderInfo.getActiveRange,shifted,Rmp.ReaderInfo.getActiveRange,unpackRange,BitVec.toNat_setWidth,
      BitVec.toNat_ushiftRight,Nat.shiftRight_eq_div_pow]
    omega
  have high : (ReaderInfo.getActiveRange ri).2.toNat = ri.getActiveRange.2 := by
    simp only [ReaderInfo.getActiveRange,Rmp.ReaderInfo.getActiveRange,unpackRange,BitVec.toNat_setWidth]
  obtain ⟨first,second⟩ := fits
  constructor
  · rw [NotNegative.toInt (show NotNegative _ by unfold NotNegative; omega),low]
  · rw [NotNegative.toInt (show NotNegative _ by unfold NotNegative; omega),high]

theorem detectReaderBackpressure_eq {ri : Rmp.ReaderInfo} (fits : RangeFits ri) (n : Position)
    (skipConsPos : Option Position) :
    Writer.detectReaderBackpressure rb ri n skipConsPos =
      Rmp.Writer.detectReaderBackpressure rb ri n skipConsPos := by
  obtain ⟨low,high⟩ := toInt_getActiveRange fits
  simp only [Writer.detectReaderBackpressure,Rmp.Writer.detectReaderBackpressure,low,high,List.range'_eq_map_range,
    List.findSome?_map]
  have count : ((ri.getActiveRange.2 : Int) - ri.getActiveRange.1).toNat =
      ri.getActiveRange.2 - ri.getActiveRange.1 := by omega
  rw [count]
  congr 1
  funext k
  have index : ((ri.getActiveRange.1 : Int) + (k : Int)).toNat = ri.getActiveRange.1 + k := by omega
  simp only [index,Function.comp_apply,slotBackpressure,expired_eq,greaterThan_eq]
  generalize ri.info (ri.getActiveRange.1 + k) = slot
  by_cases active : slot.isActive = true
  · by_cases gone : Rmp.expired slot.position rb.freePos rb.configBufSizeBytes = true
    · simp [active,gone]
    · simp [active,gone]
  · simp [active]

theorem NotNegative.of_le {a : Position} {n : Nat} (bound : a.toNat ≤ n) (few : n < 2^63) : NotNegative a := by
  unfold NotNegative
  omega

theorem signExtend_size_add {length : Nat} (few : length < 2^31 - MsgHeader.size) :
    (MessageHeader.size + BitVec.ofNat 32 length).signExtend 64 =
      BitVec.ofNat 64 (MsgHeader.size + length) := by
  have few : length < 2^31 - 5 := few
  have sum : (MessageHeader.size + BitVec.ofNat 32 length).toNat = 5 + length := by
    rw [BitVec.toNat_add,BitVec.toNat_ofNat,show MessageHeader.size.toNat = 5 from rfl]
    omega
  apply BitVec.eq_of_toNat_eq
  rw [toNat_signExtend (show NotNegative _ by unfold NotNegative; omega) (by omega),sum,BitVec.toNat_ofNat,MsgHeader.size]
  omega

theorem signExtend_ofNat {length : Nat} (few : length < 2^31) :
    (BitVec.ofNat 32 length).signExtend 64 = BitVec.ofNat 64 length := by
  apply BitVec.eq_of_toNat_eq
  have value : (BitVec.ofNat 32 length).toNat = length := by
    rw [BitVec.toNat_ofNat]
    omega
  rw [toNat_signExtend (show NotNegative _ by unfold NotNegative; omega) (by omega),value,BitVec.toNat_ofNat]
  omega

theorem toNat_tail (config : rb.configBufSizeBytes = size.position) (pos : Position) :
    (rb.configBufSizeBytes - Rmp.bufIndex (indexMask rb.configBufSizeBytes) pos).toNat =
      size.bytes - pos.toNat % size.bytes := by
  have tail := toNat_bufEnd size pos.toNat
  rwa [BitVec.ofNat_toNat,BitVec.setWidth_eq,← config] at tail

theorem layout_eq (config : rb.configBufSizeBytes = size.position) (moderate : size.bytes ≤ 2^30)
    {length : Nat} (short : length + MsgHeader.size ≤ size.bytes) :
    Writer.layout rb (BitVec.ofNat 32 length) = Rmp.Writer.layout rb (BitVec.ofNat 64 length) := by
  have five : MsgHeader.size = 5 := rfl
  have tail := toNat_tail config rb.freePos
  have sum : BitVec.ofNat 64 MsgHeader.size + BitVec.ofNat 64 length =
      BitVec.ofNat 64 (MsgHeader.size + length) := SerialNumber.ofNat_add_ofNat _ _
  have small (n : Nat) (few : n ≤ 2^30) : NotNegative (BitVec.ofNat 64 n) := by
    refine NotNegative.of_le (n := 2^30) ?_ (by decide)
    rw [BitVec.toNat_ofNat]
    omega
  have rest : NotNegative (rb.configBufSizeBytes - Rmp.bufIndex (indexMask rb.configBufSizeBytes) rb.freePos) :=
    NotNegative.of_le (n := 2^30) (by omega) (by decide)
  simp only [Writer.layout,Rmp.Writer.layout,bufIndex_eq,indexMask_eq,size_eq,
    signExtend_size_add (show length < 2^31 - MsgHeader.size by omega),
    slt_iff rest (small MsgHeader.size (by omega)),slt_iff rest (small (MsgHeader.size + length) (by omega)),sum,
    BitVec.add_comm (BitVec.ofNat 64 length)]

theorem getMaxMessageSize_eq (rb : ByteRingBuffer) :
    Writer.getMaxMessageSize rb = Rmp.Writer.getMaxMessageSize rb := by
  rw [Writer.getMaxMessageSize,Rmp.Writer.getMaxMessageSize,size_eq]

theorem toNat_behind {index : Position} {n : Nat} (inside : index.toNat ≤ 2^31) (few : n < 2^32) :
    (index + BitVec.ofNat 64 n).toNat = index.toNat + n := by
  rw [BitVec.toNat_add,BitVec.toNat_ofNat]
  omega

theorem setWidth_length {length : Nat} (few : length < 2^31) :
    ((BitVec.ofNat 64 length).setWidth 32).slt 0 = false ∧ ((BitVec.ofNat 64 length).setWidth 32).toNat = length := by
  have count : ((BitVec.ofNat 64 length).setWidth 32).toNat = length := by
    rw [BitVec.toNat_setWidth,BitVec.toNat_ofNat]
    omega
  refine ⟨?_,count⟩
  rw [Bool.eq_false_iff,ne_eq,slt_iff (show NotNegative _ by unfold NotNegative; omega)
    (show NotNegative _ by unfold NotNegative; decide)]
  simp [BitVec.lt_def]

/-- Type and length stored apart are the header. -/
theorem setInt_setByte (rb : ByteRingBuffer) (index : Position) (type : UInt8) {length : Nat}
    (few : length < 2^32) (inside : index.toNat + 1 < 2^64) :
    setInt (setByte rb (index + MessageHeader.TYPE_OFFSET) type) (index + MessageHeader.LENGTH_OFFSET)
        (BitVec.ofNat 32 length) =
      rb.put index.toNat (MsgHeader.mk type length).bytes := by
  have next : (index + MessageHeader.LENGTH_OFFSET).toNat = index.toNat + 1 := by
    rw [BitVec.toNat_add,show MessageHeader.LENGTH_OFFSET.toNat = 1 from rfl]
    omega
  have value : (BitVec.ofNat 32 length).toNat = length := by
    rw [BitVec.toNat_ofNat]
    omega
  rw [setInt,setByte,next,value,show index + MessageHeader.TYPE_OFFSET = index from BitVec.add_zero index]
  exact rb.put_put index.toNat [type] (toBytes 4 length)

theorem append_eq {l : Layout} (few : data.length < 2^31 - MsgHeader.size)
    (index : l.bufIndex.toNat ≤ 2^30) (rest : l.lengthToBufEnd.toNat ≤ 2^30)
    (padding : l.addPadding = true → MsgHeader.size ≤ l.lengthToBufEnd.toNat) :
    Writer.append rb data l = Rmp.Writer.append rb data l := by
  have five : MsgHeader.size = 5 := rfl
  have body (rb : ByteRingBuffer) (index : Position) (inside : index.toNat ≤ 2^30) :
      (setInt (setByte rb (index + MessageHeader.TYPE_OFFSET) MessageHeader.MESSAGE)
          (index + MessageHeader.LENGTH_OFFSET) (BitVec.ofNat 32 data.length)).put
          (index + BitVec.ofNat 64 MsgHeader.size).toNat data =
        (rb.put index.toNat (MsgHeader.mk MsgHeader.MSG data.length).bytes).put
          (index.toNat + MsgHeader.size) data := by
    have next := toNat_behind (show index.toNat ≤ 2^31 by omega) (show MsgHeader.size < 2^32 by omega)
    rw [setInt_setByte rb index _ (by omega) (by omega),next]
    rfl
  have header : (l.lengthToBufEnd - BitVec.ofNat 64 MsgHeader.size).setWidth 32 =
      BitVec.ofNat 32 (l.lengthToBufEnd - BitVec.ofNat 64 MsgHeader.size).toNat := by
    rw [BitVec.ofNat_toNat]
  simp only [Writer.append,Rmp.Writer.append,size_eq,signExtend_size_add few]
  by_cases padded : l.addPadding = true
  · have room := padding padded
    have fits : (l.lengthToBufEnd - BitVec.ofNat 64 MsgHeader.size).toNat < 2^32 := by
      rw [BitVec.toNat_sub_of_le (by rw [BitVec.le_def,BitVec.toNat_ofNat]; omega)]
      omega
    rw [if_pos padded,if_pos padded,header,setInt_setByte rb _ _ fits (by omega),body _ _ (by simp)]
    rfl
  · rw [if_neg padded,if_neg padded]
    by_cases blank : l.addBlank = true
    · rw [if_pos blank,if_pos blank,body _ _ (by simp)]
      rfl
    · rw [if_neg blank,if_neg blank,body _ _ index]

theorem layout_place (rb : ByteRingBuffer) (dataSize : Position) :
    (Rmp.Writer.layout rb dataSize).bufIndex = Rmp.bufIndex (indexMask rb.configBufSizeBytes) rb.freePos ∧
      (Rmp.Writer.layout rb dataSize).lengthToBufEnd =
        rb.configBufSizeBytes - Rmp.bufIndex (indexMask rb.configBufSizeBytes) rb.freePos := by
  simp only [Rmp.Writer.layout]
  split
  · exact ⟨rfl,rfl⟩
  · split <;> exact ⟨rfl,rfl⟩

theorem layout_padding {dataSize : Position} (padded : (Rmp.Writer.layout rb dataSize).addPadding = true) :
    ¬ rb.configBufSizeBytes - Rmp.bufIndex (indexMask rb.configBufSizeBytes) rb.freePos <
      BitVec.ofNat 64 MsgHeader.size := by
  intro small
  simp [Rmp.Writer.layout,small] at padded

theorem write_eq {ri : Rmp.ReaderInfo} (config : rb.configBufSizeBytes = size.position)
    (moderate : size.bytes ≤ 2^30) (range : RangeFits ri) (few : data.length < 2^31) (readerBP : Bool)
    (skipConsPos : Option Position) :
    Writer.write rb ri data readerBP skipConsPos = Rmp.Writer.write rb ri data readerBP skipConsPos := by
  have bounds := size.bounds
  have five : MsgHeader.size = 5 := rfl
  have max := toNat_getMaxMessageSize config
  have length : (BitVec.ofNat 64 data.length).toNat = data.length := by
    rw [BitVec.toNat_ofNat]
    omega
  have exceeds := slt_iff (NotNegative.of_le (n := 2^30) (show (Rmp.Writer.getMaxMessageSize rb).toNat ≤ 2^30 by omega)
    (by decide)) (NotNegative.of_le (n := 2^31) (show (BitVec.ofNat 64 data.length).toNat ≤ 2^31 by omega) (by decide))
  simp only [Writer.write,Rmp.Writer.write,getMaxMessageSize_eq,signExtend_ofNat few,exceeds]
  split
  next => rfl
  next legal =>
    rw [BitVec.lt_def,max,length] at legal
    have tail := toNat_tail config rb.freePos
    have index : (Rmp.bufIndex (indexMask rb.configBufSizeBytes) rb.freePos).toNat ≤ 2^30 := by
      rw [config,bufIndex_toNat]
      have := size.mod_lt rb.freePos.toNat
      omega
    have same : Writer.append rb data (Rmp.Writer.layout rb (BitVec.ofNat 64 data.length)) =
        Rmp.Writer.append rb data (Rmp.Writer.layout rb (BitVec.ofNat 64 data.length)) := by
      obtain ⟨place,rest⟩ := layout_place rb (BitVec.ofNat 64 data.length)
      refine append_eq (by omega) (by rw [place]; exact index) (by rw [rest]; omega) (fun padded => ?_)
      have room := layout_padding padded
      rw [BitVec.lt_def,BitVec.toNat_ofNat] at room
      rw [rest]
      omega
    rw [layout_eq config moderate (by omega),detectReaderBackpressure_eq range,same]
    rfl

def seen : Rmp.Reader.Pass → Rmp.Reader.Pass
  | .continues pos _ confirmed => .continues pos 0 confirmed
  | pass => pass

theorem readMsgHeader_eq {index : Position} (inside : index.toNat ≤ 2^31)
    (short : (MsgHeader.read rb.data index.toNat).length < 2^31) :
    readMsgHeader rb index = ⟨(MsgHeader.read rb.data index.toNat).type,
      BitVec.ofNat 64 (MsgHeader.read rb.data index.toNat).length⟩ := by
  have next : (index + MessageHeader.LENGTH_OFFSET).toNat = index.toNat + 1 := by
    rw [BitVec.toNat_add,show MessageHeader.LENGTH_OFFSET.toNat = 1 from rfl]
    omega
  have cells : MsgHeader.read rb.data index.toNat =
      ⟨rb.data index.toNat,ofBytes (load rb.data (index.toNat + 1) 4)⟩ := rfl
  rw [cells] at short ⊢
  rw [readMsgHeader,next,signExtend_ofNat short,
    show index + MessageHeader.TYPE_OFFSET = index from BitVec.add_zero index]

theorem advance_eq (rb : ByteRingBuffer) (pos bpos bpos' : Position) (length : Nat)
    (confirmed : List (List UInt8)) :
    seen (Reader.advance rb pos bpos (BitVec.ofNat 64 length) confirmed) =
      seen (Rmp.Reader.advance rb pos bpos' length confirmed) := by
  rw [Reader.advance,Rmp.Reader.advance,size_eq,SerialNumber.ofNat_add_ofNat]
  rfl

theorem valid_eq {type : UInt8} {length : Nat} (few : length < 2^31) :
    MessageHeader.valid ⟨type,BitVec.ofNat 64 length⟩ = MsgHeader.valid ⟨type,length⟩ := by
  have same : (BitVec.ofNat 64 length = 0) = (length = 0) :=
    propext (eq_comm.trans ((SerialNumber.ofNat_inj_of_near (Nat.zero_le length) (by omega)).trans eq_comm))
  have content : (BitVec.ofNat 64 length != 0) = (length != 0) := by
    simp only [bne,beq_eq_decide,same]
  rw [MessageHeader.valid,MsgHeader.valid,content]
  rfl

/-- A pass sees and confirms the same where a header that is looked at has no more than an `int`
holds. -/
theorem iterate_eq {pos : Position} (copy : List UInt8 → Bool) (bpos bpos' : Position)
    (config : rb.configBufSizeBytes = size.position) (moderate : size.bytes ≤ 2^31)
    (short : ¬ Rmp.expired pos rb.freePos rb.configBufSizeBytes = true →
      MsgHeader.size ≤ size.bytes - pos.toNat % size.bytes →
      (MsgHeader.read rb.data (pos.toNat % size.bytes)).length < 2^31) :
    seen (Reader.iterate copy rb pos bpos) = seen (Rmp.Reader.iterate copy rb pos bpos') := by
  have five : MsgHeader.size = 5 := rfl
  have index : (Rmp.bufIndex (indexMask rb.configBufSizeBytes) pos).toNat = pos.toNat % size.bytes := by
    rw [config,bufIndex_toNat]
  have inside := size.mod_lt pos.toNat
  have tail := toNat_tail config pos
  have whole : rb.configBufSizeBytes.toNat = size.bytes := by rw [config,size.toNat_position]
  have blank := slt_iff (NotNegative.of_le (n := 2^31) (show (rb.configBufSizeBytes -
      Rmp.bufIndex (indexMask rb.configBufSizeBytes) pos).toNat ≤ 2^31 by omega) (by decide))
    (show NotNegative (BitVec.ofNat 64 MsgHeader.size) by unfold NotNegative; decide)
  simp only [Reader.iterate,Rmp.Reader.iterate,bufIndex_eq,indexMask_eq,expired_eq,size_eq,blank]
  by_cases ended : pos = rb.freePos
  · rw [if_pos ended,if_pos ended]
  rw [if_neg ended,if_neg ended]
  by_cases room : rb.configBufSizeBytes - Rmp.bufIndex (indexMask rb.configBufSizeBytes) pos <
      BitVec.ofNat 64 MsgHeader.size
  · rw [if_pos room,if_pos room]
    rfl
  rw [if_neg room,if_neg room]
  rw [BitVec.lt_def,tail,BitVec.toNat_ofNat] at room
  by_cases gone : Rmp.expired pos rb.freePos rb.configBufSizeBytes = true
  · simp only [if_pos gone]
  simp only [if_neg gone]
  have short := short gone (by omega)
  rw [← index] at short
  rw [readMsgHeader_eq (by omega) short]
  generalize MsgHeader.read rb.data (Rmp.bufIndex (indexMask rb.configBufSizeBytes) pos).toNat = header at short
  obtain ⟨type,length⟩ := header
  replace short : length < 2^31 := short
  generalize Rmp.bufIndex (indexMask rb.configBufSizeBytes) pos = bufIndex at *
  have sum := toNat_behind (show bufIndex.toNat ≤ 2^31 by omega) (show MsgHeader.size + length < 2^32 by omega)
  have next := toNat_behind (show bufIndex.toNat ≤ 2^31 by omega) (show MsgHeader.size < 2^32 by omega)
  have outside := slt_iff (NotNegative.of_le (n := 2^31) (show rb.configBufSizeBytes.toNat ≤ 2^31 by omega)
    (by decide)) (NotNegative.of_le (n := 2^33) (show (bufIndex + BitVec.ofNat 64 (MsgHeader.size + length)).toNat ≤ 2^33
      by omega) (by decide))
  obtain ⟨positive,count⟩ := setWidth_length short
  have behind : bufIndex + BitVec.ofNat 64 MsgHeader.size + BitVec.ofNat 64 length =
      bufIndex + BitVec.ofNat 64 (MsgHeader.size + length) := by
    rw [BitVec.add_assoc,SerialNumber.ofNat_add_ofNat]
  simp only [valid_eq short,behind,outside,positive,next,count,Bool.false_eq_true,if_false]
  by_cases invalid : (!(MsgHeader.mk type length).valid ||
      Rmp.expired pos rb.freePos rb.configBufSizeBytes) = true
  · rw [if_pos invalid,if_pos invalid]
  rw [if_neg invalid,if_neg invalid]
  by_cases longer : rb.configBufSizeBytes < bufIndex + BitVec.ofNat 64 (MsgHeader.size + length)
  · rw [if_pos longer,if_pos longer]
  rw [if_neg longer,if_neg longer]
  by_cases message : type = MsgHeader.MSG
  · rw [if_pos message,if_pos (show type = MessageHeader.MESSAGE from message)]
    by_cases wanted : copy (load rb.data (bufIndex.toNat + MsgHeader.size) length) = true
    · rw [if_pos wanted,if_pos wanted]
      exact advance_eq rb pos bpos bpos' length _
    · rw [if_neg wanted,if_neg wanted]
      exact advance_eq rb pos bpos bpos' length _
  · rw [if_neg message,if_neg (show ¬ type = MessageHeader.MESSAGE from message)]
    exact advance_eq rb pos bpos bpos' length _

theorem retry_eq {ri : Rmp.ReaderInfo} (config : rb.configBufSizeBytes = size.position)
    (moderate : size.bytes ≤ 2^30) (range : RangeFits ri) (few : data.length < 2^31)
    (answers : List BpAnswer) (calls : List Position) :
    Writer.retry rb ri data answers calls = Rmp.Writer.retry rb (fun _ => ri) data answers calls := by
  induction answers generalizing rb calls with
  | nil =>
    rewrite [Writer.retry,Rmp.Writer.retry,write_eq config moderate range few true none]
    cases Rmp.Writer.write rb ri data true none with
    | assertionFailed | written | backpressure => rfl
  | cons answer answers ih =>
    have config' : rb.countBackPressure.configBufSizeBytes = size.position := config
    rewrite [Writer.retry,Rmp.Writer.retry,write_eq config moderate range few true none]
    cases Rmp.Writer.write rb ri data true none with
    | assertionFailed | written => rfl
    | backpressure pos =>
      cases answer with
      | throws => rfl
      | returns keep =>
        cases keep with
        | true => exact ih config' _
        | false =>
          dsimp only
          rewrite [write_eq config' moderate range few false none]
          cases Rmp.Writer.write rb.countBackPressure ri data false none with
          | assertionFailed | written | backpressure => rfl

theorem writeEx_eq {ri : Rmp.ReaderInfo} (config : rb.configBufSizeBytes = size.position)
    (moderate : size.bytes ≤ 2^30) (range : RangeFits ri) (few : data.length < 2^31) (self : Owner)
    (answers : List BpAnswer) :
    Writer.writeEx self rb ri data answers = Rmp.Writer.writeEx self rb (fun _ => ri) data answers := by
  unfold Writer.writeEx Rmp.Writer.writeEx
  congr 1
  funext mtx
  rw [retry_eq (show (rb.setWriterMtx mtx).configBufSizeBytes = size.position from config) moderate range few]

end

structure SameRead (out out' : Rmp.Reader.Outcome) : Prop where
  result : out.result = out'.result
  pos : out.pos = out'.pos
  confirmed : out.confirmed = out'.confirmed

section
variable {size : RingSize} {rb : ByteRingBuffer} {g : Ledger} {pending : List UInt8}
  {before rest after : List Record} {p : Nat}

theorem of_seen_continues {pass : Rmp.Reader.Pass} {pos bpos : Position} {confirmed : List (List UInt8)}
    (same : seen pass = seen (.continues pos bpos confirmed)) :
    ∃ bpos', pass = .continues pos bpos' confirmed := by
  cases pass with
  | continues pos bpos' confirmed =>
    cases same
    exact ⟨bpos',rfl⟩
  | finished | expired | assertionFailed => cases same

theorem of_seen_expired {pass : Rmp.Reader.Pass} (same : seen pass = seen .expired) : pass = .expired := by
  cases pass with
  | expired => rfl
  | continues | finished | assertionFailed => cases same

/-- The header that a pass looks at on a record boundary is the one that was written, which says less
than the size of the ring. -/
theorem header_short {r : Record} (rep : Represents size rb g pending)
    (split : g.log = before ++ r :: after) (start : p = g.base + Rmp.sizeOf before)
    (near : g.free < p + size.bytes + 2^63) (fresh : g.top ≤ p + size.bytes ∨ p + size.bytes ≤ g.free)
    (kept : ¬ expired (BitVec.ofNat 64 p) rb.freePos rb.configBufSizeBytes = true)
    (room : MsgHeader.size ≤ size.bytes - (BitVec.ofNat 64 p).toNat % size.bytes) :
    (MsgHeader.read rb.data ((BitVec.ofNat 64 p).toNat % size.bytes)).length < size.bytes := by
  have five : MsgHeader.size = 5 := rfl
  obtain ⟨fits,holds⟩ := rep.laid before r after split
  rw [← start] at fits holds
  have bounds := size.bounds
  have positive := fits.size_pos (by omega)
  have behind : p < g.free := by
    rw [Ledger.free,split,sizeOf_append,sizeOf_cons]
    omega
  have index : (BitVec.ofNat 64 p).toNat % size.bytes = p % size.bytes := by
    rw [← bufIndex_toNat,bufIndex_ofNat]
  rw [rep.config,rep.freePos,expired_behind size behind (by omega)] at kept
  have near := fresh.resolve_right kept
  rw [index] at room ⊢
  cases r with
  | blank n =>
    have := fits.1
    have := fits.2
    omega
  | padding n =>
    have header : MsgHeader.read rb.data (p % size.bytes) = ⟨MsgHeader.PADDING,n⟩ :=
      MsgHeader.read_of_holds
        (show Holds rb.data size.bytes g.top p ((MsgHeader.mk MsgHeader.PADDING n).bytes ++ []) by
          rw [List.append_nil]; exact holds) near (by have := fits.1; omega) fits.2
    have := fits.1
    rw [header]
    dsimp only
    omega
  | msg data =>
    have := fits.1
    have header : MsgHeader.read rb.data (p % size.bytes) = ⟨MsgHeader.MSG,data.length⟩ :=
      MsgHeader.read_of_holds holds near (by omega) fits.2
    rw [header]
    dsimp only
    omega

theorem loop_eq (copy : List UInt8 → Bool) (moderate : size.bytes ≤ 2^31) (rep : Represents size rb g pending)
    (split : g.log = before ++ rest) (start : p = g.base + Rmp.sizeOf before)
    (near : g.free < p + size.bytes + 2^63) (fresh : g.top ≤ p + size.bytes ∨ p + size.bytes ≤ g.free)
    (bpos bpos' : Position) (confirmed : List (List UInt8)) :
    ∃ out out', Reader.loop copy rb (rest.length + 1) (BitVec.ofNat 64 p) bpos confirmed = some out ∧
      Rmp.Reader.loop copy rb (rest.length + 1) (BitVec.ofNat 64 p) bpos' confirmed = some out' ∧
      SameRead out out' := by
  induction rest generalizing before p bpos bpos' confirmed with
  | nil =>
    have ended : BitVec.ofNat 64 p = rb.freePos := by
      rw [start,rep.freePos,Ledger.free,split,List.append_nil]
    let out : Rmp.Reader.Outcome := ⟨some .success,BitVec.ofNat 64 p,BitVec.ofNat 64 p,confirmed⟩
    refine ⟨out,out,?_,?_,rfl,rfl,rfl⟩
    · rw [List.length_nil,Reader.loop,Reader.iterate,if_pos ended]
    · rw [List.length_nil,Rmp.Reader.loop,Rmp.Reader.iterate,if_pos ended]
  | cons r rest ih =>
    have spec := Rmp.Reader.iterate_spec copy bpos' rep split start near fresh
    have same := iterate_eq copy bpos bpos' rep.config moderate (fun kept room => by
      have := header_short rep split start near fresh kept room
      omega)
    rw [List.length_cons,Reader.loop,Rmp.Reader.loop]
    rw [spec] at same ⊢
    by_cases stop : Rmp.Reader.Stops size.bytes g.free p r
    · rw [if_pos stop] at same ⊢
      rw [of_seen_expired same]
      exact ⟨_,_,rfl,rfl,rfl,rfl,rfl⟩
    · rw [if_neg stop] at same ⊢
      obtain ⟨split,start,near,fresh⟩ := Rmp.Reader.next_boundary rep split start near fresh stop
      obtain ⟨next',passed⟩ := Rmp.Reader.passOver_continues copy rb p bpos' r
      rw [passed] at same ⊢
      obtain ⟨next,same⟩ := of_seen_continues same
      rw [same]
      exact ih split start near fresh next next' _

theorem greaterThan_far {a b : Nat} (far : a + 2^63 ≤ b) (near : b < a + 2^64) :
    greaterThan (BitVec.ofNat 64 a) (BitVec.ofNat 64 b) = true := by
  have distance := SerialNumber.toNat_ofNat_sub_ofNat (w := 64) (show a ≤ b by omega) near
  rw [greaterThan,decide_eq_true_eq,BitVec.toInt_eq_toNat_bmod,distance,Int.bmod_def]
  split <;> omega

theorem readEx_eq (copy : List UInt8 → Bool) (moderate : size.bytes ≤ 2^31) (rep : Represents size rb g pending)
    (split : g.log = before ++ rest) (start : p = g.base + Rmp.sizeOf before)
    (near : Rmp.sizeOf rest < 2^64) (quiet : g.top ≤ g.free) (bpos bpos' : Position) :
    ∃ out out', Reader.readEx copy rb (rest.length + 1) (BitVec.ofNat 64 p) bpos = some out ∧
      Rmp.Reader.readEx copy rb (rest.length + 1) (BitVec.ofNat 64 p) bpos' = some out' ∧
      SameRead out out' := by
  have free : g.free = p + Rmp.sizeOf rest := by
    rw [Ledger.free,split,sizeOf_append,start,Nat.add_assoc]
  rw [Reader.readEx,Rmp.Reader.readEx,greaterThan_eq]
  by_cases far : 2^63 ≤ Rmp.sizeOf rest
  · have invalid : greaterThan (BitVec.ofNat 64 p) rb.freePos = true := by
      rw [rep.freePos]
      exact greaterThan_far (by omega) (by omega)
    rw [if_pos invalid,if_pos invalid]
    exact ⟨_,_,rfl,rfl,rfl,rfl,rfl⟩
  · have valid : ¬ greaterThan (BitVec.ofNat 64 p) rb.freePos = true := by
      rw [rep.freePos,greaterThan_iff (by omega) (by omega)]
      omega
    rw [if_neg valid,if_neg valid]
    refine loop_eq copy moderate rep split start (by omega) ?_ bpos bpos' []
    omega

end

namespace Interchange

/-- The shared memory. `base` and `log` are history variables: the stream position at the start, and
the records written since. -/
structure State where
  rb : ByteRingBuffer
  ri : Rmp.ReaderInfo
  base : Nat
  log : List Record

inductive Action
  | writeEx (language : Language) (self : Owner) (data : List UInt8) (answers : List BpAnswer)
  | readEx (language : Language) (i : Nat) (copy : List UInt8 → Bool) (passes : Nat) (pos : Position)
  | alloc (language : Language) (self : Owner)
  | free (language : Language) (readerId : ReaderId)
  | activate (language : Language) (readerId : ReaderId) (pos : Position)
  | deactivate (language : Language) (readerId : ReaderId)

def write (size : RingSize) (s : State) (data : List UInt8) (out : WriteExOutcome) : Option State :=
  if out.result = .running then none
  else some { s with
    rb := out.rb
    log := s.log ++
      if out.result = .returned then appended size.bytes (s.base + Rmp.sizeOf s.log) data else [] }

def read (s : State) (i : Nat) (out : Rmp.Reader.Outcome) : State :=
  let ri := s.ri.setPosition i out.bpos
  { s with ri := if out.result = some .expiredPosition then { ri with expiredReaders := ri.expiredReaders + 1 }
                 else ri }

def next (size : RingSize) (s : State) : Action → Option State
  | .writeEx language self data answers =>
    if Legal size.bytes data then
      (match language with
        | .cpp => Rmp.Writer.writeEx self s.rb (fun _ => s.ri) data answers
        | .java => Writer.writeEx self s.rb s.ri data answers).bind (write size s data)
    else none
  | .readEx language i copy passes pos =>
    (match language with
      | .cpp => Rmp.Reader.readEx copy s.rb passes pos (s.ri.info i).position
      | .java => Reader.readEx copy s.rb passes pos (s.ri.info i).position).map (read s i)
  | .alloc .cpp self => some { s with ri := (s.ri.alloc self).2 }
  | .alloc .java self => some { s with ri := (ReaderInfo.alloc s.ri self).2 }
  | .free .cpp readerId => some { s with ri := s.ri.free readerId }
  | .free .java readerId => some { s with ri := ReaderInfo.free s.ri readerId }
  | .activate .cpp readerId pos => some { s with ri := s.ri.activate readerId pos }
  | .activate .java readerId pos => some { s with ri := ReaderInfo.activate s.ri readerId pos }
  | .deactivate .cpp readerId => some { s with ri := s.ri.deactivate readerId }
  | .deactivate .java readerId => some { s with ri := ReaderInfo.deactivate s.ri readerId }

def sys (size : RingSize) (maxReaders : BitVec 16) : System State Action :=
  .ofNext (fun s => s.rb.configBufSizeBytes = size.position ∧ s.base = s.rb.freePos.toNat ∧ s.log = [] ∧
    s.ri = .create maxReaders) (next size)

structure Inv (size : RingSize) (s : State) : Prop where
  represents : Represents size s.rb ⟨s.base,s.log,s.base + Rmp.sizeOf s.log⟩ []
  range : RangeFits s.ri
  slots : s.ri.configMaxReaders.toNat ≤ 32767

section
variable {size : RingSize} {s t : State} {action : Action} {ri : Rmp.ReaderInfo}

def TableFits (ri : Rmp.ReaderInfo) : Prop := RangeFits ri ∧ ri.configMaxReaders.toNat ≤ 32767

theorem updateActiveRange_fits (slots : ri.configMaxReaders.toNat ≤ 32767) : TableFits ri.updateActiveRange := by
  obtain ⟨⟨low,high⟩,_⟩ := scan_prefix (fun i => (ri.info i).isActive) ri.configMaxReaders.toNat
    ri.configMaxReaders.toNat le_rfl
  change ri.scan.1 ≤ _ at low
  change ri.scan.2 = 0 ∨ ri.scan.2 < _ at high
  have packed : ri.updateActiveRange.getActiveRange = (ri.scan.1,ri.scan.2 + 1) :=
    unpackRange_packRange (by omega) (by omega)
  refine ⟨?_,slots⟩
  rw [RangeFits,packed]
  dsimp only
  omega

theorem activate_fits (fits : TableFits ri) (readerId : ReaderId) (pos : Position) :
    TableFits (ri.activate readerId pos) := by
  cases readerId with
  | none => exact fits
  | some i => exact updateActiveRange_fits fits.2

theorem deactivate_fits (fits : TableFits ri) (readerId : ReaderId) : TableFits (ri.deactivate readerId) := by
  cases readerId with
  | none => exact fits
  | some i => exact updateActiveRange_fits fits.2

theorem alloc_fits (fits : TableFits ri) (self : Owner) : TableFits (ri.alloc self).2 := by
  unfold Rmp.ReaderInfo.alloc
  split
  next => exact updateActiveRange_fits fits.2
  next => exact fits

theorem free_fits (fits : TableFits ri) (readerId : ReaderId) : TableFits (ri.free readerId) := by
  cases readerId with
  | none => exact fits
  | some i => exact deactivate_fits fits (some i)

theorem Inv.table (inv : Inv size s) (fits : TableFits ri) : Inv size { s with ri := ri } := by
  exact ⟨inv.represents,fits.1,fits.2⟩

theorem Inv.write {self : Owner} {data : List UInt8} {answers : List BpAnswer} {out : WriteExOutcome}
    (inv : Inv size s) (legal : Legal size.bytes data)
    (done : Rmp.Writer.writeEx self s.rb (fun _ => s.ri) data answers = some out)
    (stepped : write size s data out = some t) : Inv size t := by
  unfold Interchange.write at stepped
  split at stepped
  next => contradiction
  next =>
    obtain rfl := Option.some.inj stepped
    exact ⟨represents_ended inv.represents legal done,inv.range,inv.slots⟩

theorem Inv.step (moderate : size.bytes ≤ 2^30) (inv : Inv size s) (stepped : next size s action = some t) :
    Inv size t := by
  have table : TableFits s.ri := ⟨inv.range,inv.slots⟩
  cases action with
  | writeEx language self data answers =>
    simp only [next] at stepped
    split at stepped
    next legal =>
      have few : data.length < 2^31 := by
        have := legal.1
        omega
      rw [writeEx_eq inv.represents.config moderate inv.range few] at stepped
      cases language <;>
      · obtain ⟨out,done,stepped⟩ := Option.bind_eq_some_iff.mp stepped
        exact inv.write legal done stepped
    next => contradiction
  | readEx language i copy passes pos =>
    obtain ⟨out,_,rfl⟩ := Option.map_eq_some_iff.mp stepped
    refine inv.table ⟨?_,?_⟩
    · split <;> exact inv.range
    · split <;> exact inv.slots
  | alloc language self =>
    cases language <;> obtain rfl := Option.some.inj stepped
    · exact inv.table (alloc_fits table self)
    · rw [alloc_eq]
      exact inv.table (alloc_fits table self)
  | free language readerId =>
    cases language <;> obtain rfl := Option.some.inj stepped
    · exact inv.table (free_fits table readerId)
    · rw [free_eq]
      exact inv.table (free_fits table readerId)
  | activate language readerId pos =>
    cases language <;> obtain rfl := Option.some.inj stepped
    · exact inv.table (activate_fits table readerId pos)
    · rw [activate_eq]
      exact inv.table (activate_fits table readerId pos)
  | deactivate language readerId =>
    cases language <;> obtain rfl := Option.some.inj stepped
    · exact inv.table (deactivate_fits table readerId)
    · rw [deactivate_eq]
      exact inv.table (deactivate_fits table readerId)

/-- Whatever calls of both implementations have been made, one attempt to write decides and stores
the same in both, and a read from a record boundary ends alike and confirms the same messages. -/
theorem implementations_agree {maxReaders : BitVec 16} (moderate : size.bytes ≤ 2^30)
    (slots : maxReaders.toNat ≤ 32767) (reached : Reachable (sys size maxReaders) s) :
    (∀ data readerBP skipConsPos, data.length < 2^31 →
      Writer.write s.rb s.ri data readerBP skipConsPos = Rmp.Writer.write s.rb s.ri data readerBP skipConsPos) ∧
    ∀ before rest copy bpos bpos', s.log = before ++ rest → Rmp.sizeOf rest < 2^64 →
      let pos := BitVec.ofNat 64 (s.base + Rmp.sizeOf before)
      ∃ passes out out', Reader.readEx copy s.rb passes pos bpos = some out ∧
        Rmp.Reader.readEx copy s.rb passes pos bpos' = some out' ∧ SameRead out out' := by
  have inv : Inv size s := by
    refine reached.invariant (Inv size) ?_ (fun _ _ _ inv => inv.step moderate)
    intro s ⟨config,base,log,table⟩
    have fresh := Represents.fresh s.rb config
    refine ⟨?_,?_,?_⟩
    · rwa [log,base]
    · have empty : (Rmp.ReaderInfo.create maxReaders).getActiveRange = (0,0) := by
        simp [Rmp.ReaderInfo.create,Rmp.ReaderInfo.getActiveRange,unpackRange]
      rw [table,RangeFits,empty]
      decide
    · rwa [table]
  constructor
  · intro data readerBP skipConsPos few
    exact write_eq inv.represents.config moderate inv.range few readerBP skipConsPos
  · intro before rest copy bpos bpos' split near
    exact ⟨_,readEx_eq copy (by omega) inv.represents split rfl near le_rfl bpos bpos'⟩

end

/-- One implementation writes two messages that leave one byte at the end of the buffer, the other
skips it with a third message. -/
theorem implementations_agree_wrapped : ∃ s, Reachable (sys ring16 2) s ∧
    Writer.write s.rb s.ri [7] true none = Rmp.Writer.write s.rb s.ri [7] true none ∧
    ∃ passes out out', Reader.readEx (fun _ => true) s.rb passes 8 0 = some out ∧
      Rmp.Reader.readEx (fun _ => true) s.rb passes 8 0 = some out' ∧ SameRead out out' := by
  obtain ⟨s,reached,seen⟩ := exec_reaches (sys ring16 2) (fun _ _ => true) (next ring16)
    (fun _ _ _ taken => taken) (s := ⟨ByteRingBuffer.create ring16.position (fun _ => 0),.create 2,0,[]⟩)
    ⟨rfl,rfl,rfl,rfl⟩
    [.writeEx .cpp 0 [1,2,3] [],.activate .java (some 1) 8,.writeEx .cpp 0 [4,5] [],.writeEx .java 1 [6] []]
    (fun s => (s.base,s.log)) (0,[.msg [1,2,3],.msg [4,5],.blank 1,.msg [6]]) (by decide +kernel)
  obtain ⟨base,log⟩ := Prod.mk.inj seen
  obtain ⟨writes,reads⟩ := implementations_agree (by decide) (by decide) reached.unrestrict
  refine ⟨s,reached.unrestrict,writes [7] true none (by decide),?_⟩
  have read := reads [.msg [1,2,3]] [.msg [4,5],.blank 1,.msg [6]] (fun _ => true) 0 0 log (by decide)
  rwa [base] at read

end Interchange
end Toroni.Java
