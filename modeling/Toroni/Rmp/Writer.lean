import Toroni.Rmp.Ledger
import Toroni.Rmp.ReaderInfo

/-! The stream writer: layout of a message at `freePos`, backpressure detection,
one attempt to write, and the retry loop under the writer mutex. -/
namespace Toroni.Rmp
open Traits

namespace Writer

def getMaxMessageSize (rb : ByteRingBuffer) : Position :=
  rb.configBufSizeBytes - BitVec.ofNat 64 MsgHeader.size

structure Layout where
  bufIndex : Position
  lengthToBufEnd : Position
  bytesToWrite : Position
  addPadding : Bool
  addBlank : Bool

def layout (rb : ByteRingBuffer) (dataSize : Position) : Layout :=
  let bufIndex := Rmp.bufIndex (indexMask rb.configBufSizeBytes) rb.freePos
  let lengthToBufEnd := rb.configBufSizeBytes - bufIndex
  let bytesToWrite := BitVec.ofNat 64 MsgHeader.size + dataSize
  if lengthToBufEnd < BitVec.ofNat 64 MsgHeader.size then
    ⟨bufIndex,lengthToBufEnd,bytesToWrite + lengthToBufEnd,false,true⟩
  else if lengthToBufEnd < dataSize + BitVec.ofNat 64 MsgHeader.size then
    ⟨bufIndex,lengthToBufEnd,bytesToWrite + lengthToBufEnd,true,false⟩
  else ⟨bufIndex,lengthToBufEnd,bytesToWrite,false,false⟩

def slotBackpressure (rb : ByteRingBuffer) (n : Position) (skipConsPos : Option Position)
    (isActive : Bool) (readerPos : Position) : Bool :=
  isActive && !expired readerPos rb.freePos rb.configBufSizeBytes &&
    (skipConsPos.all (fun skip => greaterThan readerPos skip)) &&
    expired readerPos (rb.freePos + n) rb.configBufSizeBytes

/-- Expects every slot of the active range to be below `configMaxReaders`, as `Get` asserts. -/
def detectReaderBackpressure (rb : ByteRingBuffer) (info : ReaderInfo) (n : Position)
    (skipConsPos : Option Position) : Option Position :=
  let (min,max) := info.getActiveRange
  (List.range' min (max - min)).findSome? (fun i =>
    if slotBackpressure rb n skipConsPos (info.info i).isActive (info.info i).position
    then some (info.info i).position else none)

def append (rb : ByteRingBuffer) (data : List UInt8) (l : Layout) : ByteRingBuffer :=
  let tail : ByteRingBuffer × Nat :=
    if l.addPadding then
      let header : MsgHeader :=
        ⟨MsgHeader.PADDING,(l.lengthToBufEnd - BitVec.ofNat 64 MsgHeader.size).toNat⟩
      ((rb.put l.bufIndex.toNat header.bytes).addFreePos l.lengthToBufEnd,0)
    else if l.addBlank then (rb.addFreePos l.lengthToBufEnd,0)
    else (rb,l.bufIndex.toNat)
  let rbHeader : MsgHeader := ⟨MsgHeader.MSG,data.length⟩
  ((tail.1.put tail.2 rbHeader.bytes).put (tail.2 + MsgHeader.size) data).addFreePos
    (BitVec.ofNat 64 (MsgHeader.size + data.length))

inductive WriteResult
  | written (rb : ByteRingBuffer)
  | backpressure (pos : Position)
  | assertionFailed

def write (rb : ByteRingBuffer) (info : ReaderInfo) (data : List UInt8) (readerBP : Bool)
    (skipConsPos : Option Position) : WriteResult :=
  let dataSize := BitVec.ofNat 64 data.length
  if getMaxMessageSize rb < dataSize then .assertionFailed
  else
    let l := layout rb dataSize
    let readerBpPos :=
      if readerBP then detectReaderBackpressure rb info l.bytesToWrite skipConsPos else none
    match readerBpPos with
    | some pos => .backpressure pos
    | none => .written (append rb data l)

def stores (rb : ByteRingBuffer) (data : List UInt8) : List Store :=
  let l := layout rb (BitVec.ofNat 64 data.length)
  if l.addPadding then
    recordStores l.bufIndex.toNat
        (.padding (l.lengthToBufEnd - BitVec.ofNat 64 MsgHeader.size).toNat) ++
      recordStores 0 (.msg data)
  else if l.addBlank then
    recordStores l.bufIndex.toNat (.blank l.lengthToBufEnd.toNat) ++ recordStores 0 (.msg data)
  else recordStores l.bufIndex.toNat (.msg data)

inductive BpAnswer
  | returns (continueRunning : Bool)
  | throws
  deriving DecidableEq

inductive WriteExResult
  | returned
  | threw
  | assertionFailed
  | running
  deriving DecidableEq

structure WriteExOutcome where
  result : WriteExResult
  rb : ByteRingBuffer
  handlerCalls : List Position

/-- The retry loop. Attempt `k` sees the reader table `infos k`, and the handler gives the
answers in order; with no answer left the call is still running. -/
def retry (rb : ByteRingBuffer) (infos : Nat → ReaderInfo) (data : List UInt8) :
    List BpAnswer → List Position → WriteExOutcome
  | answers, calls =>
    match write rb (infos 0) data true none with
    | .assertionFailed => ⟨.assertionFailed,rb,calls⟩
    | .written rb' => ⟨.returned,rb',calls⟩
    | .backpressure _ =>
      let rb := rb.countBackPressure
      match answers with
      | [] => ⟨.running,rb,calls⟩
      | .throws :: _ => ⟨.threw,rb,calls ++ [rb.freePos]⟩
      | .returns true :: rest => retry rb (fun k => infos (k + 1)) data rest (calls ++ [rb.freePos])
      | .returns false :: _ =>
        match write rb (infos 1) data false none with
        | .written rb' => ⟨.returned,rb',calls ++ [rb.freePos]⟩
        | _ => ⟨.assertionFailed,rb,calls ++ [rb.freePos]⟩

def WriteExOutcome.leave (out : WriteExOutcome) : WriteExOutcome :=
  if out.result = .returned ∨ out.result = .threw then
    { out with rb := out.rb.setWriterMtx out.rb.writerMtx.unlock }
  else out

/-- `none` while another owner holds the writer mutex. -/
def writeEx (self : Owner) (rb : ByteRingBuffer) (infos : Nat → ReaderInfo) (data : List UInt8)
    (answers : List BpAnswer) : Option WriteExOutcome :=
  (rb.writerMtx.lock self).map (fun mtx =>
    (retry (rb.setWriterMtx mtx) infos data answers []).leave)

def Legal (B : Nat) (data : List UInt8) : Prop :=
  MsgHeader.size + data.length ≤ B ∧ data.length < 2^32

instance (B : Nat) (data : List UInt8) : Decidable (Legal B data) :=
  inferInstanceAs (Decidable (_ ∧ _))

def appended (B f : Nat) (data : List UInt8) : List Record :=
  let tail := B - f % B
  if tail < MsgHeader.size then [.blank tail,.msg data]
  else if tail < MsgHeader.size + data.length then [.padding (tail - MsgHeader.size),.msg data]
  else [.msg data]

section
variable {size : RingSize} {rb : ByteRingBuffer} {f : Nat} {data : List UInt8}

theorem messages_appended (B f : Nat) (data : List UInt8) : messages (appended B f data) = [data] := by
  unfold appended
  dsimp only
  split
  · rfl
  · split <;> rfl

theorem sizeOf_appended (B f : Nat) (data : List UInt8) :
    sizeOf (appended B f data) = MsgHeader.size + data.length +
      (if B - f % B < MsgHeader.size + data.length then B - f % B else 0) := by
  unfold appended
  dsimp only
  split
  · rw [if_pos (by omega)]
    simp [Record.size]
    omega
  · split
    · simp [Record.size]
      omega
    · simp [Record.size]

theorem sizeOf_appended_lt {B : Nat} (f : Nat) (legal : Legal B data) :
    sizeOf (appended B f data) < 2^34 ∧ 0 < sizeOf (appended B f data) := by
  have narrow := legal.2
  rw [sizeOf_appended,MsgHeader.size]
  by_cases wraps : B - f % B < 5 + data.length
  · rw [if_pos wraps]
    omega
  · rw [if_neg wraps]
    omega

theorem logFits_appended {B : Nat} (positive : 0 < B) (legal : Legal B data) :
    LogFits B f (appended B f data) := by
  obtain ⟨short,narrow⟩ := legal
  have inside := Nat.mod_lt f positive
  have whole := Nat.mod_add_div f B
  have wraps : (f + (B - f % B)) % B = 0 := by
    rw [show f + (B - f % B) = B * (f / B + 1) by rw [Nat.mul_add]; omega,Nat.mul_mod_right]
  unfold appended
  dsimp only
  split
  next small =>
    refine ⟨⟨by omega,small⟩,⟨?_,narrow⟩,trivial⟩
    simp only [Record.size,wraps]
    omega
  next large =>
    split
    next padded =>
      refine ⟨⟨by omega,by omega⟩,⟨?_,narrow⟩,trivial⟩
      simp only [Record.size]
      rw [show f + (MsgHeader.size + (B - f % B - MsgHeader.size)) = f + (B - f % B) by omega,wraps]
      omega
    next => exact ⟨⟨by omega,narrow⟩,trivial⟩

private theorem ofNat_lt_ofNat {a b : Nat} (fitsLeft : a < 2^64) (fitsRight : b < 2^64) :
    BitVec.ofNat 64 a < BitVec.ofNat 64 b ↔ a < b := by
  rw [BitVec.lt_def,BitVec.toNat_ofNat,BitVec.toNat_ofNat,Nat.mod_eq_of_lt fitsLeft,
    Nat.mod_eq_of_lt fitsRight]

private theorem ofNat_sub_ofNat {a b : Nat} (order : b ≤ a) (fits : a < 2^64) :
    BitVec.ofNat 64 a - BitVec.ofNat 64 b = BitVec.ofNat 64 (a - b) := by
  apply BitVec.eq_of_toNat_eq
  rw [BitVec.toNat_sub_of_le (by rw [BitVec.le_def,BitVec.toNat_ofNat,BitVec.toNat_ofNat]; omega)]
  simp only [BitVec.toNat_ofNat]
  omega

/-- What the writer computes from the counters is the real layout at the stream end. -/
theorem layout_eq (config : rb.configBufSizeBytes = size.position)
    (free : rb.freePos = BitVec.ofNat 64 f) (narrow : data.length < 2^32) :
    let tail := size.bytes - f % size.bytes
    layout rb (BitVec.ofNat 64 data.length) =
      ⟨BitVec.ofNat 64 (f % size.bytes),BitVec.ofNat 64 tail,
        BitVec.ofNat 64 (sizeOf (appended size.bytes f data)),
        decide (MsgHeader.size ≤ tail ∧ tail < MsgHeader.size + data.length),
        decide (tail < MsgHeader.size)⟩ := by
  intro tail
  have bounds := size.bounds
  have inside := size.mod_lt f
  have index : bufIndex (indexMask rb.configBufSizeBytes) rb.freePos =
      BitVec.ofNat 64 (f % size.bytes) := by
    apply BitVec.eq_of_toNat_eq
    rw [config,free,bufIndex_ofNat,BitVec.toNat_ofNat]
    omega
  have rest : rb.configBufSizeBytes - BitVec.ofNat 64 (f % size.bytes) = BitVec.ofNat 64 tail := by
    rw [config,RingSize.position,ofNat_sub_ofNat (by omega) (by omega)]
  have small : BitVec.ofNat 64 tail < BitVec.ofNat 64 MsgHeader.size ↔ tail < MsgHeader.size :=
    ofNat_lt_ofNat (by omega) (by decide)
  have large : BitVec.ofNat 64 tail < BitVec.ofNat 64 (data.length + MsgHeader.size) ↔
      tail < data.length + MsgHeader.size :=
    ofNat_lt_ofNat (by omega) (by simp only [MsgHeader.size]; omega)
  unfold layout
  simp only [index,rest,SerialNumber.ofNat_add_ofNat,sizeOf_appended,small,large]
  by_cases small : tail < MsgHeader.size
  · have wraps : tail < MsgHeader.size + data.length := by omega
    have short : ¬ MsgHeader.size ≤ tail := by omega
    simp only [small,wraps,short,if_true,false_and,decide_false,decide_true,tail]
  · by_cases padded : tail < data.length + MsgHeader.size
    · have wraps : tail < MsgHeader.size + data.length := by omega
      have room : MsgHeader.size ≤ tail := by omega
      simp [small,wraps,room,padded,tail]
    · have fits : ¬ tail < MsgHeader.size + data.length := by omega
      simp [small,fits,padded,tail]

theorem stores_eq (config : rb.configBufSizeBytes = size.position)
    (free : rb.freePos = BitVec.ofNat 64 f) (narrow : data.length < 2^32) :
    stores rb data = logStores size.bytes f (appended size.bytes f data) := by
  have bounds := size.bounds
  have inside := size.mod_lt f
  have whole := Nat.mod_add_div f size.bytes
  have wraps : (f + (size.bytes - f % size.bytes)) % size.bytes = 0 := by
    rw [show f + (size.bytes - f % size.bytes) = size.bytes * (f / size.bytes + 1) by
      rw [Nat.mul_add]; omega,Nat.mul_mod_right]
  have small (n : Nat) (fits : n < 2^64) : (BitVec.ofNat 64 n).toNat = n := by
    rw [BitVec.toNat_ofNat,Nat.mod_eq_of_lt fits]
  simp only [stores,layout_eq config free narrow,appended]
  by_cases blank : size.bytes - f % size.bytes < MsgHeader.size
  · have short : ¬ MsgHeader.size ≤ size.bytes - f % size.bytes := by omega
    simp only [blank,short,false_and,decide_false,decide_true,if_true,Bool.false_eq_true,if_false,
      logStores,Record.size,wraps,List.append_nil]
    rw [small _ (by omega),small _ (by omega)]
  · have room : MsgHeader.size ≤ size.bytes - f % size.bytes := by omega
    by_cases padded : size.bytes - f % size.bytes < MsgHeader.size + data.length
    · simp only [blank,room,padded,and_self,decide_true,if_true,if_false,logStores,Record.size,
        List.append_nil]
      rw [ofNat_sub_ofNat room (by omega),small _ (by omega),small _ (by omega),
        show f + (MsgHeader.size + (size.bytes - f % size.bytes - MsgHeader.size)) =
          f + (size.bytes - f % size.bytes) by omega,wraps]
    · simp only [blank,padded,and_false,decide_false,Bool.false_eq_true,if_false,logStores,
        List.append_nil]
      rw [small _ (by omega)]

theorem append_eq (config : rb.configBufSizeBytes = size.position)
    (free : rb.freePos = BitVec.ofNat 64 f) (narrow : data.length < 2^32) :
    append rb data (layout rb (BitVec.ofNat 64 data.length)) = Store.run rb (stores rb data) := by
  have bounds := size.bounds
  have header : (MsgHeader.mk MsgHeader.MSG data.length).bytes.length = MsgHeader.size :=
    MsgHeader.length_bytes _
  simp only [append,stores,layout_eq config free narrow]
  have body (rb : ByteRingBuffer) (index : Nat) :
      (rb.put index (MsgHeader.mk MsgHeader.MSG data.length).bytes).put
        (index + MsgHeader.size) data = rb.put index (Record.msg data).bytes :=
    header ▸ rb.put_put index (MsgHeader.mk MsgHeader.MSG data.length).bytes data
  by_cases blank : size.bytes - f % size.bytes < MsgHeader.size
  · have short : ¬ MsgHeader.size ≤ size.bytes - f % size.bytes := by omega
    simp only [blank,short,false_and,decide_false,decide_true,if_true,Bool.false_eq_true,if_false,
      Store.run_append,run_recordStores,body,Record.bytes,Record.size,ByteRingBuffer.put_nil]
    rw [BitVec.toNat_ofNat,Nat.mod_eq_of_lt (show size.bytes - f % size.bytes < 2^64 by omega)]
  · have room : MsgHeader.size ≤ size.bytes - f % size.bytes := by omega
    by_cases padded : size.bytes - f % size.bytes < MsgHeader.size + data.length
    · simp only [room,padded,and_self,decide_true,if_true,Store.run_append,run_recordStores,body]
      rw [ofNat_sub_ofNat room (by omega)]
      have tail : MsgHeader.size + (BitVec.ofNat 64
          (size.bytes - f % size.bytes - MsgHeader.size)).toNat = size.bytes - f % size.bytes := by
        rw [BitVec.toNat_ofNat]
        omega
      simp only [Record.bytes,Record.size,tail]
    · simp only [blank,padded,and_false,decide_false,Bool.false_eq_true,if_false,run_recordStores,body]
      rfl

theorem toNat_getMaxMessageSize (config : rb.configBufSizeBytes = size.position) :
    (getMaxMessageSize rb).toNat = size.bytes - MsgHeader.size := by
  have bounds := size.bounds
  rw [getMaxMessageSize,config,RingSize.position,
    ofNat_sub_ofNat (by simp only [MsgHeader.size]; omega) (by omega),BitVec.toNat_ofNat]
  omega

theorem not_exceeds (config : rb.configBufSizeBytes = size.position)
    (legal : Legal size.bytes data) :
    ¬ getMaxMessageSize rb < BitVec.ofNat 64 data.length := by
  obtain ⟨short,narrow⟩ := legal
  rw [BitVec.lt_def,toNat_getMaxMessageSize config,BitVec.toNat_ofNat]
  omega

theorem write_eq (config : rb.configBufSizeBytes = size.position)
    (free : rb.freePos = BitVec.ofNat 64 f) (legal : Legal size.bytes data) (info : ReaderInfo)
    (readerBP : Bool) (skipConsPos : Option Position) :
    write rb info data readerBP skipConsPos =
      match if readerBP then detectReaderBackpressure rb info
          (BitVec.ofNat 64 (sizeOf (appended size.bytes f data))) skipConsPos else none with
      | some pos => .backpressure pos
      | none => .written (Store.run rb (logStores size.bytes f (appended size.bytes f data))) := by
  simp only [write,if_neg (not_exceeds config legal),append_eq config free legal.2,
    stores_eq config free legal.2]
  rw [layout_eq config free legal.2]

/-- A slot at or behind the stream end stops the scan if it is less than a revolution behind
and would no longer be with `n` more bytes. -/
theorem slotBackpressure_iff {p n : Nat} (config : rb.configBufSizeBytes = size.position)
    (free : rb.freePos = BitVec.ofNat 64 f) (order : p ≤ f) (near : f ≤ p + size.bytes + 2^63)
    (positive : 0 < n) (few : n < 2^62) :
    slotBackpressure rb (BitVec.ofNat 64 n) none true (BitVec.ofNat 64 p) = true ↔
      f < p + size.bytes ∧ p + size.bytes ≤ f + n := by
  have bounds := size.bounds
  simp only [slotBackpressure,config,free,SerialNumber.ofNat_add_ofNat,Option.all_none,Bool.and_true,
    Bool.true_and,Bool.and_eq_true,Bool.not_eq_true']
  constructor
  · rintro ⟨live,gone⟩
    have inside := lt_of_not_expired size order near live
    exact ⟨inside,(expired_behind size (by omega) (by omega)).mp gone⟩
  · rintro ⟨inside,full⟩
    refine ⟨?_,(expired_behind size (by omega) (by omega)).mpr full⟩
    rw [Bool.eq_false_iff]
    intro gone
    have := (expired_iff size (by omega) (by omega)).mp gone
    omega

theorem slotBackpressure_distance {n : Nat} {pos : Position} (config : rb.configBufSizeBytes = size.position)
    (positive : 0 < n) (few : n < 2^62) (fits : n < size.bytes) :
    slotBackpressure rb (BitVec.ofNat 64 n) none true pos = true ↔
      (rb.freePos - pos).toNat < size.bytes ∧ size.bytes ≤ (rb.freePos - pos).toNat + n := by
  have bounds := size.bounds
  have distance := (rb.freePos - pos).isLt
  by_cases near : (rb.freePos - pos).toNat ≤ size.bytes + 2^63
  · have own := slotBackpressure_iff (p := pos.toNat) (n := n) config (eq_ofNat_distance pos rb.freePos)
      (Nat.le_add_right _ _) (by omega) positive few
    rw [BitVec.ofNat_toNat,BitVec.setWidth_eq] at own
    rw [own]
    omega
  · have ahead : ¬ expired pos (rb.freePos + BitVec.ofNat 64 n) size.position = true := by
      have value : (pos + size.position - (rb.freePos + BitVec.ofNat 64 n)).toNat =
          (size.bytes + (2^64 - (rb.freePos - pos).toNat) + (2^64 - n)) % 2^64 := by
        have := size.toNat_position
        have := pos.isLt
        have := rb.freePos.isLt
        simp only [BitVec.toNat_sub,BitVec.toNat_add,BitVec.toNat_ofNat] at near distance ⊢
        omega
      simp only [expired,greaterOrEqualThan,decide_eq_true_eq,toInt_nonpos_iff,value]
      omega
    simp only [slotBackpressure,config,Bool.and_eq_true]
    exact ⟨fun stops => absurd stops.2 ahead,fun inside => by omega⟩

theorem detectReaderBackpressure_eq_none {info : ReaderInfo} {n : Position}
    {skipConsPos : Option Position} :
    detectReaderBackpressure rb info n skipConsPos = none ↔
      ∀ i, info.getActiveRange.1 ≤ i → i < info.getActiveRange.2 →
        slotBackpressure rb n skipConsPos (info.info i).isActive (info.info i).position = false := by
  simp only [detectReaderBackpressure,List.findSome?_eq_none_iff,List.mem_range'_1]
  constructor
  · intro none i low high
    have checked := none i ⟨low,by omega⟩
    by_contra some
    simp [some] at checked
  · intro none i inside
    rw [none i inside.1 (by omega)]
    rfl

end

structure SameStream (rb rb' : ByteRingBuffer) : Prop where
  config : rb'.configBufSizeBytes = rb.configBufSizeBytes
  freePos : rb'.freePos = rb.freePos
  data : rb'.data = rb.data

section
variable {size : RingSize} {rb rb' : ByteRingBuffer} {f : Nat} {data : List UInt8}

theorem SameStream.rfl : SameStream rb rb := by
  exact ⟨Eq.refl _,Eq.refl _,Eq.refl _⟩

theorem SameStream.trans {rb'' : ByteRingBuffer} (first : SameStream rb rb')
    (second : SameStream rb' rb'') : SameStream rb rb'' := by
  exact ⟨second.config.trans first.config,second.freePos.trans first.freePos,second.data.trans first.data⟩

theorem SameStream.apply (same : SameStream rb rb') (op : Store) :
    SameStream (op.apply rb) (op.apply rb') := by
  cases op with
  | bytes index cells => exact ⟨same.config,same.freePos,by simp [Store.apply,ByteRingBuffer.put,same.data]⟩
  | freePos n r => exact ⟨same.config,by simp [Store.apply,ByteRingBuffer.addFreePos,same.freePos],same.data⟩

theorem SameStream.run (same : SameStream rb rb') (ops : List Store) :
    SameStream (Store.run rb ops) (Store.run rb' ops) := by
  induction ops generalizing rb rb' with
  | nil => exact same
  | cons op ops ih => exact ih (same.apply op)

theorem SameStream.represents {g : Ledger} {pending : List UInt8} (same : SameStream rb rb')
    (rep : Represents size rb g pending) : Represents size rb' g pending where
  config := same.config.trans rep.config
  freePos := same.freePos.trans rep.freePos
  laid := same.data ▸ rep.laid
  begun := same.data ▸ rep.begun
  fits := rep.fits
  ahead := rep.ahead

structure Wrote (B f : Nat) (rb : ByteRingBuffer) (data : List UInt8) (out : WriteExOutcome) : Prop where
  asserted : out.result ≠ .assertionFailed
  returned : out.result = .returned →
    SameStream (Store.run rb (logStores B f (appended B f data))) out.rb
  otherwise : out.result ≠ .returned → SameStream rb out.rb

theorem retry_wrote (config : rb.configBufSizeBytes = size.position)
    (free : rb.freePos = BitVec.ofNat 64 f) (legal : Legal size.bytes data)
    (infos : Nat → ReaderInfo) (answers : List BpAnswer) (calls : List Position) :
    Wrote size.bytes f rb data (retry rb infos data answers calls) := by
  induction answers generalizing rb infos calls with
  | nil =>
    rw [retry,write_eq config free legal]
    cases detectReaderBackpressure rb (infos 0) _ none with
    | none => exact ⟨by simp,fun _ => .rfl,by simp⟩
    | some pos => exact ⟨by simp,by simp,fun _ => ⟨Eq.refl _,Eq.refl _,Eq.refl _⟩⟩
  | cons answer answers ih =>
    rw [retry,write_eq config free legal]
    cases detectReaderBackpressure rb (infos 0) _ none with
    | none => exact ⟨by simp,fun _ => .rfl,by simp⟩
    | some pos =>
      have counted : SameStream rb rb.countBackPressure := ⟨Eq.refl _,Eq.refl _,Eq.refl _⟩
      match answer with
      | .throws => exact ⟨by simp,by simp,fun _ => counted⟩
      | .returns true =>
        have rest := ih (show rb.countBackPressure.configBufSizeBytes = size.position from config) free
          (fun k => infos (k + 1)) (calls ++ [rb.freePos])
        exact ⟨rest.asserted,fun done => (counted.run _).trans (rest.returned done),
          fun other => counted.trans (rest.otherwise other)⟩
      | .returns false =>
        simp only [if_true]
        rw [write_eq (show rb.countBackPressure.configBufSizeBytes = size.position from config)
          free legal]
        exact ⟨by simp,fun _ => counted.run _,by simp⟩

theorem WriteExOutcome.leave_same (out : WriteExOutcome) :
    out.leave.result = out.result ∧ SameStream out.rb out.leave.rb := by
  unfold WriteExOutcome.leave
  split <;> exact ⟨Eq.refl _,Eq.refl _,Eq.refl _,Eq.refl _⟩

theorem writeEx_unlocks {self : Owner} {infos : Nat → ReaderInfo} {answers : List BpAnswer}
    {out : WriteExOutcome} (done : writeEx self rb infos data answers = some out)
    (ended : out.result = .returned ∨ out.result = .threw) : out.rb.writerMtx = .unlocked := by
  obtain ⟨mtx,_,rfl⟩ := Option.map_eq_some_iff.mp done
  rw [(WriteExOutcome.leave_same _).1] at ended
  rw [WriteExOutcome.leave,if_pos ended]
  rfl

/-- `WriteEx` appends the records of the message, or leaves the stream as it was. -/
theorem writeEx_wrote {self : Owner} {infos : Nat → ReaderInfo} {answers : List BpAnswer}
    {out : WriteExOutcome} (config : rb.configBufSizeBytes = size.position)
    (free : rb.freePos = BitVec.ofNat 64 f) (legal : Legal size.bytes data)
    (done : writeEx self rb infos data answers = some out) : Wrote size.bytes f rb data out := by
  obtain ⟨mtx,_,rfl⟩ := Option.map_eq_some_iff.mp done
  have locked : SameStream rb (rb.setWriterMtx mtx) := ⟨Eq.refl _,Eq.refl _,Eq.refl _⟩
  have rest := retry_wrote (show (rb.setWriterMtx mtx).configBufSizeBytes = size.position from config)
    free legal infos answers []
  have left := WriteExOutcome.leave_same (retry (rb.setWriterMtx mtx) infos data answers [])
  refine ⟨?_,?_,?_⟩
  · rw [left.1]
    exact rest.asserted
  · rw [left.1]
    exact fun ends => ((locked.run _).trans (rest.returned ends)).trans left.2
  · rw [left.1]
    exact fun ends => (locked.trans (rest.otherwise ends)).trans left.2

theorem retry_calls (rb : ByteRingBuffer) (infos : Nat → ReaderInfo) (data : List UInt8)
    (answers : List BpAnswer) (calls : List Position) :
    calls <+: (retry rb infos data answers calls).handlerCalls := by
  induction answers generalizing rb infos calls with
  | nil =>
    rw [retry]
    cases write rb (infos 0) data true none with
    | assertionFailed | written | backpressure => exact List.prefix_rfl
  | cons answer answers ih =>
    rw [retry]
    cases write rb (infos 0) data true none with
    | assertionFailed | written => exact List.prefix_rfl
    | backpressure pos =>
      match answer with
      | .throws => exact List.prefix_append _ _
      | .returns true => exact (List.prefix_append _ _).trans (ih ..)
      | .returns false =>
        dsimp only
        split <;> exact List.prefix_append _ _

theorem retry_asked {infos : Nat → ReaderInfo} {answers : List BpAnswer} {calls : List Position}
    {pos : Position} (detected : write rb (infos 0) data true none = .backpressure pos) :
    (retry rb infos data answers calls).result = .running ∨
      calls.length < (retry rb infos data answers calls).handlerCalls.length := by
  unfold retry
  rw [detected]
  match answers with
  | [] => exact Or.inl (Eq.refl _)
  | .throws :: _ => exact Or.inr (by simp)
  | .returns true :: rest =>
    have more := (retry_calls rb.countBackPressure (fun k => infos (k + 1)) data rest
      (calls ++ [rb.countBackPressure.freePos])).length_le
    rw [List.length_append,List.length_singleton] at more
    exact Or.inr more
  | .returns false :: _ =>
    refine Or.inr ?_
    dsimp only
    split <;> simp

/-- A call of `WriteEx` that ends has not called the handler exactly if its first attempt
detected no backpressure; it has returned then. -/
theorem writeEx_quiet {self : Owner} {infos : Nat → ReaderInfo} {answers : List BpAnswer}
    {out : WriteExOutcome} (config : rb.configBufSizeBytes = size.position)
    (free : rb.freePos = BitVec.ofNat 64 f) (legal : Legal size.bytes data)
    (done : writeEx self rb infos data answers = some out) :
    (out.result ≠ .running → out.handlerCalls = [] →
      detectReaderBackpressure rb (infos 0) (BitVec.ofNat 64 (sizeOf (appended size.bytes f data))) none = none) ∧
    (detectReaderBackpressure rb (infos 0) (BitVec.ofNat 64 (sizeOf (appended size.bytes f data))) none = none →
      out.result = .returned ∧ out.handlerCalls = []) := by
  obtain ⟨mtx,_,rfl⟩ := Option.map_eq_some_iff.mp done
  have attempt := write_eq (show (rb.setWriterMtx mtx).configBufSizeBytes = size.position from config)
    free legal (infos 0) true none
  have same : detectReaderBackpressure (rb.setWriterMtx mtx) (infos 0)
      (BitVec.ofNat 64 (sizeOf (appended size.bytes f data))) none =
    detectReaderBackpressure rb (infos 0) (BitVec.ofNat 64 (sizeOf (appended size.bytes f data))) none :=
    Eq.refl _
  rw [if_pos (Eq.refl true),same] at attempt
  have left := WriteExOutcome.leave_same (retry (rb.setWriterMtx mtx) infos data answers [])
  have calls : (retry (rb.setWriterMtx mtx) infos data answers []).leave.handlerCalls =
      (retry (rb.setWriterMtx mtx) infos data answers []).handlerCalls := by
    unfold WriteExOutcome.leave
    split <;> exact Eq.refl _
  rw [left.1,calls]
  constructor
  · intro ended quiet
    cases detected : detectReaderBackpressure rb (infos 0)
        (BitVec.ofNat 64 (sizeOf (appended size.bytes f data))) none with
    | none => exact Eq.refl _
    | some pos =>
      rw [detected] at attempt
      have asked := (retry_asked attempt).resolve_left ended
      rw [quiet] at asked
      exact absurd asked (Nat.lt_irrefl 0)
  · intro detected
    rw [detected] at attempt
    rw [retry,attempt]
    exact ⟨Eq.refl _,Eq.refl _⟩

theorem represents_writeEx {g : Ledger} {self : Owner} {infos : Nat → ReaderInfo}
    {answers : List BpAnswer} {out : WriteExOutcome} (rep : Represents size rb g [])
    (quiet : g.top ≤ g.free) (legal : Legal size.bytes data)
    (done : writeEx self rb infos data answers = some out) (returned : out.result = .returned) :
    Represents size out.rb ⟨g.base,g.log ++ appended size.bytes g.free data,
      g.free + sizeOf (appended size.bytes g.free data)⟩ [] := by
  have wrote := (writeEx_wrote rep.config rep.freePos legal done).returned returned
  have fits := logFits_appended (f := g.free) (by have := size.bounds; omega) legal
  exact wrote.represents (rep.append quiet fits)

theorem represents_ended {base : Nat} {log : List Record} {self : Owner} {infos : Nat → ReaderInfo}
    {answers : List BpAnswer} {out : WriteExOutcome}
    (rep : Represents size rb ⟨base,log,base + sizeOf log⟩ []) (legal : Legal size.bytes data)
    (done : writeEx self rb infos data answers = some out) :
    let written := log ++ if out.result = .returned then appended size.bytes (base + sizeOf log) data else []
    Represents size out.rb ⟨base,written,base + sizeOf written⟩ [] := by
  intro written
  by_cases returned : out.result = .returned
  · have rep := represents_writeEx rep le_rfl legal done returned
    simp only [Ledger.free,Nat.add_assoc] at rep
    simpa only [written,if_pos returned,sizeOf_append] using rep
  · have same := (writeEx_wrote rep.config rep.freePos legal done).otherwise returned
    simpa only [written,if_neg returned,List.append_nil] using same.represents rep

theorem writeEx_freePos {g : Ledger} {self : Owner} {infos : Nat → ReaderInfo}
    {answers : List BpAnswer} {out : WriteExOutcome} (rep : Represents size rb g [])
    (quiet : g.top ≤ g.free) (legal : Legal size.bytes data)
    (done : writeEx self rb infos data answers = some out) (returned : out.result = .returned) :
    out.rb.freePos = rb.freePos + BitVec.ofNat 64 (sizeOf (appended size.bytes g.free data)) := by
  rw [(represents_writeEx rep quiet legal done returned).freePos,rep.freePos,
    SerialNumber.ofNat_add_ofNat]
  simp only [Ledger.free,sizeOf_append,Nat.add_assoc]

theorem writeEx_moved {g : Ledger} {self : Owner} {infos : Nat → ReaderInfo}
    {answers : List BpAnswer} {out : WriteExOutcome} (rep : Represents size rb g [])
    (quiet : g.top ≤ g.free) (legal : Legal size.bytes data)
    (done : writeEx self rb infos data answers = some out) (returned : out.result = .returned) :
    (out.rb.freePos - rb.freePos).toNat = sizeOf (appended size.bytes g.free data) := by
  have few := (sizeOf_appended_lt g.free legal).1
  rw [writeEx_freePos rep quiet legal done returned,BitVec.add_comm,BitVec.add_sub_cancel,
    BitVec.toNat_ofNat,Nat.mod_eq_of_lt (by omega)]

end
end Writer
end Toroni.Rmp
