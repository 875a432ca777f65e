import Toroni.Library.TwosComplement
import Toroni.Rmp.Reader
import Toroni.Rmp.Writer

/-! The Java implementation of the stream writer and reader. A `long` is a signed word of 64 bits,
an `int` one of 32 that is widened with its sign, a `short` one of 16. -/
namespace Toroni.Java
open Rmp CircularMemory LittleEndian Writer

abbrev Long := BitVec 64

namespace Util

def greaterThan (a b : Long) : Bool := (b - a).slt 0

def greaterThanOrEqualTo (a b : Long) : Bool := (b - a).sle 0

def expired (pos freePos bufSize : Long) : Bool := greaterThanOrEqualTo freePos (pos + bufSize)

def indexMask (bufSize : Long) : Long := bufSize - 1

def bufIndex (indexMask pos : Long) : Long := indexMask &&& pos

end Util

structure MessageHeader where
  type : UInt8
  length : Long
  deriving DecidableEq

namespace MessageHeader

def MESSAGE : UInt8 := 0
def PADDING : UInt8 := 1
def TYPE_OFFSET : Long := 0
def LENGTH_OFFSET : Long := 1

def size : BitVec 32 := 5

def valid (header : MessageHeader) : Bool :=
  (header.type == MESSAGE || header.type == PADDING) && header.length != 0

end MessageHeader

def setInt (rb : ByteRingBuffer) (index : Long) (value : BitVec 32) : ByteRingBuffer :=
  rb.put index.toNat (toBytes 4 value.toNat)

def setByte (rb : ByteRingBuffer) (index : Long) (value : UInt8) : ByteRingBuffer :=
  rb.put index.toNat [value]

def readMsgHeader (rb : ByteRingBuffer) (bufIndex : Long) : MessageHeader where
  type := rb.data (bufIndex + MessageHeader.TYPE_OFFSET).toNat
  length := (BitVec.ofNat 32 (ofBytes (load rb.data (bufIndex + MessageHeader.LENGTH_OFFSET).toNat 4))).signExtend 64

namespace ReaderInfo

def getActiveRange (ri : Rmp.ReaderInfo) : BitVec 16 × BitVec 16 :=
  ((ri.readersMinMax.sshiftRight 16).setWidth 16,ri.readersMinMax.setWidth 16)

def updateActiveRange (ri : Rmp.ReaderInfo) : Rmp.ReaderInfo :=
  let range := ri.scan
  { ri with readersMinMax := BitVec.ofNat 32 range.1 <<< 16 ||| BitVec.ofNat 32 (range.2 + 1) }

def activate (ri : Rmp.ReaderInfo) (readerId : ReaderId) (pos : Long) : Rmp.ReaderInfo :=
  match readerId with
  | none => ri
  | some i => updateActiveRange ((ri.setActive i true).setPosition i pos)

def deactivate (ri : Rmp.ReaderInfo) (readerId : ReaderId) : Rmp.ReaderInfo :=
  match readerId with
  | none => ri
  | some i => updateActiveRange (ri.setActive i false)

def alloc (ri : Rmp.ReaderInfo) (self : Traits.Owner) : ReaderId × Rmp.ReaderInfo :=
  match (List.range ri.configMaxReaders.toNat).find?
      (fun i => ((ri.info i).lock.tryLock self).isSome) with
  | some i => (some i,deactivate (ri.setLock i (.locked self)) (some i))
  | none => (none,ri)

def free (ri : Rmp.ReaderInfo) (readerId : ReaderId) : Rmp.ReaderInfo :=
  match readerId with
  | none => ri
  | some i => (deactivate ri (some i)).setLock i (ri.info i).lock.unlock

end ReaderInfo

namespace Writer

def getMaxMessageSize (rb : ByteRingBuffer) : Long :=
  rb.configBufSizeBytes - MessageHeader.size.signExtend 64

def layout (rb : ByteRingBuffer) (length : BitVec 32) : Layout :=
  let bufIndex := Util.bufIndex (Util.indexMask rb.configBufSizeBytes) rb.freePos
  let lengthToBufEnd := rb.configBufSizeBytes - bufIndex
  let bytesToWrite := (MessageHeader.size + length).signExtend 64
  if lengthToBufEnd.slt (MessageHeader.size.signExtend 64) then
    ⟨bufIndex,lengthToBufEnd,bytesToWrite + lengthToBufEnd,false,true⟩
  else if lengthToBufEnd.slt bytesToWrite then
    ⟨bufIndex,lengthToBufEnd,bytesToWrite + lengthToBufEnd,true,false⟩
  else ⟨bufIndex,lengthToBufEnd,bytesToWrite,false,false⟩

/-- Expects every slot of the active range to be one of the table, as `getInfo` asserts. -/
def detectReaderBackpressure (rb : ByteRingBuffer) (ri : Rmp.ReaderInfo) (n : Long)
    (skipConsPos : Option Long) : Option Long :=
  let minMax := ReaderInfo.getActiveRange ri
  (List.range (minMax.2.toInt - minMax.1.toInt).toNat).findSome? (fun (k : Nat) =>
    let readerInfo := ri.info (minMax.1.toInt + k).toNat
    if !readerInfo.isActive then none
    else if Util.expired readerInfo.position rb.freePos rb.configBufSizeBytes then none
    else if skipConsPos.all (fun skip => Util.greaterThan readerInfo.position skip) &&
        Util.expired readerInfo.position (rb.freePos + n) rb.configBufSizeBytes then
      some readerInfo.position
    else none)

def append (rb : ByteRingBuffer) (data : List UInt8) (l : Layout) : ByteRingBuffer :=
  let length := BitVec.ofNat 32 data.length
  let tail : ByteRingBuffer × Long :=
    if l.addPadding then
      let rb := setByte rb (l.bufIndex + MessageHeader.TYPE_OFFSET) MessageHeader.PADDING
      let rb := setInt rb (l.bufIndex + MessageHeader.LENGTH_OFFSET)
        ((l.lengthToBufEnd - MessageHeader.size.signExtend 64).setWidth 32)
      (rb.addFreePos l.lengthToBufEnd,0)
    else if l.addBlank then (rb.addFreePos l.lengthToBufEnd,0)
    else (rb,l.bufIndex)
  let rb := setByte tail.1 (tail.2 + MessageHeader.TYPE_OFFSET) MessageHeader.MESSAGE
  let rb := setInt rb (tail.2 + MessageHeader.LENGTH_OFFSET) length
  let rb := rb.put (tail.2 + MessageHeader.size.signExtend 64).toNat data
  rb.addFreePos ((MessageHeader.size + length).signExtend 64)

def write (rb : ByteRingBuffer) (ri : Rmp.ReaderInfo) (data : List UInt8) (readerBP : Bool)
    (skipConsPos : Option Long) : WriteResult :=
  let length := BitVec.ofNat 32 data.length
  if (getMaxMessageSize rb).slt (length.signExtend 64) then .assertionFailed
  else
    let l := layout rb length
    let readerBpPos :=
      if readerBP then detectReaderBackpressure rb ri l.bytesToWrite skipConsPos else none
    match readerBpPos with
    | some pos => .backpressure pos
    | none => .written (append rb data l)

def retry (rb : ByteRingBuffer) (ri : Rmp.ReaderInfo) (data : List UInt8) :
    List BpAnswer → List Long → WriteExOutcome
  | answers, calls =>
    match write rb ri data true none with
    | .assertionFailed => ⟨.assertionFailed,rb,calls⟩
    | .written rb' => ⟨.returned,rb',calls⟩
    | .backpressure _ =>
      let rb := rb.countBackPressure
      match answers with
      | [] => ⟨.running,rb,calls⟩
      | .throws :: _ => ⟨.threw,rb,calls ++ [rb.freePos]⟩
      | .returns true :: rest => retry rb ri data rest (calls ++ [rb.freePos])
      | .returns false :: _ =>
        match write rb ri data false none with
        | .written rb' => ⟨.returned,rb',calls ++ [rb.freePos]⟩
        | _ => ⟨.assertionFailed,rb,calls ++ [rb.freePos]⟩

def writeEx (self : Traits.Owner) (rb : ByteRingBuffer) (ri : Rmp.ReaderInfo) (data : List UInt8)
    (answers : List BpAnswer) : Option WriteExOutcome :=
  (rb.writerMtx.lock self).map (fun mtx => (retry (rb.setWriterMtx mtx) ri data answers []).leave)

end Writer

namespace Reader
open Rmp.Reader

def advance (rb : ByteRingBuffer) (pos bpos length : Long) (confirmed : List (List UInt8)) : Pass :=
  let bposMaxLag := rb.configBufSizeBytes
  let pos := pos + (MessageHeader.size.signExtend 64 + length)
  .continues pos (if (bpos + bposMaxLag).sle pos then pos else bpos) confirmed

def iterate (copy : List UInt8 → Bool) (rb : ByteRingBuffer) (pos bpos : Long) : Pass :=
  let bufSize := rb.configBufSizeBytes
  if pos = rb.freePos then .finished
  else
    let bufIndex := Util.bufIndex (Util.indexMask bufSize) pos
    if (bufSize - bufIndex).slt (MessageHeader.size.signExtend 64) then
      .continues (pos + (bufSize - bufIndex)) bpos []
    else if Util.expired pos rb.freePos bufSize then .expired
    else
      let msgHeaderCpy := readMsgHeader rb bufIndex
      if !msgHeaderCpy.valid || Util.expired pos rb.freePos bufSize then .expired
      else if bufSize.slt (bufIndex + MessageHeader.size.signExtend 64 + msgHeaderCpy.length) then
        .assertionFailed
      else if msgHeaderCpy.type = MessageHeader.MESSAGE then
        let length := msgHeaderCpy.length.setWidth 32
        if length.slt 0 then .assertionFailed
        else
          let data := load rb.data (bufIndex + MessageHeader.size.signExtend 64).toNat length.toNat
          if copy data then
            if Util.expired pos rb.freePos bufSize then .expired
            else advance rb pos bpos msgHeaderCpy.length [data]
          else advance rb pos bpos msgHeaderCpy.length []
      else advance rb pos bpos msgHeaderCpy.length []

def loop (copy : List UInt8 → Bool) (rb : ByteRingBuffer) :
    Nat → Long → Long → List (List UInt8) → Option Outcome
  | 0, _, _, _ => none
  | passes+1, pos, bpos, confirmed =>
    match iterate copy rb pos bpos with
    | .finished => some ⟨some .success,pos,pos,confirmed⟩
    | .continues pos bpos next => loop copy rb passes pos bpos (confirmed ++ next)
    | .expired => some ⟨some .expiredPosition,pos,bpos,confirmed⟩
    | .assertionFailed => some ⟨none,pos,bpos,confirmed⟩

def readEx (copy : List UInt8 → Bool) (rb : ByteRingBuffer) (passes : Nat) (pos bpos : Long) :
    Option Outcome :=
  if Util.greaterThan pos rb.freePos then some ⟨some .invalidPosition,pos,bpos,[]⟩
  else loop copy rb passes pos bpos []

end Reader
end Toroni.Java
