import Toroni.Library.CircularMemory
import Toroni.Library.LittleEndian
import Toroni.Rmp.Stream
import Toroni.Traits.RobustProcMutex

/-! The shared ring buffer, the packed message header, and the single stores by
which a write reaches shared memory. -/
namespace Toroni.Rmp
open CircularMemory LittleEndian Traits

structure MsgHeader where
  type : UInt8
  length : Nat
  deriving DecidableEq

namespace MsgHeader

def MSG : UInt8 := 0
def PADDING : UInt8 := 1

def size : Nat := 5

def valid (header : MsgHeader) : Bool :=
  (header.type == MSG || header.type == PADDING) && header.length != 0

/-- The header as it lies in memory; a length that does not fit loses its high bytes. -/
def bytes (header : MsgHeader) : List UInt8 := header.type :: toBytes 4 header.length

def decode (cells : List UInt8) : MsgHeader := ⟨cells.headD 0,ofBytes cells.tail⟩

def read (mem : Nat → UInt8) (index : Nat) : MsgHeader := decode (load mem index size)

@[simp] theorem length_bytes (header : MsgHeader) : header.bytes.length = size := by
  simp [bytes,size]

theorem decode_bytes {header : MsgHeader} (fits : header.length < 2^32) :
    decode header.bytes = header := by
  simp only [decode,bytes,List.headD_cons,List.tail_cons,
    ofBytes_toBytes (show header.length < 256^4 by omega)]

theorem read_of_holds {mem : Nat → UInt8} {B top p : Nat} {header : MsgHeader} {rest : List UInt8}
    (holds : Holds mem B top p (header.bytes ++ rest)) (near : top ≤ p + B)
    (fits : p % B + size ≤ B) (narrow : header.length < 2^32) : read mem (p % B) = header := by
  have cells := holds.left.load near (by rw [length_bytes]; exact fits)
  rw [length_bytes] at cells
  rw [read,cells,decode_bytes narrow]

end MsgHeader

structure ByteRingBuffer where
  configBufSizeBytes : Position
  writerMtx : RobustProcMutex
  freePos : Position
  backPressureCount : StatCounter
  notificationCount : StatCounter
  initialized : Bool
  data : Nat → UInt8

def ByteRingBuffer.create (bufSizeBytes : Position) (data : Nat → UInt8) : ByteRingBuffer where
  configBufSizeBytes := bufSizeBytes
  writerMtx := .unlocked
  freePos := 0
  backPressureCount := 0
  notificationCount := 0
  initialized := true
  data := data

def ByteRingBuffer.put (rb : ByteRingBuffer) (index : Nat) (cells : List UInt8) : ByteRingBuffer :=
  { rb with data := store rb.data index cells }

def ByteRingBuffer.addFreePos (rb : ByteRingBuffer) (n : Position) : ByteRingBuffer :=
  { rb with freePos := rb.freePos + n }

def ByteRingBuffer.setWriterMtx (rb : ByteRingBuffer) (mtx : RobustProcMutex) : ByteRingBuffer :=
  { rb with writerMtx := mtx }

def ByteRingBuffer.countBackPressure (rb : ByteRingBuffer) : ByteRingBuffer :=
  { rb with backPressureCount := rb.backPressureCount + 1 }

/-- What lies between two record boundaries of the stream: a message, a padding
record reaching the end of the buffer, or a tail too short for a header. -/
inductive Record
  | msg (data : List UInt8)
  | padding (length : Nat)
  | blank (length : Nat)
  deriving DecidableEq

namespace Record

def size : Record → Nat
  | msg data => MsgHeader.size + data.length
  | padding length => MsgHeader.size + length
  | blank length => length

def bytes : Record → List UInt8
  | msg data => (MsgHeader.mk MsgHeader.MSG data.length).bytes ++ data
  | padding length => (MsgHeader.mk MsgHeader.PADDING length).bytes
  | blank _ => []

def message : Record → Option (List UInt8)
  | msg data => some data
  | _ => none

theorem length_bytes_le (r : Record) : r.bytes.length ≤ r.size := by
  cases r <;> simp [bytes,size]

end Record

/-- One store of a write to shared memory. The record that a `freePos` store
completes is a history variable: it is not part of what is stored. -/
inductive Store
  | bytes (index : Nat) (cells : List UInt8)
  | freePos (n : Position) (completes : Record)
  deriving DecidableEq

def Store.apply (rb : ByteRingBuffer) : Store → ByteRingBuffer
  | .bytes index cells => rb.put index cells
  | .freePos n _ => rb.addFreePos n

def Store.run (rb : ByteRingBuffer) (stores : List Store) : ByteRingBuffer :=
  stores.foldl Store.apply rb

def payloadStores (index : Nat) : List UInt8 → List Store
  | [] => []
  | b :: bs => .bytes index [b] :: payloadStores (index + 1) bs

def recordStores (index : Nat) : Record → List Store
  | .msg data =>
    .bytes index [MsgHeader.MSG] :: .bytes (index + 1) (toBytes 4 data.length) ::
      (payloadStores (index + MsgHeader.size) data ++
        [.freePos (BitVec.ofNat 64 (MsgHeader.size + data.length)) (.msg data)])
  | .padding length =>
    [.bytes index [MsgHeader.PADDING], .bytes (index + 1) (toBytes 4 length),
      .freePos (BitVec.ofNat 64 (MsgHeader.size + length)) (.padding length)]
  | .blank length => [.freePos (BitVec.ofNat 64 length) (.blank length)]

section
variable (rb : ByteRingBuffer)

@[simp] theorem Store.run_nil : Store.run rb [] = rb := rfl

@[simp] theorem Store.run_cons (op : Store) (ops : List Store) :
    Store.run rb (op :: ops) = Store.run (op.apply rb) ops := rfl

@[simp] theorem Store.run_append (first rest : List Store) :
    Store.run rb (first ++ rest) = Store.run (Store.run rb first) rest := List.foldl_append

@[simp] theorem ByteRingBuffer.put_put (index : Nat) (xs ys : List UInt8) :
    (rb.put index xs).put (index + xs.length) ys = rb.put index (xs ++ ys) := by
  simp only [ByteRingBuffer.put,store_store]

@[simp] theorem ByteRingBuffer.put_nil (index : Nat) : rb.put index [] = rb := by
  simp [ByteRingBuffer.put]

theorem run_payloadStores (index : Nat) (data : List UInt8) :
    Store.run rb (payloadStores index data) = rb.put index data := by
  induction data generalizing rb index with
  | nil => simp [payloadStores]
  | cons b bs ih =>
    have joined := rb.put_put index [b] bs
    simp only [List.length_singleton,List.singleton_append] at joined
    simp only [payloadStores,Store.run_cons,Store.apply,ih,joined]

theorem run_recordStores (index : Nat) (r : Record) :
    Store.run rb (recordStores index r) =
      (rb.put index r.bytes).addFreePos (BitVec.ofNat 64 r.size) := by
  have header (type : UInt8) (length : Nat) :
      (rb.put index [type]).put (index + 1) (toBytes 4 length) =
        rb.put index (MsgHeader.mk type length).bytes :=
    rb.put_put index [type] (toBytes 4 length)
  cases r with
  | msg data =>
    have body := rb.put_put index (MsgHeader.mk MsgHeader.MSG data.length).bytes data
    rw [MsgHeader.length_bytes] at body
    simp only [recordStores,Store.run_cons,Store.run_append,Store.run_nil,Store.apply,
      run_payloadStores,header,body,Record.bytes,Record.size]
  | padding length =>
    simp only [recordStores,Store.run_cons,Store.run_nil,Store.apply,header,Record.bytes,Record.size]
  | blank length =>
    simp [recordStores,Store.run,Store.apply,Record.bytes,Record.size]

end
end Toroni.Rmp
