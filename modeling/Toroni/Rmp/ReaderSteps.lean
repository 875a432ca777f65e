import Toroni.Rmp.Reader

/-! The reader side taken load by load: every load of `freePos`, every byte of the header and
of the payload that is copied, and what the call does in between. -/
namespace Toroni.Rmp
open CircularMemory

inductive ReaderPc
  | idle
  | entry
  | head
  | early
  | header (copied : List UInt8)
  | check (hdrCopy : MsgHeader)
  | payload (hdrCopy : MsgHeader) (copied : List UInt8)
  | final (hdrCopy : MsgHeader) (data : List UInt8)
  | confirm (hdrCopy : MsgHeader) (data : List UInt8)
  | advance (hdrCopy : MsgHeader)
  | publish
  | last
  | done (result : Option Reader.Result)
  deriving DecidableEq

/-- A reader with its two positions. `at_` is a history variable: the real stream position
whose low 64 bits are `pos`. -/
structure ReaderState where
  pc : ReaderPc
  pos : Position
  bpos : Position
  at_ : Nat
  deriving DecidableEq

namespace ReaderState

def step (rb : ByteRingBuffer) (r : ReaderState) : Option ReaderState :=
  let bufSize := rb.configBufSizeBytes
  let index := bufIndex (indexMask bufSize) r.pos
  match r.pc with
  | .idle => none
  | .entry =>
    some { r with pc := if greaterThan r.pos rb.freePos then .done (some .invalidPosition) else .head }
  | .head => some { r with pc := if r.pos = rb.freePos then .last else .early }
  | .early =>
    if bufSize - index < BitVec.ofNat 64 MsgHeader.size then
      some { r with pc := .head, pos := r.pos + (bufSize - index), at_ := r.at_ + (bufSize - index).toNat }
    else
      some { r with pc := if expired r.pos rb.freePos bufSize then .done (some .expiredPosition)
                          else .header [] }
  | .header copied =>
    let copied := copied ++ [rb.data (index.toNat + copied.length)]
    some { r with pc := if copied.length = MsgHeader.size then .check (MsgHeader.decode copied)
                        else .header copied }
  | .check hdrCopy =>
    some { r with pc :=
      if !hdrCopy.valid || expired r.pos rb.freePos bufSize then .done (some .expiredPosition)
      else if bufSize < index + BitVec.ofNat 64 (MsgHeader.size + hdrCopy.length) then .done none
      else if hdrCopy.type = MsgHeader.MSG then .payload hdrCopy [] else .advance hdrCopy }
  | .payload hdrCopy copied =>
    let copied := copied ++ [rb.data (index.toNat + MsgHeader.size + copied.length)]
    some { r with pc := if copied.length = hdrCopy.length then .final hdrCopy copied
                        else .payload hdrCopy copied }
  | .final hdrCopy data =>
    some { r with pc := if expired r.pos rb.freePos bufSize then .done (some .expiredPosition)
                        else .confirm hdrCopy data }
  | .confirm hdrCopy _ => some { r with pc := .advance hdrCopy }
  | .advance hdrCopy =>
    some { r with pc := .publish
                  pos := r.pos + BitVec.ofNat 64 (MsgHeader.size + hdrCopy.length)
                  at_ := r.at_ + (MsgHeader.size + hdrCopy.length) }
  | .publish =>
    some { r with pc := .head
                  bpos := if r.bpos + Reader.bposMaxLag rb ≤ r.pos then r.pos else r.bpos }
  | .last => some { r with pc := .done (some .success), bpos := r.pos }
  | .done _ => none

def reading (r : ReaderState) : Bool :=
  match r.pc with
  | .idle | .done _ => false
  | _ => true

/-- Where `ReadEx` compares `pos` with `freePos` behind a copy, no store has reached the record, or
`freePos` has been moved past it, too. -/
def inTime (size : RingSize) (g : Ledger) (r : ReaderState) : Bool :=
  match r.pc with
  | .check _ | .final _ _ => clear size.bytes g.top g.free r.at_ && g.free ≤ r.at_ + size.bytes + 2^63
  | _ => true

end ReaderState

def Record.header : Record → Option MsgHeader
  | .msg data => some ⟨MsgHeader.MSG,data.length⟩
  | .padding length => some ⟨MsgHeader.PADDING,length⟩
  | .blank _ => none

def Ledger.Boundary (g : Ledger) (p : Nat) (rest : List Record) : Prop :=
  ∃ before, g.log = before ++ rest ∧ p = g.base + sizeOf before

def ReaderPc.Sound (B : Nat) (g : Ledger) (p : Nat) : ReaderPc → Prop
  | .done result => result ≠ none ∧ ∃ rest, g.Boundary p rest
  | .idle | .entry | .head | .publish | .last => ∃ rest, g.Boundary p rest
  | .early => ∃ record rest, g.Boundary p (record :: rest)
  | .header copied => ∃ record rest hdr, g.Boundary p (record :: rest) ∧
      record.header = some hdr ∧ copied.length < MsgHeader.size ∧
      (g.top ≤ p + B → copied = hdr.bytes.take copied.length)
  | .check hdrCopy => ∃ record rest hdr, g.Boundary p (record :: rest) ∧
      record.header = some hdr ∧ (g.top ≤ p + B → hdrCopy = hdr)
  | .payload hdrCopy copied => ∃ data rest, g.Boundary p (.msg data :: rest) ∧
      hdrCopy.length = data.length ∧ copied.length < data.length ∧
      (g.top ≤ p + B → copied = data.take copied.length)
  | .final hdrCopy copied => ∃ data rest, g.Boundary p (.msg data :: rest) ∧
      hdrCopy.length = data.length ∧ (g.top ≤ p + B → copied = data)
  | .confirm hdrCopy copied => ∃ rest, g.Boundary p (.msg copied :: rest) ∧
      hdrCopy.length = copied.length
  | .advance hdrCopy => ∃ record rest, g.Boundary p (record :: rest) ∧
      record.size = MsgHeader.size + hdrCopy.length

structure ReaderState.Inv (size : RingSize) (g : Ledger) (r : ReaderState) : Prop where
  pos : r.pos = BitVec.ofNat 64 r.at_
  sound : r.pc.Sound size.bytes g r.at_

section
variable {size : RingSize} {g g' : Ledger} {rb : ByteRingBuffer} {pending : List UInt8}
  {r r' : ReaderState} {p : Nat} {record : Record} {rest more : List Record} {hdr : MsgHeader}

theorem Ledger.Boundary.grow (boundary : g.Boundary p rest) (base : g'.base = g.base)
    (log : g'.log = g.log ++ more) : g'.Boundary p (rest ++ more) := by
  obtain ⟨before,split,start⟩ := boundary
  exact ⟨before,by rw [log,split,List.append_assoc],by rw [base,start]⟩

theorem Ledger.Boundary.le (boundary : g.Boundary p rest) : p + sizeOf rest = g.free := by
  obtain ⟨before,split,rfl⟩ := boundary
  rw [Ledger.free,split,sizeOf_append,Nat.add_assoc]

theorem Ledger.Boundary.next (boundary : g.Boundary p (record :: rest)) :
    g.Boundary (p + record.size) rest := by
  obtain ⟨before,split,rfl⟩ := boundary
  exact ⟨before ++ [record],by rw [split,List.append_assoc]; rfl,by
    rw [sizeOf_append,sizeOf_cons,sizeOf_nil,Nat.add_zero,Nat.add_assoc]⟩

theorem Record.header_bytes (known : record.header = some hdr) :
    ∃ content, record.bytes = hdr.bytes ++ content ∧ record.size = MsgHeader.size + hdr.length := by
  cases record with
  | msg data => cases Option.some.inj known; exact ⟨data,rfl,rfl⟩
  | padding length => cases Option.some.inj known; exact ⟨[],(List.append_nil _).symm,rfl⟩
  | blank length => contradiction

theorem Record.Fits.header {B : Nat} (fits : record.Fits B p) (known : record.header = some hdr) :
    p % B + (MsgHeader.size + hdr.length) ≤ B ∧ hdr.length < 2^32 := by
  cases record with
  | msg data =>
    cases Option.some.inj known
    rw [← Nat.add_assoc]
    exact fits
  | padding length =>
    cases Option.some.inj known
    rw [← Nat.add_assoc]
    exact ⟨fits.1.le,fits.2⟩
  | blank length => contradiction

theorem ReaderPc.Sound.grow {B : Nat} {pc : ReaderPc} (sound : pc.Sound B g p)
    (base : g'.base = g.base) (log : g'.log = g.log ++ more) (top : g.top ≤ g'.top) : pc.Sound B g' p := by
  have place {rest : List Record} (boundary : g.Boundary p rest) : g'.Boundary p (rest ++ more) :=
    boundary.grow base log
  cases pc with
  | done result =>
    obtain ⟨kept,rest,boundary⟩ := sound
    exact ⟨kept,_,place boundary⟩
  | idle | entry | head | publish | last =>
    obtain ⟨rest,boundary⟩ := sound
    exact ⟨_,place boundary⟩
  | early =>
    obtain ⟨record,rest,boundary⟩ := sound
    exact ⟨record,_,place boundary⟩
  | header copied =>
    obtain ⟨record,rest,hdr,boundary,known,short,read⟩ := sound
    exact ⟨record,_,hdr,place boundary,known,short,fun near => read (by omega)⟩
  | check hdrCopy =>
    obtain ⟨record,rest,hdr,boundary,known,read⟩ := sound
    exact ⟨record,_,hdr,place boundary,known,fun near => read (by omega)⟩
  | payload hdrCopy copied =>
    obtain ⟨data,rest,boundary,length,short,read⟩ := sound
    exact ⟨data,_,place boundary,length,short,fun near => read (by omega)⟩
  | final hdrCopy copied =>
    obtain ⟨data,rest,boundary,length,read⟩ := sound
    exact ⟨data,_,place boundary,length,fun near => read (by omega)⟩
  | confirm hdrCopy copied =>
    obtain ⟨rest,boundary,length⟩ := sound
    exact ⟨_,place boundary,length⟩
  | advance hdrCopy =>
    obtain ⟨record,rest,boundary,length⟩ := sound
    exact ⟨record,_,place boundary,length⟩

theorem ReaderPc.Sound.boundary {B : Nat} {pc : ReaderPc} (sound : pc.Sound B g p) :
    ∃ rest, g.Boundary p rest := by
  cases pc with
  | done result => exact sound.2
  | idle | entry | head | publish | last => exact sound
  | early => obtain ⟨_,_,boundary⟩ := sound; exact ⟨_,boundary⟩
  | header copied => obtain ⟨_,_,_,boundary,_⟩ := sound; exact ⟨_,boundary⟩
  | check hdrCopy => obtain ⟨_,_,_,boundary,_⟩ := sound; exact ⟨_,boundary⟩
  | payload hdrCopy copied => obtain ⟨_,_,boundary,_⟩ := sound; exact ⟨_,boundary⟩
  | final hdrCopy copied => obtain ⟨_,_,boundary,_⟩ := sound; exact ⟨_,boundary⟩
  | confirm hdrCopy copied => obtain ⟨_,boundary,_⟩ := sound; exact ⟨_,boundary⟩
  | advance hdrCopy => obtain ⟨_,_,boundary,_⟩ := sound; exact ⟨_,boundary⟩

theorem ReaderState.Inv.grow (inv : r.Inv size g) (base : g'.base = g.base)
    (log : g'.log = g.log ++ more) (top : g.top ≤ g'.top) : r.Inv size g' := by
  exact ⟨inv.pos,inv.sound.grow base log top⟩

theorem ReaderState.Inv.stored (inv : r.Inv size g) (top : Nat) : r.Inv size { g with top := max g.top top } := by
  exact inv.grow rfl (List.append_nil _).symm (le_max_left _ _)

theorem Ledger.Boundary.holds (rep : Represents size rb g pending)
    (boundary : g.Boundary p (record :: rest)) :
    record.Fits size.bytes p ∧ Holds rb.data size.bytes g.top p record.bytes := by
  obtain ⟨before,split,rfl⟩ := boundary
  exact rep.laid before record rest split

theorem ReaderState.Inv.early_step (inv : r.Inv size g) (rep : Represents size rb g pending)
    (pc : r.pc = .early) (stepped : r.step rb = some r') : r'.Inv size g := by
  have sound := inv.sound
  rw [pc] at sound
  obtain ⟨record,rest,boundary⟩ := sound
  obtain ⟨fits,_⟩ := boundary.holds rep
  have short := bufEnd_lt size r.at_ MsgHeader.size (by decide)
  have tail := toNat_bufEnd size r.at_
  simp only [step,pc,rep.config,inv.pos] at stepped
  by_cases blank : size.bytes - r.at_ % size.bytes < MsgHeader.size
  · rw [if_pos (short.mpr blank),tail] at stepped
    obtain rfl := Option.some.inj stepped
    cases record with
    | blank n =>
      have size_eq : size.bytes - r.at_ % size.bytes = n := by have := fits.1; omega
      rw [size_eq]
      refine ⟨?_,⟨rest,boundary.next⟩⟩
      apply BitVec.eq_of_toNat_eq
      rw [BitVec.toNat_add,tail,size_eq,BitVec.toNat_ofNat,BitVec.toNat_ofNat,Nat.mod_add_mod]
    | msg data => have := fits.1; omega
    | padding n => have := fits.1; omega
  · rw [if_neg (mt short.mp blank)] at stepped
    obtain rfl := Option.some.inj stepped
    split
    · exact ⟨rfl,⟨by simp,_,boundary⟩⟩
    · cases record with
      | blank n => have := fits.1; have := fits.2; omega
      | msg data => exact ⟨rfl,⟨_,rest,_,boundary,rfl,by decide,fun _ => rfl⟩⟩
      | padding n => exact ⟨rfl,⟨_,rest,_,boundary,rfl,by decide,fun _ => rfl⟩⟩

theorem take_succ_of_eq {xs copied : List UInt8} {cell : UInt8} (short : copied.length < xs.length)
    (read : copied = xs.take copied.length) (next : cell = xs[copied.length]) :
    copied ++ [cell] = xs.take (copied.length + 1) := by
  rw [List.take_succ_eq_append_getElem short,← read,next]

theorem ReaderState.Inv.header_step {copied : List UInt8} (inv : r.Inv size g)
    (rep : Represents size rb g pending) (pc : r.pc = .header copied)
    (stepped : r.step rb = some r') : r'.Inv size g := by
  have sound := inv.sound
  rw [pc] at sound
  obtain ⟨record,rest,hdr,boundary,known,short,read⟩ := sound
  obtain ⟨fits,holds⟩ := boundary.holds rep
  obtain ⟨content,bytes,_⟩ := record.header_bytes known
  have stored := fits.stored
  rw [bytes,List.length_append,MsgHeader.length_bytes] at stored
  have grown (intact : g.top ≤ r.at_ + size.bytes) :
      copied ++ [rb.data (r.at_ % size.bytes + copied.length)] = hdr.bytes.take (copied.length + 1) := by
    have within : copied.length < hdr.bytes.length := by rw [MsgHeader.length_bytes]; exact short
    rw [bytes] at holds
    exact take_succ_of_eq within (read intact)
      (holds.left.cell intact (by rw [MsgHeader.length_bytes]; omega) within)
  simp only [step,pc,rep.config,inv.pos,bufIndex_ofNat,List.length_append,List.length_singleton] at stepped
  obtain rfl := Option.some.inj stepped
  split
  next full =>
    refine ⟨rfl,⟨record,rest,hdr,boundary,known,fun intact => ?_⟩⟩
    rw [grown intact,full,← MsgHeader.length_bytes hdr,List.take_length,
      MsgHeader.decode_bytes (fits.header known).2]
  next more =>
    refine ⟨rfl,⟨record,rest,hdr,boundary,known,?_,fun intact => ?_⟩⟩
    · simp only [List.length_append,List.length_singleton]
      omega
    · simp only [List.length_append,List.length_singleton]
      exact grown intact

theorem ReaderState.Inv.payload_step {hdrCopy : MsgHeader} {copied : List UInt8}
    (inv : r.Inv size g) (rep : Represents size rb g pending) (pc : r.pc = .payload hdrCopy copied)
    (stepped : r.step rb = some r') : r'.Inv size g := by
  have sound := inv.sound
  rw [pc] at sound
  obtain ⟨data,rest,boundary,length,short,read⟩ := sound
  obtain ⟨fits,holds⟩ := boundary.holds rep
  have room := fits.1
  have content : (MsgHeader.mk MsgHeader.MSG data.length).bytes.length = MsgHeader.size :=
    MsgHeader.length_bytes _
  have grown (intact : g.top ≤ r.at_ + size.bytes) :
      copied ++ [rb.data (r.at_ % size.bytes + MsgHeader.size + copied.length)] =
        data.take (copied.length + 1) := by
    have cell := holds.cell intact fits.stored
      (show MsgHeader.size + copied.length < (Record.msg data).bytes.length by
        simp only [Record.bytes,List.length_append,content]
        omega)
    simp only [Record.bytes] at cell
    rw [List.getElem_append_right (by omega)] at cell
    simp only [content,Nat.add_sub_cancel_left,← Nat.add_assoc] at cell
    exact take_succ_of_eq short (read intact) cell
  simp only [step,pc,rep.config,inv.pos,bufIndex_ofNat,List.length_append,List.length_singleton] at stepped
  obtain rfl := Option.some.inj stepped
  split
  next full =>
    refine ⟨rfl,⟨data,rest,boundary,length,fun intact => ?_⟩⟩
    rw [grown intact,full,length,List.take_length]
  next more =>
    refine ⟨rfl,⟨data,rest,boundary,length,?_,fun intact => ?_⟩⟩
    · simp only [List.length_append,List.length_singleton]
      omega
    · simp only [List.length_append,List.length_singleton]
      exact grown intact

theorem ReaderState.clear_of_inTime (inTime : r.inTime size g = true)
    (pc : (∃ hdrCopy, r.pc = .check hdrCopy) ∨ ∃ hdrCopy data, r.pc = .final hdrCopy data) :
    (g.top ≤ r.at_ + size.bytes ∨ r.at_ + size.bytes ≤ g.free) ∧ g.free ≤ r.at_ + size.bytes + 2^63 := by
  rcases pc with ⟨hdrCopy,pc⟩ | ⟨hdrCopy,data,pc⟩ <;> simpa [ReaderState.inTime,pc,clear] using inTime

theorem ReaderState.inTime_of_intact (intact : g.top ≤ r.at_ + size.bytes)
    (near : g.free ≤ r.at_ + size.bytes + 2^63) : r.inTime size g = true := by
  unfold ReaderState.inTime
  split
  · simpa [clear,intact] using near
  · simpa [clear,intact] using near
  · rfl

/-- A comparison that passes shows that no store has reached the record. -/
theorem Ledger.Boundary.intact (boundary : g.Boundary r.at_ (record :: rest))
    (rep : Represents size rb g pending) (inTime : r.inTime size g = true)
    (pc : (∃ hdrCopy, r.pc = .check hdrCopy) ∨ ∃ hdrCopy data, r.pc = .final hdrCopy data)
    (kept : ¬ expired (BitVec.ofNat 64 r.at_) rb.freePos size.position = true) :
    g.top ≤ r.at_ + size.bytes := by
  obtain ⟨clear,near⟩ := r.clear_of_inTime inTime pc
  have positive := (boundary.holds rep).1.size_pos (by have := size.bounds; omega)
  have behind := boundary.le
  rw [sizeOf_cons] at behind
  rw [rep.freePos,expired_behind size (by omega) near] at kept
  exact clear.resolve_right kept

theorem ReaderState.Inv.check_step {hdrCopy : MsgHeader} (inv : r.Inv size g)
    (rep : Represents size rb g pending) (inTime : r.inTime size g = true)
    (pc : r.pc = .check hdrCopy) (stepped : r.step rb = some r') : r'.Inv size g := by
  have sound := inv.sound
  rw [pc] at sound
  obtain ⟨record,rest,hdr,boundary,known,read⟩ := sound
  obtain ⟨fits,_⟩ := boundary.holds rep
  simp only [step,pc,rep.config,inv.pos] at stepped
  obtain rfl := Option.some.inj stepped
  split
  next => exact ⟨rfl,⟨by simp,_,boundary⟩⟩
  next passed =>
    obtain ⟨valid,kept⟩ : hdrCopy.valid = true ∧
        ¬ expired (BitVec.ofNat 64 r.at_) rb.freePos size.position = true := by
      simpa using passed
    obtain rfl := read (boundary.intact rep inTime (Or.inl ⟨_,pc⟩) kept)
    obtain ⟨room,_⟩ := fits.header known
    rw [if_neg (bufIndex_add_le size room)]
    split
    next isMsg =>
      cases record with
      | msg data =>
        cases Option.some.inj known
        have content : 0 < data.length := by
          simp only [MsgHeader.valid,Bool.and_eq_true,bne_iff_ne] at valid
          omega
        exact ⟨rfl,⟨data,rest,boundary,rfl,content,fun _ => rfl⟩⟩
      | padding n =>
        cases Option.some.inj known
        exact absurd isMsg (show MsgHeader.PADDING ≠ MsgHeader.MSG by decide)
      | blank n => contradiction
    next =>
      obtain ⟨_,_,length⟩ := record.header_bytes known
      exact ⟨rfl,⟨record,rest,boundary,length⟩⟩

theorem ReaderState.Inv.final_step {hdrCopy : MsgHeader} {data : List UInt8} (inv : r.Inv size g)
    (rep : Represents size rb g pending) (inTime : r.inTime size g = true)
    (pc : r.pc = .final hdrCopy data) (stepped : r.step rb = some r') : r'.Inv size g := by
  have sound := inv.sound
  rw [pc] at sound
  obtain ⟨real,rest,boundary,length,read⟩ := sound
  simp only [step,pc,rep.config,inv.pos] at stepped
  obtain rfl := Option.some.inj stepped
  split
  next => exact ⟨rfl,⟨by simp,_,boundary⟩⟩
  next kept =>
    obtain rfl := read (boundary.intact rep inTime (Or.inr ⟨_,_,pc⟩) kept)
    exact ⟨rfl,⟨rest,boundary,length⟩⟩

theorem ReaderState.Inv.step (inv : r.Inv size g) (rep : Represents size rb g pending)
    (inTime : r.inTime size g = true) (stepped : r.step rb = some r') : r'.Inv size g := by
  have pos := inv.pos
  have sound := inv.sound
  cases pc : r.pc with
  | idle => simp [ReaderState.step,pc] at stepped
  | done result => simp [ReaderState.step,pc] at stepped
  | early => exact inv.early_step rep pc stepped
  | header copied => exact inv.header_step rep pc stepped
  | check hdrCopy => exact inv.check_step rep inTime pc stepped
  | payload hdrCopy copied => exact inv.payload_step rep pc stepped
  | final hdrCopy data => exact inv.final_step rep inTime pc stepped
  | entry =>
    rw [pc] at sound
    simp only [ReaderState.step,pc] at stepped
    obtain rfl := Option.some.inj stepped
    split
    · exact ⟨pos,⟨by simp,sound⟩⟩
    · exact ⟨pos,sound⟩
  | head =>
    rw [pc] at sound
    obtain ⟨rest,boundary⟩ := sound
    simp only [ReaderState.step,pc] at stepped
    obtain rfl := Option.some.inj stepped
    split
    · exact ⟨pos,⟨rest,boundary⟩⟩
    next away =>
      cases rest with
      | nil =>
        have ended := boundary.le
        rw [sizeOf_nil,Nat.add_zero] at ended
        rw [pos,rep.freePos,ended] at away
        contradiction
      | cons record rest => exact ⟨pos,⟨record,rest,boundary⟩⟩
  | confirm hdrCopy data =>
    rw [pc] at sound
    obtain ⟨rest,boundary,length⟩ := sound
    simp only [ReaderState.step,pc] at stepped
    obtain rfl := Option.some.inj stepped
    exact ⟨pos,⟨_,rest,boundary,by simp [Record.size,length]⟩⟩
  | advance hdrCopy =>
    rw [pc] at sound
    obtain ⟨record,rest,boundary,length⟩ := sound
    simp only [ReaderState.step,pc] at stepped
    obtain rfl := Option.some.inj stepped
    refine ⟨?_,⟨rest,length ▸ boundary.next⟩⟩
    rw [pos,SerialNumber.ofNat_add_ofNat]
  | publish =>
    rw [pc] at sound
    simp only [ReaderState.step,pc] at stepped
    obtain rfl := Option.some.inj stepped
    exact ⟨pos,sound⟩
  | last =>
    rw [pc] at sound
    simp only [ReaderState.step,pc] at stepped
    obtain rfl := Option.some.inj stepped
    exact ⟨pos,⟨by simp,sound⟩⟩

/-- How far a step that does not publish moves the reader. -/
theorem ReaderState.step_cases (stepped : r.step rb = some r') (unpublished : r.pc ≠ .publish) :
    (r'.pc ≠ .publish ∧ r'.pc ≠ .done (some .success) ∧ r'.bpos = r.bpos ∧ r'.at_ = r.at_) ∨
    (r.pc = .early ∧
      rb.configBufSizeBytes - bufIndex (indexMask rb.configBufSizeBytes) r.pos < BitVec.ofNat 64 MsgHeader.size ∧
      r'.pc = .head ∧ r'.bpos = r.bpos ∧ r'.at_ = r.at_ +
        (rb.configBufSizeBytes - bufIndex (indexMask rb.configBufSizeBytes) r.pos).toNat) ∨
    (r'.pc = .publish ∧ r'.bpos = r.bpos ∧ r.at_ ≤ r'.at_) ∨
    (r.pc = .last ∧ r' = { r with pc := .done (some .success), bpos := r.pos }) := by
  cases pc : r.pc with
  | idle | done => simp [step,pc] at stepped
  | publish => exact absurd pc unpublished
  | last =>
    simp only [step,pc] at stepped
    exact Or.inr (Or.inr (Or.inr ⟨rfl,(Option.some.inj stepped).symm⟩))
  | advance hdrCopy =>
    simp only [step,pc] at stepped
    obtain rfl := Option.some.inj stepped
    exact Or.inr (Or.inr (Or.inl ⟨rfl,rfl,Nat.le_add_right _ _⟩))
  | early =>
    simp only [step,pc] at stepped
    split at stepped
    next blank =>
      obtain rfl := Option.some.inj stepped
      exact Or.inr (Or.inl ⟨rfl,blank,rfl,rfl,rfl⟩)
    next =>
      obtain rfl := Option.some.inj stepped
      left
      dsimp only
      split <;> simp
  | entry | head | header | payload | final =>
    simp only [step,pc] at stepped
    obtain rfl := Option.some.inj stepped
    left
    dsimp only
    split <;> simp
  | confirm =>
    simp only [step,pc] at stepped
    obtain rfl := Option.some.inj stepped
    simp
  | check hdrCopy =>
    simp only [step,pc] at stepped
    obtain rfl := Option.some.inj stepped
    left
    dsimp only
    split
    · simp
    · split
      · simp
      · split <;> simp

end
end Toroni.Rmp
