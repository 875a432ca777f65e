import Toroni.Library.Transition
import Toroni.Rmp.ReaderSteps
import Toroni.Rmp.WriterSteps
import Toroni.Tp.Reader

/-! The two queues of a reader on different threads: `ReadRmp` by its single loads, among writers
store by store, while the other queue closes and creates channel readers and `Activate` sets the
position that is being read from. -/
namespace Toroni.Tp.Reactivation
open Rmp Transition Traits Writer

/-- Where the task on the serial queue stands. `AddChannelReader` calls `Activate`, which loads
`freePos`, stores it to the position of the reader, and activates the slot. `at_` is a history
variable: the real stream position of what was loaded. -/
inductive SerialPc
  | idle
  | load
  | store (pos : Position) (at_ : Nat)
  | slot

inductive RmpPc
  | idle
  | active
  | reading
  | failed
  deriving DecidableEq

/-- `pc` is for `ReadEx`, with its local variable `bufIndex` once that is loaded. The last two are
history variables: whether `Activate` has ever stored a position, before which that of the reader
is not initialized, and the real stream position whose low 64 bits it is. -/
structure State where
  shared : Shared
  info : ReaderInfo
  reader : Tp.Reader
  serialPc : SerialPc
  rmpPc : RmpPc
  pc : ReaderPc
  bufIndex : Option Position
  activated : Bool
  at_ : Nat

def inPass : ReaderPc → Bool
  | .early | .header _ | .check _ | .payload _ _ | .final _ _ | .confirm _ _ | .advance _ => true
  | _ => false

def stepAt (rb : ByteRingBuffer) (index : Position) (r : ReaderState) : Option ReaderState :=
  let bufSize := rb.configBufSizeBytes
  match r.pc with
  | .early =>
    if bufSize - index < BitVec.ofNat 64 MsgHeader.size then
      some { r with pc := .head, pos := r.pos + (bufSize - index), at_ := r.at_ + (bufSize - index).toNat }
    else
      some { r with pc := if expired r.pos rb.freePos bufSize then .done (some .expiredPosition)
                          else .header [] }
  | .header copied =>
    let copied := copied ++ [rb.data (index.toNat + copied.length)]
    some { r with pc := if copied.length = MsgHeader.size then .check (MsgHeader.decode copied)
                        else .header copied }
  | .check hdrCopy =>
    some { r with pc :=
      if !hdrCopy.valid || expired r.pos rb.freePos bufSize then .done (some .expiredPosition)
      else if bufSize < index + BitVec.ofNat 64 (MsgHeader.size + hdrCopy.length) then .done none
      else if hdrCopy.type = MsgHeader.MSG then .payload hdrCopy [] else .advance hdrCopy }
  | .payload hdrCopy copied =>
    let copied := copied ++ [rb.data (index.toNat + MsgHeader.size + copied.length)]
    some { r with pc := if copied.length = hdrCopy.length then .final hdrCopy copied
                        else .payload hdrCopy copied }
  | _ => r.step rb

namespace State

def call (s : State) (slot : Nat) : ReaderState :=
  ⟨s.pc,s.reader.readerPos,(s.info.rmpReaderInfo.info slot).position,s.at_⟩

def put (s : State) (slot : Nat) (r : ReaderState) (bufIndex : Option Position) : State :=
  { s with
    info := { s.info with rmpReaderInfo := s.info.rmpReaderInfo.setPosition slot r.bpos }
    reader := { s.reader with readerPos := r.pos }
    pc := r.pc
    bufIndex := bufIndex
    at_ := r.at_ }

def serial (slot : Nat) (s : State) : Option State :=
  match s.serialPc, s.reader.serial with
  | .idle, [] => none
  | .idle, .addChannelReader c :: rest =>
    some { s with
      reader := { s.reader with channelReaders := s.reader.channelReaders ++ [c], serial := rest }
      serialPc := if s.reader.channelReaders = [] then .load else .idle }
  | .idle, .removeChannelReader id :: rest =>
    let (info,reader) := s.reader.removeChannelReader slot s.info id
    some { s with info := info, reader := { reader with serial := rest } }
  | .idle, .run :: rest => some { s with reader := { s.reader.run with serial := rest } }
  | .load, _ => some { s with serialPc := .store s.shared.rb.freePos s.shared.ledger.free }
  | .store pos at_, _ =>
    some { s with
      reader := { s.reader with readerPos := pos }
      activated := true
      at_ := at_
      serialPc := .slot }
  | .slot, _ =>
    some { s with
      info := { s.info with rmpReaderInfo :=
        s.info.rmpReaderInfo.activate (some slot) s.reader.readerPos }
      reader := { s.reader with events := s.reader.events ++ [.firstChannelReaderCreated] }
      serialPc := .idle }

def rmp (slot : Nat) (s : State) : Option State :=
  match s.rmpPc with
  | .idle =>
    match s.reader.rmp with
    | [] => none
    | _ :: rest =>
      some { s with
        reader := { s.reader with rmp := rest }
        rmpPc := if (s.info.rmpReaderInfo.info slot).isActive then .active else .idle }
  | .active =>
    if (s.info.rmpReaderInfo.info slot).isActive then some { s with rmpPc := .reading, pc := .entry }
    else some { s with rmpPc := .failed }
  | .reading =>
    match s.pc with
    | .done (some .success) => some { s with rmpPc := .idle, pc := .idle }
    | .done (some .expiredPosition) =>
      some { s with
        info := { s.info with rmpReaderInfo :=
          { s.info.rmpReaderInfo with expiredReaders := s.info.rmpReaderInfo.expiredReaders + 1 } }
        reader := { s.reader with events := s.reader.events ++ [.allChannelReadersExpired] }
        rmpPc := .idle
        pc := .idle }
    | .done _ => none
    | pc =>
      match s.bufIndex with
      | none =>
        if inPass pc then
          some { s with bufIndex := some (Rmp.bufIndex (indexMask s.shared.rb.configBufSizeBytes) s.reader.readerPos) }
        else ((s.call slot).step s.shared.rb).map (fun r => s.put slot r none)
      | some index => (stepAt s.shared.rb index (s.call slot)).map (fun r =>
          s.put slot r (if inPass r.pc then some index else none))
  | .failed => none

def enqueueSerial (s : State) (task : SerialTask ChannelReader) : State :=
  { s with reader := { s.reader with serial := s.reader.serial ++ [task] } }

end State

inductive Action
  | begin (self : Owner) (data : List UInt8)
  | store
  | finish
  | createChannelReader (c : ChannelReader)
  | closeChannelReader (id : Nat)
  | run
  | serial
  | rmp

def next (size : RingSize) (slot : Nat) (s : State) : Action → Option State
  | .begin self data => (s.shared.begin size self data).map (fun shared => { s with shared := shared })
  | .store => (s.shared.store size).map (fun shared => { s with shared := shared })
  | .finish => s.shared.finish.map (fun shared => { s with shared := shared })
  | .createChannelReader c => some (s.enqueueSerial (.addChannelReader c))
  | .closeChannelReader id => some (s.enqueueSerial (.removeChannelReader id))
  | .run => some (s.enqueueSerial .run)
  | .serial => s.serial slot
  | .rmp => s.rmp slot

def start (rb : ByteRingBuffer) (info : ReaderInfo) (pos : Position) : State :=
  ⟨Shared.fresh rb,info,{ Tp.Reader.create with readerPos := pos },.idle,.idle,.idle,none,false,0⟩

def sys (size : RingSize) (slot : Nat) : System State Action :=
  .ofNext (fun s => ∃ rb info pos, rb.configBufSizeBytes = size.position ∧
    (info.rmpReaderInfo.info slot).isActive = false ∧ s = start rb info pos) (next size slot)

/-- `Activate` stores no position while a pass is under way. Besides, fewer than `2^63` bytes are unread
at the start of a call, and the comparisons behind a copy come in time. -/
def allowed (size : RingSize) (slot : Nat) (s : State) : Action → Bool
  | .serial =>
    match s.serialPc with
    | .store _ _ => !inPass s.pc
    | _ => true
  | .rmp =>
    match s.rmpPc with
    | .reading => (s.pc ≠ .entry || s.shared.ledger.free < s.at_ + 2^63) &&
        (s.call slot).inTime size s.shared.ledger
    | _ => true
  | _ => true

/-- From the first `Activate` on the position of the reader is a record boundary not behind the
stream end, in front of it while a pass is under way, and `ReadEx` never finds it invalid. -/
def Survives (s : State) : Prop :=
  s.activated = true →
    (∃ before rest, s.shared.ledger.log = before ++ rest ∧
      s.reader.readerPos = BitVec.ofNat 64 (s.shared.ledger.base + Rmp.sizeOf before) ∧
      s.shared.rb.freePos = BitVec.ofNat 64 (s.shared.ledger.base + Rmp.sizeOf before + Rmp.sizeOf rest) ∧
      (inPass s.pc = true → rest ≠ [])) ∧
    s.pc ≠ .done (some .invalidPosition)

structure Idle (slot : Nat) (s : State) : Prop where
  slot : (s.info.rmpReaderInfo.info slot).isActive = false
  serial : s.serialPc = .slot → False
  rmp : s.rmpPc = .idle

structure Inv (size : RingSize) (slot : Nat) (s : State) : Prop where
  shared : ∃ pending, s.shared.Inv size pending
  idle : s.activated = false → Idle slot s
  reader : s.activated = true → (s.call slot).Inv size s.shared.ledger
  resting : s.rmpPc ≠ .reading → s.pc = .idle
  valid : s.pc ≠ .done (some .invalidPosition)
  index : ∀ index, s.bufIndex = some index → inPass s.pc = true ∧
    index = bufIndex (indexMask s.shared.rb.configBufSizeBytes) s.reader.readerPos
  loaded : ∀ pos at_, s.serialPc = .store pos at_ → pos = BitVec.ofNat 64 at_ ∧
    ∃ rest, s.shared.ledger.Boundary at_ rest

section
variable {size : RingSize} {slot : Nat} {s t : State} {rb : ByteRingBuffer} {r r' : ReaderState}

theorem stepAt_eq (rb : ByteRingBuffer) (r : ReaderState) :
    stepAt rb (bufIndex (indexMask rb.configBufSizeBytes) r.pos) r = r.step rb := by
  unfold stepAt
  split
  next pc => simp only [ReaderState.step,pc]
  next pc => simp only [ReaderState.step,pc]
  next pc => simp only [ReaderState.step,pc]
  next pc => simp only [ReaderState.step,pc]
  next => rfl

theorem inPass_boundary {g : Ledger} (inv : r.Inv size g) (busy : inPass r.pc = true) :
    ∃ record rest, g.Boundary r.at_ (record :: rest) := by
  have sound := inv.sound
  cases pc : r.pc with
  | early => rw [pc] at sound; obtain ⟨_,_,boundary⟩ := sound; exact ⟨_,_,boundary⟩
  | header copied => rw [pc] at sound; obtain ⟨_,_,_,boundary,_⟩ := sound; exact ⟨_,_,boundary⟩
  | check hdrCopy => rw [pc] at sound; obtain ⟨_,_,_,boundary,_⟩ := sound; exact ⟨_,_,boundary⟩
  | payload hdrCopy copied => rw [pc] at sound; obtain ⟨_,_,boundary,_⟩ := sound; exact ⟨_,_,boundary⟩
  | final hdrCopy copied => rw [pc] at sound; obtain ⟨_,_,boundary,_⟩ := sound; exact ⟨_,_,boundary⟩
  | confirm hdrCopy copied => rw [pc] at sound; obtain ⟨_,boundary,_⟩ := sound; exact ⟨_,_,boundary⟩
  | advance hdrCopy => rw [pc] at sound; obtain ⟨_,_,boundary,_⟩ := sound; exact ⟨_,_,boundary⟩
  | _ => rw [pc] at busy; contradiction

theorem Inv.survives (inv : Inv size slot s) : Survives s := by
  intro activated
  obtain ⟨pending,shared⟩ := inv.shared
  have reader := inv.reader activated
  refine ⟨?_,inv.valid⟩
  have place {rest : List Record} (boundary : s.shared.ledger.Boundary s.at_ rest) :
      ∃ before, s.shared.ledger.log = before ++ rest ∧
        s.reader.readerPos = BitVec.ofNat 64 (s.shared.ledger.base + Rmp.sizeOf before) ∧
        s.shared.rb.freePos = BitVec.ofNat 64 (s.shared.ledger.base + Rmp.sizeOf before + Rmp.sizeOf rest) := by
    have free := shared.rep.freePos
    rw [← boundary.le] at free
    obtain ⟨before,split,start⟩ := boundary
    exact ⟨before,split,start ▸ reader.pos,start ▸ free⟩
  by_cases busy : inPass s.pc = true
  · obtain ⟨record,rest,boundary⟩ := inPass_boundary reader busy
    obtain ⟨before,split,pos,free⟩ := place boundary
    exact ⟨before,_,split,pos,free,fun _ => List.cons_ne_nil _ _⟩
  · obtain ⟨rest,boundary⟩ := reader.sound.boundary
    obtain ⟨before,split,pos,free⟩ := place boundary
    exact ⟨before,rest,split,pos,free,fun now => absurd now busy⟩

theorem pos_of_inPass (stepped : r.step rb = some r') (busy : inPass r.pc = true)
    (still : inPass r'.pc = true) : r'.pos = r.pos := by
  unfold ReaderState.step at stepped
  split at stepped
  next pc => rw [pc] at busy; contradiction
  next pc => rw [pc] at busy; contradiction
  next pc => rw [pc] at busy; contradiction
  next =>
    dsimp only at stepped
    split at stepped
    next => obtain rfl := Option.some.inj stepped; contradiction
    next => obtain rfl := Option.some.inj stepped; rfl
  next => obtain rfl := Option.some.inj stepped; rfl
  next => obtain rfl := Option.some.inj stepped; rfl
  next => obtain rfl := Option.some.inj stepped; rfl
  next => obtain rfl := Option.some.inj stepped; rfl
  next => obtain rfl := Option.some.inj stepped; rfl
  next => obtain rfl := Option.some.inj stepped; contradiction
  next pc => rw [pc] at busy; contradiction
  next pc => rw [pc] at busy; contradiction
  next pc => rw [pc] at busy; contradiction

/-- Only the first comparison finds a position invalid, which it does not while fewer than `2^63`
bytes are unread. -/
theorem valid_step {g : Ledger} {pending : List UInt8} (inv : r.Inv size g)
    (rep : Represents size rb g pending) (near : r.pc = .entry → g.free < r.at_ + 2^63)
    (stepped : r.step rb = some r') : r'.pc ≠ .done (some .invalidPosition) := by
  unfold ReaderState.step at stepped
  split at stepped
  next => contradiction
  next pc =>
    obtain rfl := Option.some.inj stepped
    obtain ⟨rest,boundary⟩ := inv.sound.boundary
    have behind := boundary.le
    have before : ¬ greaterThan r.pos rb.freePos = true := by
      rw [inv.pos,rep.freePos,greaterThan_iff (by omega) (near pc)]
      omega
    simp [before]
  next => obtain rfl := Option.some.inj stepped; dsimp only; split <;> nofun
  next =>
    dsimp only at stepped
    split at stepped
    next => obtain rfl := Option.some.inj stepped; nofun
    next => obtain rfl := Option.some.inj stepped; dsimp only; split <;> nofun
  next => obtain rfl := Option.some.inj stepped; dsimp only; split <;> nofun
  next =>
    obtain rfl := Option.some.inj stepped
    dsimp only
    repeat' split
    all_goals nofun
  next => obtain rfl := Option.some.inj stepped; dsimp only; split <;> nofun
  next => obtain rfl := Option.some.inj stepped; dsimp only; split <;> nofun
  next => obtain rfl := Option.some.inj stepped; nofun
  next => obtain rfl := Option.some.inj stepped; nofun
  next => obtain rfl := Option.some.inj stepped; nofun
  next => obtain rfl := Option.some.inj stepped; nofun
  next => contradiction

theorem Inv.shared_step {shared : Shared} {pending : List UInt8} (inv : Inv size slot s)
    (kept : shared.Inv size pending)
    (grown : ∀ p rest, s.shared.ledger.Boundary p rest → ∃ rest, shared.ledger.Boundary p rest)
    (reader : s.activated = true → (s.call slot).Inv size shared.ledger) :
    Inv size slot { s with shared := shared } := by
  obtain ⟨_,before⟩ := inv.shared
  refine ⟨⟨_,kept⟩,?_,reader,inv.resting,inv.valid,fun index known => ?_,fun pos at_ storing => ?_⟩
  · intro never
    obtain ⟨isActive,serial,rmp⟩ := inv.idle never
    exact ⟨isActive,serial,rmp⟩
  · obtain ⟨busy,value⟩ := inv.index index known
    refine ⟨busy,value.trans ?_⟩
    dsimp only
    rw [before.rep.config,kept.rep.config]
  · obtain ⟨value,rest,boundary⟩ := inv.loaded pos at_ storing
    exact ⟨value,grown _ _ boundary⟩

theorem Inv.store (inv : Inv size slot s) (stepped : next size slot s .store = some t) :
    Inv size slot t := by
  obtain ⟨pending,shared⟩ := inv.shared
  obtain ⟨w,stored,rfl⟩ := Option.map_eq_some_iff.mp stepped
  obtain ⟨_,kept⟩ := shared.store stored
  obtain ⟨self,ops,_,⟨index,cells,running,_,ledger⟩ | ⟨n,r,_,_,ledger⟩⟩ := Shared.store_cases stored
  · refine inv.shared_step kept (fun p rest boundary => ⟨rest,by rw [ledger]; exact boundary⟩)
      (fun activated => ?_)
    rw [ledger]
    exact (inv.reader activated).stored _
  · refine inv.shared_step kept (fun p rest boundary => ⟨rest ++ [r],?_⟩) (fun activated => ?_)
    · rw [ledger]
      exact boundary.grow rfl rfl
    · rw [ledger]
      exact (inv.reader activated).grow rfl rfl le_rfl

theorem bpos_irrelevant {g : Ledger} (inv : r.Inv size g) (bpos : Position) :
    { r with bpos := bpos }.Inv size g := by
  exact ⟨inv.pos,inv.sound⟩

theorem Inv.put {index : Option Position} (inv : Inv size slot s) (reading : s.rmpPc = .reading)
    (activated : s.activated = true) (allowed : allowed size slot s .rmp = true)
    (stepped : (s.call slot).step s.shared.rb = some r')
    (loaded : ∀ i, index = some i → inPass r'.pc = true ∧ s.bufIndex = some i) :
    Inv size slot (s.put slot r' index) := by
  obtain ⟨pending,shared⟩ := inv.shared
  have reader := inv.reader activated
  obtain ⟨near,inTime⟩ : ((s.call slot).pc = .entry → s.shared.ledger.free < s.at_ + 2^63) ∧
      (s.call slot).inTime size s.shared.ledger = true := by
    simp only [Reactivation.allowed,reading,Bool.and_eq_true,Bool.or_eq_true,decide_eq_true_eq] at allowed
    exact ⟨fun entry => allowed.1.resolve_left (not_not_intro entry),allowed.2⟩
  have after := reader.step shared.rep inTime stepped
  refine ⟨inv.shared,fun never => absurd (activated.symm.trans never) nofun,
    fun _ => bpos_irrelevant after _,fun away => absurd reading away,
    valid_step reader shared.rep near stepped,fun i some => ?_,inv.loaded⟩
  obtain ⟨still,known⟩ := loaded i some
  obtain ⟨busy,value⟩ := inv.index i known
  refine ⟨still,value.trans ?_⟩
  have same := pos_of_inPass stepped busy still
  simp only [State.put]
  rw [same]
  rfl

theorem Inv.busy (inv : Inv size slot s) (busy : s.rmpPc ≠ .idle) : s.activated = true := by
  by_contra never
  exact busy (inv.idle (by simpa using never)).rmp

theorem Inv.ended (inv : Inv size slot s) (reading : s.rmpPc = .reading) {result : Option Rmp.Reader.Result}
    (pc : s.pc = .done result) (info : ReaderInfo) {reader : Tp.Reader}
    (same : reader.readerPos = s.reader.readerPos) :
    Inv size slot { s with info := info, reader := reader, rmpPc := .idle, pc := .idle } := by
  have activated := inv.busy (by simp [reading])
  have before := inv.reader activated
  refine ⟨inv.shared,fun never => absurd (never.symm.trans activated) Bool.false_ne_true,fun _ => ?_,fun _ => rfl,
    by simp,fun index known => ?_,inv.loaded⟩
  · exact ⟨same.trans before.pos,before.sound.boundary⟩
  · have busy := (inv.index index known).1
    rw [pc] at busy
    contradiction

theorem Inv.rmp (inv : Inv size slot s) (allowed : allowed size slot s .rmp = true)
    (stepped : s.rmp slot = some t) : Inv size slot t := by
  unfold State.rmp at stepped
  split at stepped
  next idle =>
    split at stepped
    next => contradiction
    next =>
      obtain rfl := Option.some.inj stepped
      refine ⟨inv.shared,fun never => ?_,inv.reader,fun _ => ?_,inv.valid,inv.index,inv.loaded⟩
      · obtain ⟨isActive,serial,_⟩ := inv.idle never
        exact ⟨isActive,serial,by simp [isActive]⟩
      · exact inv.resting (by simp [idle])
  next active =>
    have pc := inv.resting (by simp [active])
    split at stepped
    next isActive =>
      obtain rfl := Option.some.inj stepped
      have activated := inv.busy (by simp [active])
      have sound := (inv.reader activated).sound
      refine ⟨inv.shared,fun never => absurd (never.symm.trans activated) Bool.false_ne_true,fun _ => ?_,
        fun away => absurd rfl away,by simp,fun index known => ?_,inv.loaded⟩
      · exact ⟨(inv.reader activated).pos,sound.boundary⟩
      · have busy := (inv.index index known).1
        rw [pc] at busy
        contradiction
    next idle =>
      obtain rfl := Option.some.inj stepped
      exact ⟨inv.shared,fun never => absurd (inv.idle never).rmp (by simp [active]),inv.reader,
        fun _ => pc,inv.valid,inv.index,inv.loaded⟩
  next reading =>
    have activated := inv.busy (by simp [reading])
    split at stepped
    next pc =>
      obtain rfl := Option.some.inj stepped
      exact inv.ended reading pc s.info rfl
    next pc =>
      obtain rfl := Option.some.inj stepped
      exact inv.ended reading pc _ rfl
    next => contradiction
    next =>
      split at stepped
      next none =>
        split at stepped
        next busy =>
          obtain rfl := Option.some.inj stepped
          refine ⟨inv.shared,fun never => absurd (never.symm.trans activated) Bool.false_ne_true,inv.reader,inv.resting,
            inv.valid,fun index same => ?_,inv.loaded⟩
          exact ⟨busy,(Option.some.inj same).symm⟩
        next =>
          obtain ⟨r',moved,rfl⟩ := Option.map_eq_some_iff.mp stepped
          exact inv.put reading activated allowed moved (by simp [none])
      next index known =>
        obtain ⟨r',moved,rfl⟩ := Option.map_eq_some_iff.mp stepped
        rw [(inv.index index known).2] at moved
        refine inv.put reading activated allowed ((stepAt_eq _ (s.call slot)).symm.trans moved) (fun i some => ?_)
        obtain ⟨still,same⟩ := Option.ite_none_right_eq_some.mp some
        exact ⟨still,known.trans same⟩
  next => contradiction

theorem Inv.activate {pos : Position} {at_ : Nat} (inv : Inv size slot s)
    (allowed : allowed size slot s .serial = true) (storing : s.serialPc = .store pos at_) :
    Inv size slot { s with
      reader := { s.reader with readerPos := pos }, activated := true, at_ := at_, serialPc := .slot } := by
  obtain ⟨value,rest,boundary⟩ := inv.loaded pos at_ storing
  have between : inPass s.pc = false := by
    simpa only [Reactivation.allowed,storing,Bool.not_eq_true'] using allowed
  refine ⟨inv.shared,nofun,fun _ => ⟨value,?_⟩,inv.resting,inv.valid,fun index known => ?_,nofun⟩
  · simp only [State.call]
    cases pc : s.pc with
    | idle | entry | head | publish | last => exact ⟨rest,boundary⟩
    | done result =>
      have reading : s.rmpPc = .reading := by
        by_contra away
        have idle := inv.resting away
        rw [pc] at idle
        contradiction
      have sound := (inv.reader (inv.busy (by simp [reading]))).sound
      simp only [State.call,pc] at sound
      exact ⟨sound.1,rest,boundary⟩
    | _ => rw [pc] at between; contradiction
  · have busy := (inv.index index known).1
    rw [between] at busy
    contradiction

theorem removeChannelReader_frame (slot : Nat) (info : ReaderInfo) (r : Tp.Reader) (id : Nat) :
    (r.removeChannelReader slot info id).2.readerPos = r.readerPos ∧
      ((info.rmpReaderInfo.info slot).isActive = false →
        ((r.removeChannelReader slot info id).1.rmpReaderInfo.info slot).isActive = false) := by
  unfold Tp.Reader.removeChannelReader
  dsimp only
  split
  · exact ⟨rfl,fun _ => by simp [ReaderInfo.isActive_deactivate]⟩
  · exact ⟨rfl,fun idle => idle⟩

theorem Inv.serial (inv : Inv size slot s) (allowed : allowed size slot s .serial = true)
    (stepped : s.serial slot = some t) : Inv size slot t := by
  obtain ⟨pending,shared⟩ := inv.shared
  -- everything but a position being set
  have other (info : ReaderInfo) (reader : Tp.Reader) (serialPc : SerialPc)
      (pos : reader.readerPos = s.reader.readerPos)
      (idle : s.activated = false → (info.rmpReaderInfo.info slot).isActive = false ∧ (serialPc = .slot → False))
      (loaded : ∀ pos at_, serialPc = .store pos at_ →
        pos = BitVec.ofNat 64 at_ ∧ ∃ rest, s.shared.ledger.Boundary at_ rest) :
      Inv size slot { s with info := info, reader := reader, serialPc := serialPc } := by
    refine ⟨inv.shared,fun never => ⟨(idle never).1,(idle never).2,(inv.idle never).rmp⟩,fun activated => ?_,
      inv.resting,inv.valid,fun index known => ?_,loaded⟩
    · have before := inv.reader activated
      exact ⟨pos.trans before.pos,before.sound⟩
    · dsimp only
      rw [pos]
      exact inv.index index known
  have calm (never : s.activated = false) := inv.idle never
  unfold State.serial at stepped
  split at stepped
  next => contradiction
  next =>
    obtain rfl := Option.some.inj stepped
    refine other s.info _ _ rfl (fun never => ⟨(calm never).slot,?_⟩) (fun _ _ => ?_)
    · split <;> nofun
    · split <;> nofun
  next id rest idle _ =>
    obtain ⟨pos,closed⟩ := removeChannelReader_frame slot s.info s.reader id
    cases removed : s.reader.removeChannelReader slot s.info id with
    | mk info reader =>
      rw [removed] at stepped pos closed
      obtain rfl := Option.some.inj stepped
      exact other _ _ _ pos (fun never => ⟨closed (calm never).slot,(calm never).serial⟩) inv.loaded
  next idle _ =>
    obtain rfl := Option.some.inj stepped
    refine other _ _ _ ?_ (fun never => ⟨(calm never).slot,(calm never).serial⟩) inv.loaded
    simp only [Tp.Reader.run]
    split <;> rfl
  next =>
    obtain rfl := Option.some.inj stepped
    refine other _ _ _ rfl (fun never => ⟨(calm never).slot,nofun⟩) (fun pos at_ same => ?_)
    cases same
    exact ⟨shared.rep.freePos,[],s.shared.ledger.log,(List.append_nil _).symm,rfl⟩
  next storing =>
    obtain rfl := Option.some.inj stepped
    exact inv.activate allowed storing
  next storing =>
    obtain rfl := Option.some.inj stepped
    exact other _ _ _ rfl (fun never => ((calm never).serial storing).elim) nofun

theorem Inv.step {a : Action} (inv : Inv size slot s) (allowed : allowed size slot s a = true)
    (stepped : next size slot s a = some t) : Inv size slot t := by
  have queued (task : SerialTask ChannelReader) : Inv size slot (s.enqueueSerial task) :=
    ⟨inv.shared,fun never => ⟨(inv.idle never).slot,(inv.idle never).serial,(inv.idle never).rmp⟩,inv.reader,
      inv.resting,inv.valid,inv.index,inv.loaded⟩
  cases a with
  | begin self data =>
    obtain ⟨pending,shared⟩ := inv.shared
    obtain ⟨w,begun,rfl⟩ := Option.map_eq_some_iff.mp stepped
    have kept := shared.begin begun
    obtain ⟨_,_,_,rfl⟩ := Shared.begin_eq begun
    exact inv.shared_step kept (fun _ rest boundary => ⟨rest,boundary⟩) inv.reader
  | store => exact inv.store stepped
  | finish =>
    obtain ⟨pending,shared⟩ := inv.shared
    obtain ⟨w,finished,rfl⟩ := Option.map_eq_some_iff.mp stepped
    have kept := shared.finish finished
    obtain ⟨_,_,rfl⟩ := Shared.finish_eq finished
    exact inv.shared_step kept (fun _ rest boundary => ⟨rest,boundary⟩) inv.reader
  | createChannelReader c => exact Option.some.inj stepped ▸ queued _
  | closeChannelReader id => exact Option.some.inj stepped ▸ queued _
  | run => exact Option.some.inj stepped ▸ queued _
  | serial => exact inv.serial allowed stepped
  | rmp => exact inv.rmp allowed stepped

end

def start64 : State := start (.create ring64.position (fun _ => 0)) ⟨0,true,.create 1⟩ 0

theorem start64_init : (sys ring64 0).init start64 := by
  exact ⟨_,_,_,rfl,rfl,rfl⟩

def channelReader (id : Nat) : ChannelReader := ⟨id,[97],false,0⟩

def message : List UInt8 := TopicMsgBinarySerializer.serialize 0 false [97] [7]

end Toroni.Tp.Reactivation
