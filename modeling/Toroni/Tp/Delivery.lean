import Toroni.Rmp.Protocol
import Toroni.Rmp.ReadBack
import Toroni.Tp.AsyncWriter

/-! From a created topic message to the readers that have read everything before it: which
messages can be posted, written without asking, and read. -/
namespace Toroni.Tp.Delivery
open Rmp Transition Traits Writer Reader

def sys (size : RingSize) : System Protocol.State Event where
  init s := (Protocol.sys size).init s ∧ s.rb.writerMtx = .unlocked
  step := Protocol.Step size

def CaughtUp (s : Protocol.State) : Prop :=
  ∀ i, s.isActive i = true →
    s.readerPos i = s.rb.freePos ∧ (s.ri.info i).position = s.rb.freePos

def WrittenAndRead (s : Protocol.State) (rbMsg : TopicMsgBinary) : Prop :=
  ∀ self answers, ∃ out, writeEx self s.rb (fun _ => s.ri) rbMsg answers = some out ∧
    out.result = .returned ∧ out.handlerCalls = [] ∧
    SameStream (append s.rb rbMsg (layout s.rb (BitVec.ofNat 64 rbMsg.length))) out.rb ∧
    ∀ i, s.isActive i = true → ∃ passes pos bpos,
      readEx (fun _ => true) out.rb passes (s.readerPos i) (s.ri.info i).position =
        some ⟨some .success,pos,bpos,[rbMsg]⟩

def Deliverable (s : Protocol.State) (rbMsg : TopicMsgBinary) : Prop :=
  (∀ queue, (AsyncWriter.post s.rb id queue rbMsg).isSome) ∧ (CaughtUp s → WrittenAndRead s rbMsg)

/-- The message is below the maximal size, and where some reader is active and all of them have
caught up, the bytes it takes with the rest of the buffer are fewer than the buffer has, and
this rest is not exactly a header. -/
def Admissible (size : RingSize) (s : Protocol.State) (rbMsg : TopicMsgBinary) : Prop :=
  MsgHeader.size + rbMsg.length < size.bytes ∧
    (CaughtUp s → (∃ i, s.isActive i = true) →
      MsgHeader.size + rbMsg.length +
          (if lengthToBufEnd s.rb < MsgHeader.size + rbMsg.length then lengthToBufEnd s.rb else 0) <
        size.bytes ∧
      lengthToBufEnd s.rb ≠ MsgHeader.size)

structure Inv (size : RingSize) (s : Protocol.State) : Prop where
  config : s.rb.configBufSizeBytes = size.position
  covers : s.ri.Covers
  inside : ∀ i, s.isActive i = true → i < s.ri.configMaxReaders.toNat
  idle : s.rb.writerMtx = .unlocked

section
variable {size : RingSize} {s t : Protocol.State} {rbMsg : TopicMsgBinary} {event : Event}

theorem Inv.put {self : Owner} {answers : List BpAnswer} {data : List UInt8} {out : WriteExOutcome}
    (inv : Inv size s) (legal : Legal size.bytes data)
    (called : writeEx self s.rb (fun _ => s.ri) data answers = some out)
    (ended : out.result = .returned ∨ out.result = .threw) : Inv size (s.put out.rb) := by
  have free : s.rb.freePos = BitVec.ofNat 64 s.rb.freePos.toNat := by simp
  have wrote := writeEx_wrote inv.config free legal called
  refine ⟨?_,inv.covers,inv.inside,writeEx_unlocks called ended⟩
  rcases ended with returned | threw
  · exact (represents_writeEx (Represents.fresh s.rb inv.config) (by simp [Ledger.free]) legal called
      returned).config
  · exact (wrote.otherwise (by rw [threw]; decide)).config.trans inv.config

theorem Inv.step (inv : Inv size s) (stepped : (sys size).step s event t) : Inv size t := by
  cases stepped with
  | wrote self answers out legal called returned => exact inv.put legal called (Or.inl returned)
  | gaveUp self answers out legal called threw => exact inv.put legal called (Or.inr threw)
  | @activated i inside =>
    refine ⟨inv.config,ReaderInfo.updateActiveRange_covers _,fun j active => ?_,inv.idle⟩
    rw [Protocol.State.isActive_activate] at active
    split at active
    next same => exact same ▸ inside
    next => exact inv.inside j active
  | @deactivated i _ =>
    refine ⟨inv.config,ReaderInfo.updateActiveRange_covers _,fun j active => ?_,inv.idle⟩
    rw [Protocol.State.isActive_deactivate] at active
    split at active
    next => contradiction
    next => exact inv.inside j active
  | @read i passes active out done =>
    refine ⟨inv.config,?_,fun j active => ?_,inv.idle⟩
    · simp only [Protocol.State.finishRead]
      split <;> exact inv.covers.setPosition i out.bpos
    · rw [Protocol.State.isActive_finishRead] at active
      have within := inv.inside j active
      simp only [Protocol.State.finishRead]
      split <;> exact within

theorem reachable_inv (reached : Reachable (sys size) s) : Inv size s := by
  refine reached.invariant (Inv size) ?_ (fun s event t inv stepped => inv.step stepped)
  rintro s ⟨⟨config,idle⟩,unlocked⟩
  have none (i : Nat) (active : s.isActive i = true) : False := by
    rw [idle i] at active
    contradiction
  exact ⟨config,fun i _ active => (none i active).elim,fun i active => (none i active).elim,unlocked⟩

theorem created_legal {readerGen : ReaderGen} {channelName : Chars} {msg : List UInt8}
    {postToDescendants : Bool} (config : s.rb.configBufSizeBytes = size.position)
    (created : AsyncWriter.createMessage s.rb readerGen channelName msg postToDescendants =
      .created rbMsg) : Legal size.bytes rbMsg ∧ 1 ≤ rbMsg.length := by
  have bounds := size.bounds
  unfold AsyncWriter.createMessage at created
  split at created
  next => contradiction
  next =>
    dsimp only at created
    split at created
    next => contradiction
    next short =>
      split at created
      next whole =>
        obtain rfl := AsyncWriter.Created.created.inj created
        rw [BitVec.lt_def,toNat_getMaxMessageSize config,BitVec.toNat_setWidth,← whole] at short
        have narrow := (TopicMsgBinarySerializer.sizeOf (channelName.takeWhile (· != 0))
          (BitVec.ofNat 32 msg.length)).isLt
        rw [← whole] at narrow
        refine ⟨⟨?_,narrow⟩,by rw [length_serialize]; omega⟩
        rw [Nat.mod_eq_of_lt (by omega)] at short
        simp only [MsgHeader.size] at short ⊢
        omega
      next => contradiction

theorem post_isSome (config : s.rb.configBufSizeBytes = size.position)
    (legal : Legal size.bytes rbMsg) (queue : MPSCMessageQueue TopicMsgBinary) :
    (AsyncWriter.post s.rb id queue rbMsg).isSome ↔ MsgHeader.size + rbMsg.length < size.bytes := by
  have narrow := legal.2
  have less : BitVec.ofNat 64 rbMsg.length < getMaxMessageSize s.rb ↔
      MsgHeader.size + rbMsg.length < size.bytes := by
    rw [BitVec.lt_def,toNat_getMaxMessageSize config,BitVec.toNat_ofNat]
    omega
  unfold AsyncWriter.post
  split
  next fits => simp [less.mp fits]
  next exceeds => simp [mt less.mpr exceeds]

/-- A caught-up reader causes backpressure on a message that takes a whole buffer. -/
theorem quiet_iff (inv : Inv size s) (legal : Legal size.bytes rbMsg) (caught : CaughtUp s) :
    detectReaderBackpressure s.rb s.ri
        (BitVec.ofNat 64 (Rmp.sizeOf (appended size.bytes s.rb.freePos.toNat rbMsg))) none = none ↔
      ((∃ i, s.isActive i = true) → Rmp.sizeOf (appended size.bytes s.rb.freePos.toNat rbMsg) < size.bytes) := by
  have free : s.rb.freePos = BitVec.ofNat 64 s.rb.freePos.toNat := by simp
  have small := sizeOf_appended_lt s.rb.freePos.toNat legal
  have slot (i : Nat) (active : s.isActive i = true) : slotBackpressure s.rb
      (BitVec.ofNat 64 (Rmp.sizeOf (appended size.bytes s.rb.freePos.toNat rbMsg))) none true
        (s.ri.info i).position = true ↔ size.bytes ≤ Rmp.sizeOf (appended size.bytes s.rb.freePos.toNat rbMsg) := by
    have bounds := size.bounds
    rw [(caught i active).2.trans free,slotBackpressure_iff inv.config free le_rfl (by omega) small.2
      (by omega)]
    omega
  rw [detectReaderBackpressure_eq_none]
  constructor
  · rintro none ⟨i,active⟩
    obtain ⟨low,high⟩ := inv.covers i (inv.inside i active) active
    have passed := none i low high
    rw [show (s.ri.info i).isActive = true from active] at passed
    by_contra large
    have stops := (slot i active).mpr (by omega)
    rw [passed] at stops
    contradiction
  · intro fits i _ _
    by_cases active : s.isActive i = true
    · rw [show (s.ri.info i).isActive = true from active,Bool.eq_false_iff]
      intro stops
      have := (slot i active).mp stops
      have := fits ⟨i,active⟩
      omega
    · rw [Protocol.State.isActive] at active
      simp [slotBackpressure,active]

/-- The next call of a caught-up reader confirms the new message exactly if the bytes of the
message have not expired the reader and no record in front of it is empty. -/
theorem next_read {out : WriteExOutcome} {i : Nat} {self : Owner} {answers : List BpAnswer}
    (inv : Inv size s) (legal : Legal size.bytes rbMsg) (content : 1 ≤ rbMsg.length)
    (fits : Rmp.sizeOf (appended size.bytes s.rb.freePos.toNat rbMsg) < size.bytes)
    (caught : s.readerPos i = s.rb.freePos)
    (called : writeEx self s.rb (fun _ => s.ri) rbMsg answers = some out)
    (returned : out.result = .returned) :
    (∃ passes pos bpos, readEx (fun _ => true) out.rb passes (s.readerPos i) (s.ri.info i).position =
      some ⟨some .success,pos,bpos,[rbMsg]⟩) ↔ lengthToBufEnd s.rb ≠ MsgHeader.size := by
  have bounds := size.bounds
  have free : s.rb.freePos = BitVec.ofNat 64 s.rb.freePos.toNat := by simp
  have rep := represents_writeEx (Represents.fresh s.rb inv.config) (by simp [Ledger.free]) legal called
    returned
  generalize s.rb.freePos.toNat = f at *
  simp only [Ledger.free,sizeOf_nil,Nat.add_zero,List.nil_append] at rep
  obtain ⟨bpos,read,_⟩ := readEx_spec (fun _ => true) (s.ri.info i).position rep
    (show _ = [] ++ appended size.bytes f rbMsg from rfl) (show f = f + Rmp.sizeOf [] from rfl)
    (by simp only [Ledger.free]; omega) (by simp only [Ledger.free]; omega)
  simp only [Ledger.free] at read
  rw [← free,← caught] at read
  rw [lengthToBufEnd_eq inv.config free,← empty_appended content,
    ← readLog_fresh (fun _ => true) (show f + Rmp.sizeOf (appended size.bytes f rbMsg) < f + size.bytes by omega)]
  constructor
  · rintro ⟨passes,pos,bpos',done⟩
    have same := readEx_unique read done
    exact Option.some.inj (congrArg Outcome.result same)
  · intro success
    obtain ⟨result,went,left,split,value,ending⟩ := readLog_all size.bytes
      (f + Rmp.sizeOf (appended size.bytes f rbMsg)) f (appended size.bytes f rbMsg)
    rw [value] at success
    rcases ending with ⟨none,_⟩ | ⟨_,_,_,_,expired⟩
    · rw [none,List.append_nil] at split
      rw [value,← split,messages_appended,success] at read
      exact ⟨_,_,_,read⟩
    · rw [expired] at success
      contradiction

/-- In every reachable state, a message that `CreateMessage` made is deliverable if and only if
it is admissible. -/
theorem deliverable_iff {readerGen : ReaderGen} {channelName : Chars} {msg : List UInt8}
    {postToDescendants : Bool} (reached : Reachable (sys size) s)
    (created : AsyncWriter.createMessage s.rb readerGen channelName msg postToDescendants =
      .created rbMsg) : Deliverable s rbMsg ↔ Admissible size s rbMsg := by
  have inv := reachable_inv reached
  have free : s.rb.freePos = BitVec.ofNat 64 s.rb.freePos.toNat := by simp
  obtain ⟨legal,content⟩ := created_legal inv.config created
  have posted : (∀ queue, (AsyncWriter.post s.rb id queue rbMsg).isSome) ↔
      MsgHeader.size + rbMsg.length < size.bytes :=
    ⟨fun all => (post_isSome inv.config legal .create).mp (all _),
      fun short queue => (post_isSome inv.config legal queue).mpr short⟩
  rw [Deliverable,Admissible,posted]
  refine and_congr_right (fun short => forall_congr' (fun caught => ?_))
  rw [lengthToBufEnd_eq inv.config free,← sizeOf_appended,← lengthToBufEnd_eq inv.config free]
  have quiet := quiet_iff inv legal caught
  constructor
  · rintro written ⟨i,active⟩
    obtain ⟨out,called,returned,silent,_,reads⟩ := written 0 []
    have fits := quiet.mp ((writeEx_quiet inv.config free legal called).1 (by rw [returned]; decide) silent)
      ⟨i,active⟩
    exact ⟨fits,(next_read inv legal content fits (caught i active).1 called returned).mp (reads i active)⟩
  · intro condition self answers
    have locked : s.rb.writerMtx.lock self = some (.locked self) := by rw [inv.idle]; rfl
    have called : writeEx self s.rb (fun _ => s.ri) rbMsg answers = some _ :=
      Option.map_eq_some_iff.mpr ⟨_,locked,rfl⟩
    have passed := quiet.mpr (fun some => (condition some).1)
    obtain ⟨returned,silent⟩ := (writeEx_quiet inv.config free legal called).2 passed
    refine ⟨_,called,returned,silent,?_,fun i active => ?_⟩
    · rw [append_eq inv.config free legal.2,stores_eq inv.config free legal.2]
      exact (writeEx_wrote inv.config free legal called).returned returned
    · obtain ⟨fits,apart⟩ := condition ⟨i,active⟩
      exact (next_read inv legal content fits (caught i active).1 called returned).mpr apart

end

def ring32 : RingSize := ⟨32,5,by decide,by decide,rfl⟩

def start (size : RingSize) : Protocol.State :=
  ⟨ByteRingBuffer.create size.position (fun _ => 0),ReaderInfo.create 1,fun _ => 0,fun _ => 0⟩

theorem start_init (size : RingSize) : (sys size).init (start size) := by
  exact ⟨⟨rfl,fun _ => rfl⟩,rfl⟩

/-- A message of one byte for an active reader of an empty ring. -/
theorem deliverable_one_byte :
    Deliverable ((start ring32).activate 0) (TopicMsgBinarySerializer.serialize 0 false [97] [7]) := by
  have active : Reachable (sys ring32) ((start ring32).activate 0) :=
    ⟨_,_,start_init ring32,.snoc (.nil _) (.activated (by decide))⟩
  have created : AsyncWriter.createMessage ((start ring32).activate 0).rb 0 [97] [7] false =
      .created (TopicMsgBinarySerializer.serialize 0 false [97] [7]) := by decide
  exact (deliverable_iff active created).mpr ⟨by decide,fun _ _ => by decide⟩

/-- A message of the maximal size is created but not accepted by `Post`. -/
theorem maximal_size_undeliverable :
    ∃ s rbMsg, Reachable (sys ring16) s ∧
      AsyncWriter.createMessage s.rb 0 [] [7] false = .created rbMsg ∧
      rbMsg.length = (getMaxMessageSize s.rb).toNat ∧ ¬ Deliverable s rbMsg := by
  refine ⟨start ring16,TopicMsgBinarySerializer.serialize 0 false [] [7],⟨_,_,start_init ring16,.nil _⟩,
    by decide,by decide,?_⟩
  rintro ⟨posted,_⟩
  exact absurd (posted .create) (by decide)

end Toroni.Tp.Delivery
