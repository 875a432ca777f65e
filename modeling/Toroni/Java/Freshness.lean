import Toroni.Java.ReaderSteps
import Toroni.Rmp.TornReads

/-! How far the published position of a reader that is at work falls behind, in both languages, among
writers that append to the stream store by store. -/
namespace Toroni.Java.Freshness
open Rmp Rmp.Writer TwosComplement Traits Transition
open Rmp.TornReads (State start)

def readStep (rb : ByteRingBuffer) (r : Rmp.ReaderState) : Language → Option Rmp.ReaderState
  | .cpp => r.step rb
  | .java => ReaderState.step rb r

def decline (r : Rmp.ReaderState) : Option Rmp.ReaderState :=
  match r.pc with
  | .payload hdrCopy _ | .final hdrCopy _ => some { r with pc := .advance hdrCopy }
  | _ => none

def counts (data : List UInt8) : Language → Bool
  | .cpp => true
  | .java => decide (MsgHeader.size + data.length < 2^31)

inductive Action
  | begin (self : Owner) (data : List UInt8)
  | store
  | finish
  | startRead (records : Nat)
  | read
  | decline

/-- Positions stay below `2^63 - B`, and the reader is not overrun between a copy and the comparison
behind it. -/
def next (language : Language) (size : RingSize) (s : State) : Action → Option State
  | .begin self data =>
    if counts data language then (s.shared.begin size self data).map (fun shared => { s with shared := shared })
    else none
  | .store =>
    (s.shared.store size).bind (fun shared =>
      if shared.ledger.free + size.bytes < 2^63 then some { s with shared := shared } else none)
  | .finish => s.shared.finish.map (fun shared => { s with shared := shared })
  | .startRead records =>
    let start := s.shared.ledger.behind records
    if s.reader.reading = false then
      some { s with reader := ⟨.entry,BitVec.ofNat 64 start,BitVec.ofNat 64 start,start⟩ }
    else none
  | .read =>
    if s.reader.inTime size s.shared.ledger then
      (readStep s.shared.rb s.reader language).map (fun reader => { s with reader := reader })
    else none
  | .decline => (decline s.reader).map (fun reader => { s with reader := reader })

def sys (language : Language) (size : RingSize) : System State Action :=
  .ofNext (fun s => ∃ rb, rb.configBufSizeBytes = size.position ∧ rb.freePos.toNat + size.bytes < 2^63 ∧
    s = start rb) (next language size)

structure Fresh (limit : Nat) (s : State) : Prop where
  behind : (s.reader.pc = .head ∨ ∃ hdrCopy data, s.reader.pc = .confirm hdrCopy data) →
    (∃ rest, s.shared.ledger.Boundary s.reader.bpos.toNat rest) ∧
      s.reader.bpos.toNat ≤ s.reader.pos.toNat ∧ s.reader.pos.toNat < s.reader.bpos.toNat + limit
  done : s.reader.pc = .done (some .success) → s.reader.bpos = s.reader.pos

def lag (s : State) : Nat := s.reader.pos.toNat - s.reader.bpos.toNat

/-- No record, and no blank tail, ends as far as `B / 2 + 5` bytes behind the position that a Java
reader has published, unless it is a record that makes it publish. -/
def allowed (language : Language) (size : RingSize) (s : State) : Action → Bool
  | .read =>
    let tail := size.bytes - s.reader.pos.toNat % size.bytes
    match language, s.reader.pc with
    | .java, .publish => decide (lag s < size.bytes / 2 + 5 ∨ size.bytes ≤ lag s)
    | .java, .early => decide (tail < MsgHeader.size → lag s + tail < size.bytes / 2 + 5)
    | _, _ => true
  | _ => true

def maxLag (size : RingSize) : Language → Nat
  | .cpp => size.bytes / 2
  | .java => size.bytes

structure Small (w : Shared) : Prop where
  log : ∀ record ∈ w.ledger.log, record.size < 2^31
  rest : ∀ self ops n record, w.writer = some (self,ops) → .freePos n record ∈ ops → record.size < 2^31

def Within (limit : Nat) (size : RingSize) (r : Rmp.ReaderState) : Prop :=
  r.at_ < r.bpos.toNat + limit ∨ r.at_ % size.bytes = 0 ∧ r.at_ < r.bpos.toNat + limit + 5

structure Inv (language : Language) (size : RingSize) (s : State) : Prop where
  shared : ∃ pending, s.shared.Inv size pending
  reader : s.reader.Inv size s.shared.ledger
  near : s.shared.ledger.free + size.bytes < 2^63
  small : language = .java → Small s.shared
  boundary : ∃ rest, s.shared.ledger.Boundary s.reader.bpos.toNat rest
  order : s.reader.bpos.toNat ≤ s.reader.at_
  lag : s.reader.pc ≠ .publish → Within (maxLag size language) size s.reader
  done : s.reader.pc = .done (some .success) → s.reader.bpos = s.reader.pos

section
variable {language : Language} {size : RingSize} {s t : State} {action : Action} {w v : Shared}
  {data : List UInt8} {record : Record} {r r' : Rmp.ReaderState} {rb : ByteRingBuffer}

theorem mem_payloadStores {n : Position} {index : Nat} : .freePos n record ∉ payloadStores index data := by
  induction data generalizing index with
  | nil => simp [payloadStores]
  | cons b data ih => simp [payloadStores,ih]

theorem mem_recordStores {n : Position} {index : Nat} {written : Record}
    (member : .freePos n record ∈ recordStores index written) : record = written := by
  cases written with
  | msg data =>
    simp only [recordStores,List.mem_cons,List.mem_append,mem_payloadStores,reduceCtorEq,false_or,
      List.not_mem_nil,or_false,Store.freePos.injEq] at member
    exact member.2
  | padding length | blank length =>
    simp only [recordStores,List.mem_cons,reduceCtorEq,false_or,List.not_mem_nil,or_false,
      Store.freePos.injEq] at member
    exact member.2

theorem mem_logStores {B p : Nat} {n : Position} {log : List Record}
    (member : .freePos n record ∈ logStores B p log) : record ∈ log := by
  induction log generalizing p with
  | nil => simp [logStores] at member
  | cons written log ih =>
    rw [logStores,List.mem_append] at member
    rcases member with here | later
    · rw [mem_recordStores here]
      exact List.mem_cons_self
    · exact List.mem_cons_of_mem _ (ih later)

theorem size_of_appended {B f : Nat} (member : record ∈ appended B f data) :
    record.size ≤ MsgHeader.size + data.length := by
  unfold appended at member
  dsimp only at member
  split at member
  next short =>
    rcases List.mem_cons.mp member with rfl | last
    · simp only [Record.size]
      omega
    · rw [List.mem_singleton.mp last,Record.size]
  next =>
    split at member
    next =>
      rcases List.mem_cons.mp member with rfl | last
      · simp only [Record.size]
        omega
      · rw [List.mem_singleton.mp last,Record.size]
    next => rw [List.mem_singleton.mp member,Record.size]

theorem Small.begin {self : Owner} {pending : List UInt8} (small : Small w) (inv : w.Inv size pending)
    (counted : counts data .java = true) (begun : w.begin size self data = some v) : Small v := by
  obtain ⟨legal,mtx,_,rfl⟩ := Shared.begin_eq begun
  refine ⟨small.log,?_⟩
  intro other ops n record running member
  obtain ⟨_,rfl⟩ := Prod.mk.inj (Option.some.inj running)
  rw [stores_eq inv.rep.config inv.rep.freePos legal.2] at member
  have short := size_of_appended (mem_logStores member)
  simp only [counts,decide_eq_true_eq] at counted
  omega

theorem Small.store (small : Small w) (stored : w.store size = some v) : Small v := by
  obtain ⟨self,ops,left,⟨index,cells,running,_,ledger⟩ | ⟨n,record,running,_,ledger⟩⟩ := Shared.store_cases stored
  · constructor
    · rw [ledger]
      exact small.log
    · intro other more m record same member
      rw [left] at same
      obtain ⟨rfl,rfl⟩ := Prod.mk.inj (Option.some.inj same)
      exact small.rest self _ m record running (List.mem_cons_of_mem _ member)
  · constructor
    · rw [ledger]
      intro written member
      rcases List.mem_append.mp member with before | last
      · exact small.log written before
      · rw [List.mem_singleton.mp last]
        exact small.rest self _ n record running List.mem_cons_self
    · intro other more m written same member
      rw [left] at same
      obtain ⟨rfl,rfl⟩ := Prod.mk.inj (Option.some.inj same)
      exact small.rest self _ m written running (List.mem_cons_of_mem _ member)

theorem Inv.real (inv : Inv language size s) :
    s.reader.pos.toNat = s.reader.at_ ∧ s.reader.at_ ≤ s.shared.ledger.free := by
  obtain ⟨rest,boundary⟩ := inv.reader.sound.boundary
  have behind := boundary.le
  have near := inv.near
  rw [inv.reader.pos,BitVec.toNat_ofNat]
  omega

theorem Small.counted (small : Small w) {p : Nat} {rest : List Record} {hdr : MsgHeader}
    (boundary : w.ledger.Boundary p (record :: rest)) (size_eq : record.size = MsgHeader.size + hdr.length) :
    hdr.length < 2^31 := by
  obtain ⟨before,split,_⟩ := boundary
  have short := small.log record (split ▸ List.mem_append_right before List.mem_cons_self)
  omega

theorem Inv.counted (inv : Inv .java size s) (inTime : s.reader.inTime size s.shared.ledger = true) :
    ReaderState.Counted s.shared.rb s.reader := by
  obtain ⟨pending,shared⟩ := inv.shared
  have small := inv.small rfl
  have sound := inv.reader.sound
  cases pc : s.reader.pc with
  | check hdrCopy =>
    rw [pc] at sound
    obtain ⟨record,rest,hdr,boundary,known,read⟩ := sound
    simp only [ReaderState.Counted,pc]
    intro kept
    rw [inv.reader.pos,shared.rep.config] at kept
    rw [read (boundary.intact shared.rep inTime (Or.inl ⟨_,pc⟩) kept)]
    obtain ⟨_,_,size_eq⟩ := record.header_bytes known
    exact small.counted boundary size_eq
  | payload hdrCopy copied =>
    rw [pc] at sound
    obtain ⟨data,rest,boundary,length,_⟩ := sound
    simp only [ReaderState.Counted,pc]
    exact small.counted boundary (by rw [Record.size,length])
  | advance hdrCopy =>
    rw [pc] at sound
    obtain ⟨record,rest,boundary,size_eq⟩ := sound
    simp only [ReaderState.Counted,pc]
    exact small.counted boundary size_eq
  | idle | entry | head | early | header | final | confirm | publish | last | done =>
    simp only [ReaderState.Counted,pc]

theorem Inv.readStep_eq (inv : Inv language size s) (inTime : s.reader.inTime size s.shared.ledger = true)
    (unpublished : s.reader.pc ≠ .publish) :
    readStep s.shared.rb s.reader language = s.reader.step s.shared.rb := by
  obtain ⟨pending,shared⟩ := inv.shared
  have near := inv.near
  cases language with
  | cpp => rfl
  | java => exact step_eq shared.rep.config (by omega) (inv.counted inTime) unpublished

theorem read_cases (stepped : next language size s .read = some t) :
    s.reader.inTime size s.shared.ledger = true ∧
      ∃ r, readStep s.shared.rb s.reader language = some r ∧ t = { s with reader := r } := by
  obtain ⟨inTime,taken⟩ := Option.ite_none_right_eq_some.mp stepped
  obtain ⟨r,read,same⟩ := Option.map_eq_some_iff.mp taken
  exact ⟨inTime,r,read,same.symm⟩

/-- The published position follows once the read one is as far ahead as the language waits for. -/
theorem Inv.readStep_publish (inv : Inv language size s) (pc : s.reader.pc = .publish) :
    readStep s.shared.rb s.reader language = some { s.reader with
      pc := .head
      bpos := if s.reader.bpos.toNat + maxLag size language ≤ s.reader.pos.toNat then s.reader.pos
              else s.reader.bpos } := by
  obtain ⟨pending,shared⟩ := inv.shared
  obtain ⟨real,order⟩ := inv.real
  have near := inv.near
  have behind := inv.order
  have whole : s.shared.rb.configBufSizeBytes.toNat = size.bytes := by
    rw [shared.rep.config,size.toNat_position]
  cases language with
  | cpp =>
    have half : (s.reader.bpos + Rmp.Reader.bposMaxLag s.shared.rb).toNat =
        s.reader.bpos.toNat + size.bytes / 2 := by
      rw [BitVec.toNat_add,Rmp.Reader.bposMaxLag,BitVec.toNat_ushiftRight,whole,Nat.shiftRight_one]
      omega
    have waits : s.reader.bpos + Rmp.Reader.bposMaxLag s.shared.rb ≤ s.reader.pos ↔
        s.reader.bpos.toNat + maxLag size .cpp ≤ s.reader.pos.toNat := by
      rw [BitVec.le_def,half,maxLag]
    simp only [readStep,Rmp.ReaderState.step,pc,if_congr waits rfl rfl]
  | java =>
    have sum : (s.reader.bpos + s.shared.rb.configBufSizeBytes).toNat = s.reader.bpos.toNat + size.bytes := by
      rw [BitVec.toNat_add,whole]
      omega
    have reached := sle_iff (a := s.reader.bpos + s.shared.rb.configBufSizeBytes) (b := s.reader.pos)
      (NotNegative.of_le (n := 2^63 - 1) (by omega) (by decide))
      (NotNegative.of_le (n := 2^63 - 1) (by omega) (by decide))
    have waits : (s.reader.bpos + s.shared.rb.configBufSizeBytes).sle s.reader.pos = true ↔
        s.reader.bpos.toNat + maxLag size .java ≤ s.reader.pos.toNat := by
      rw [reached,BitVec.le_def,sum,maxLag]
    simp only [readStep,ReaderState.step,pc,if_congr waits rfl rfl]

theorem Within.skip (within : Within (maxLag size language) size r)
    (blank : size.bytes - r.at_ % size.bytes < MsgHeader.size) {at_ : Nat}
    (moved : at_ = r.at_ + (size.bytes - r.at_ % size.bytes)) :
    at_ % size.bytes = 0 ∧ at_ < r.bpos.toNat + maxLag size language + 5 := by
  have five : MsgHeader.size = 5 := rfl
  have bounds := size.bounds
  have inside := size.mod_lt r.at_
  have whole := Nat.mod_add_div r.at_ size.bytes
  rcases within with near | ⟨start,_⟩
  · constructor
    · rw [moved,show r.at_ + (size.bytes - r.at_ % size.bytes) = size.bytes * (r.at_ / size.bytes + 1) by
        rw [Nat.mul_add_one]
        omega]
      exact Nat.mul_mod_right _ _
    · omega
  · omega

theorem maxLag_pos (size : RingSize) (language : Language) : 0 < maxLag size language := by
  have bounds := size.bounds
  cases language <;> simp only [maxLag] <;> omega

theorem Inv.publish (inv : Inv language size s) (pc : s.reader.pc = .publish) :
    Inv language size { s with reader := { s.reader with
      pc := .head
      bpos := if s.reader.bpos.toNat + maxLag size language ≤ s.reader.pos.toNat then s.reader.pos
              else s.reader.bpos } } := by
  obtain ⟨real,_⟩ := inv.real
  have sound := inv.reader.sound
  have order := inv.order
  have positive := maxLag_pos size language
  rw [pc] at sound
  refine ⟨inv.shared,⟨inv.reader.pos,sound⟩,inv.near,inv.small,?_,?_,?_,by simp⟩
  · dsimp only
    split
    · rw [real]
      exact sound
    · exact inv.boundary
  · dsimp only
    split <;> omega
  · intro _
    left
    dsimp only
    split <;> omega

theorem Inv.read (inv : Inv language size s) (stepped : next language size s .read = some t) :
    Inv language size t := by
  obtain ⟨pending,shared⟩ := id inv.shared
  obtain ⟨real,_⟩ := inv.real
  obtain ⟨inTime,r,read,rfl⟩ := read_cases stepped
  rcases em (s.reader.pc = .publish) with pc | unpublished
  · rw [inv.readStep_publish pc] at read
    obtain rfl := Option.some.inj read
    exact inv.publish pc
  · rw [inv.readStep_eq inTime unpublished] at read
    have near := inv.near
    have reader := inv.reader.step shared.rep inTime read
    have within := inv.lag unpublished
    rcases ReaderState.step_cases read unpublished with ⟨_,running,bpos,at_⟩ | ⟨_,blank,head,bpos,at_⟩ |
      ⟨pc,bpos,at_⟩ | ⟨_,rfl⟩
    · refine ⟨inv.shared,reader,near,inv.small,?_,?_,fun _ => ?_,fun done => absurd done running⟩
      · rw [bpos]
        exact inv.boundary
      · rw [bpos,at_]
        exact inv.order
      · rw [Within,bpos,at_]
        exact within
    · have tail := toNat_tail shared.rep.config s.reader.pos
      rw [real] at tail
      rw [tail] at at_
      rw [shared.rep.config,inv.reader.pos,bufEnd_lt size _ _ (by decide)] at blank
      refine ⟨inv.shared,reader,near,inv.small,?_,?_,fun _ => Or.inr ?_,fun done => ?_⟩
      · rw [bpos]
        exact inv.boundary
      · rw [bpos,at_]
        have order := inv.order
        omega
      · rw [bpos]
        exact within.skip blank at_
      · rw [head] at done
        contradiction
    · refine ⟨inv.shared,reader,near,inv.small,?_,?_,fun other => absurd pc other,fun done => ?_⟩
      · rw [bpos]
        exact inv.boundary
      · rw [bpos]
        exact inv.order.trans at_
      · rw [pc] at done
        contradiction
    · refine ⟨inv.shared,reader,near,inv.small,?_,real.le,fun _ => Or.inl ?_,fun _ => rfl⟩
      · rw [real]
        exact reader.sound.boundary
      · rw [real]
        exact Nat.lt_add_of_pos_right (maxLag_pos size language)

theorem Inv.declined (inv : Inv language size s) {hdrCopy : MsgHeader} (unpublished : s.reader.pc ≠ .publish)
    (sound : ∃ data rest, s.shared.ledger.Boundary s.reader.at_ (.msg data :: rest) ∧ hdrCopy.length = data.length) :
    Inv language size { s with reader := { s.reader with pc := .advance hdrCopy } } := by
  obtain ⟨data,rest,boundary,length⟩ := sound
  exact ⟨inv.shared,⟨inv.reader.pos,⟨_,rest,boundary,by rw [Record.size,length]⟩⟩,inv.near,inv.small,inv.boundary,
    inv.order,fun _ => inv.lag unpublished,nofun⟩

theorem Inv.decline (inv : Inv language size s) (stepped : next language size s .decline = some t) :
    Inv language size t := by
  obtain ⟨r,declined,rfl⟩ := Option.map_eq_some_iff.mp stepped
  have sound := inv.reader.sound
  unfold Freshness.decline at declined
  split at declined
  next hdrCopy copied pc =>
    obtain rfl := Option.some.inj declined
    rw [pc] at sound
    obtain ⟨data,rest,boundary,length,_⟩ := sound
    exact inv.declined (by simp [pc]) ⟨data,rest,boundary,length⟩
  next hdrCopy copied pc =>
    obtain rfl := Option.some.inj declined
    rw [pc] at sound
    obtain ⟨data,rest,boundary,length,_⟩ := sound
    exact inv.declined (by simp [pc]) ⟨data,rest,boundary,length⟩
  next => contradiction

theorem Inv.store (inv : Inv language size s) (stepped : next language size s .store = some t) :
    Inv language size t := by
  obtain ⟨pending,shared⟩ := inv.shared
  obtain ⟨w,stored,guarded⟩ := Option.bind_eq_some_iff.mp stepped
  obtain ⟨near,kept⟩ := Option.ite_none_right_eq_some.mp guarded
  obtain rfl := Option.some.inj kept
  have small (java : language = .java) := (inv.small java).store stored
  obtain ⟨rest,boundary⟩ := inv.boundary
  obtain ⟨self,ops,_,⟨index,cells,_,_,ledger⟩ | ⟨n,record,_,_,ledger⟩⟩ := Shared.store_cases stored
  · refine ⟨shared.store stored,?_,near,small,?_,inv.order,inv.lag,inv.done⟩
    · dsimp only
      rw [ledger]
      exact inv.reader.stored _
    · dsimp only
      rw [ledger]
      exact ⟨_,boundary.grow rfl (List.append_nil _).symm⟩
  · refine ⟨shared.store stored,?_,near,small,?_,inv.order,inv.lag,inv.done⟩
    · dsimp only
      rw [ledger]
      exact inv.reader.grow rfl rfl le_rfl
    · dsimp only
      rw [ledger]
      exact ⟨_,boundary.grow rfl rfl⟩

theorem Inv.startRead {records : Nat} (inv : Inv language size s)
    (stepped : next language size s (.startRead records) = some t) : Inv language size t := by
  obtain ⟨_,started⟩ := Option.ite_none_right_eq_some.mp stepped
  obtain rfl := Option.some.inj started
  have boundary : s.shared.ledger.Boundary (s.shared.ledger.behind records) (s.shared.ledger.log.drop records) :=
    ⟨s.shared.ledger.log.take records,(List.take_append_drop _ _).symm,rfl⟩
  have near := inv.near
  have behind := boundary.le
  have real : (BitVec.ofNat 64 (s.shared.ledger.behind records)).toNat = s.shared.ledger.behind records := by
    rw [BitVec.toNat_ofNat]
    omega
  refine ⟨inv.shared,⟨rfl,⟨_,boundary⟩⟩,near,inv.small,
    ⟨s.shared.ledger.log.drop records,?_⟩,real.le,fun _ => Or.inl ?_,nofun⟩
  · rw [real]
    exact boundary
  · dsimp only
    rw [real]
    exact Nat.lt_add_of_pos_right (maxLag_pos size language)

theorem Inv.step (inv : Inv language size s) (stepped : next language size s action = some t) :
    Inv language size t := by
  obtain ⟨pending,shared⟩ := id inv.shared
  cases action with
  | begin self data =>
    obtain ⟨counted,taken⟩ := Option.ite_none_right_eq_some.mp stepped
    obtain ⟨w,begun,rfl⟩ := Option.map_eq_some_iff.mp taken
    have kept := shared.begin begun
    have small (java : language = .java) := (inv.small java).begin shared (java ▸ counted) begun
    obtain ⟨_,_,_,rfl⟩ := Shared.begin_eq begun
    exact ⟨⟨_,kept⟩,inv.reader,inv.near,small,inv.boundary,inv.order,inv.lag,inv.done⟩
  | store => exact inv.store stepped
  | finish =>
    obtain ⟨w,finished,rfl⟩ := Option.map_eq_some_iff.mp stepped
    have kept := shared.finish finished
    obtain ⟨_,_,rfl⟩ := Shared.finish_eq finished
    exact ⟨⟨_,kept⟩,inv.reader,inv.near,fun java => ⟨(inv.small java).log,nofun⟩,inv.boundary,
      inv.order,inv.lag,inv.done⟩
  | startRead records => exact inv.startRead stepped
  | read => exact inv.read stepped
  | decline => exact inv.decline stepped

theorem reachable_inv (reached : Reachable (sys language size) s) : Inv language size s := by
  refine reached.invariant (Inv language size) ?_ ?_
  · intro s ⟨rb,config,near,same⟩
    obtain rfl := same
    have positive := maxLag_pos size language
    refine ⟨⟨[],Shared.fresh_inv config⟩,⟨?_,⟨[],[],rfl,rfl⟩⟩,near,fun _ => ⟨nofun,nofun⟩,
      ⟨[],[],rfl,rfl⟩,le_rfl,fun _ => Or.inl ?_,nofun⟩
    · simp [start]
    · simp only [start]
      omega
  · exact fun s action t inv stepped => inv.step stepped

theorem Within.lt {limit : Nat} (within : Within limit size r) : r.at_ < r.bpos.toNat + limit + 5 := by
  rcases within with near | ⟨_,near⟩ <;> omega

theorem Inv.fresh (inv : Inv language size s) {limit : Nat}
    (bound : s.reader.pc ≠ .publish → s.reader.at_ < s.reader.bpos.toNat + limit) : Fresh limit s := by
  obtain ⟨real,_⟩ := inv.real
  refine ⟨?_,inv.done⟩
  intro place
  rw [real]
  refine ⟨inv.boundary,inv.order,bound ?_⟩
  rcases place with pc | ⟨hdrCopy,data,pc⟩
  · simp [pc]
  · simp [pc]

def Half (size : RingSize) (s : State) : Prop :=
  s.reader.pc ≠ .publish → s.reader.at_ < s.reader.bpos.toNat + (size.bytes / 2 + 5)

theorem Inv.half_cpp (inv : Inv .cpp size s) : Half size s := by
  intro unpublished
  have within := (inv.lag unpublished).lt
  simp only [maxLag] at within
  omega

theorem Half.read (half : Half size s) (inv : Inv .java size s) (ok : allowed .java size s .read = true)
    (stepped : next .java size s .read = some t) : Half size t := by
  obtain ⟨pending,shared⟩ := inv.shared
  obtain ⟨real,_⟩ := inv.real
  have bounds := size.bounds
  have order := inv.order
  obtain ⟨inTime,r,read,rfl⟩ := read_cases stepped
  intro running
  rcases em (s.reader.pc = .publish) with pc | unpublished
  · simp only [allowed,pc,lag,real,decide_eq_true_eq] at ok
    rw [inv.readStep_publish pc] at read
    obtain rfl := Option.some.inj read
    have limit : maxLag size .java = size.bytes := rfl
    dsimp only
    split <;> omega
  · have now := half unpublished
    rw [inv.readStep_eq inTime unpublished] at read
    rcases ReaderState.step_cases read unpublished with ⟨_,_,bpos,at_⟩ | ⟨pc,blank,_,bpos,at_⟩ | ⟨pc,_⟩ | ⟨_,rfl⟩
    · rw [bpos,at_]
      exact now
    · have tail := toNat_tail shared.rep.config s.reader.pos
      rw [real] at tail
      rw [tail] at at_
      rw [shared.rep.config,inv.reader.pos,bufEnd_lt size _ _ (by decide)] at blank
      simp only [allowed,pc,lag,real,decide_eq_true_eq] at ok
      have enough := ok blank
      rw [bpos,at_]
      omega
    · exact absurd pc running
    · dsimp only
      omega

theorem Half.step (half : Half size s) (inv : Inv .java size s) (ok : allowed .java size s action = true)
    (stepped : next .java size s action = some t) : Half size t := by
  cases action with
  | begin self data =>
    obtain ⟨_,taken⟩ := Option.ite_none_right_eq_some.mp stepped
    obtain ⟨w,_,rfl⟩ := Option.map_eq_some_iff.mp taken
    exact half
  | store =>
    obtain ⟨w,_,guarded⟩ := Option.bind_eq_some_iff.mp stepped
    obtain ⟨_,kept⟩ := Option.ite_none_right_eq_some.mp guarded
    obtain rfl := Option.some.inj kept
    exact half
  | finish =>
    obtain ⟨w,_,rfl⟩ := Option.map_eq_some_iff.mp stepped
    exact half
  | startRead records =>
    have kept := inv.startRead stepped
    obtain ⟨_,started⟩ := Option.ite_none_right_eq_some.mp stepped
    obtain rfl := Option.some.inj started
    intro _
    have real := kept.real.1
    dsimp only at real ⊢
    omega
  | read => exact half.read inv ok stepped
  | decline =>
    obtain ⟨r,declined,rfl⟩ := Option.map_eq_some_iff.mp stepped
    unfold Freshness.decline at declined
    intro _
    split at declined
    next pc =>
      obtain rfl := Option.some.inj declined
      exact half (by simp [pc])
    next pc =>
      obtain rfl := Option.some.inj declined
      exact half (by simp [pc])
    next => contradiction

theorem reachable_half
    (reached : Reachable ((sys .java size).restrict (fun s action => allowed .java size s action = true)) s) :
    Half size s := by
  refine reached.invariant_with (Inv .java size) (Half size) ?_ ?_ ?_
  · intro s ⟨rb,_,_,same⟩
    obtain rfl := same
    intro _
    simp only [start]
    omega
  · exact fun s reached => reachable_inv reached.unrestrict
  · exact fun s action t inv half stepped => half.step inv stepped.1 stepped.2

/-- A step that is not allowed leaves the reader at its loop head, too far ahead. -/
theorem Inv.refused (inv : Inv language size s) (stepped : next language size s .read = some t)
    (refused : allowed language size s .read = false) : ¬ Fresh (size.bytes / 2 + 5) t := by
  have kept := inv.read stepped
  obtain ⟨real,_⟩ := inv.real
  obtain ⟨pending,shared⟩ := inv.shared
  obtain ⟨inTime,r,read,rfl⟩ := read_cases stepped
  have order := inv.order
  have moved := kept.real.1
  intro fresh
  cases language with
  | cpp => simp [allowed] at refused
  | java =>
    cases pc : s.reader.pc with
    | publish =>
      simp only [allowed,pc,Freshness.lag,real,decide_eq_false_iff_not] at refused
      rw [inv.readStep_publish pc] at read
      obtain rfl := Option.some.inj read
      have limit : maxLag size .java = size.bytes := rfl
      have near := (fresh.behind (Or.inl rfl)).2.2
      dsimp only at near
      rw [if_neg (by omega)] at near
      omega
    | early =>
      simp only [allowed,pc,Freshness.lag,real,decide_eq_false_iff_not,Classical.not_imp] at refused
      have unpublished : s.reader.pc ≠ .publish := by simp [pc]
      rw [inv.readStep_eq inTime unpublished] at read
      have blank := (bufEnd_lt size s.reader.at_ MsgHeader.size (by decide)).mpr refused.1
      have tail := toNat_tail shared.rep.config s.reader.pos
      rw [real] at tail
      rw [← inv.reader.pos,← shared.rep.config] at blank
      simp only [Rmp.ReaderState.step,pc,if_pos blank] at read
      obtain rfl := Option.some.inj read
      have near := (fresh.behind (Or.inl rfl)).2.2
      dsimp only at near moved
      omega
    | idle | entry | head | header | check | payload | final | confirm | advance | last | done =>
      simp [allowed,pc] at refused

/-- The published position stays less than `B / 2 + 5` bytes behind in every run of a C++ reader, and in
every run of a Java reader none of whose steps passes that lag without publishing; each step that does
leaves it too far behind. Every Java reader keeps the same lag up to a whole ring. -/
theorem published_fresh (size : RingSize) :
    (∀ s, Reachable (sys .cpp size) s → Fresh (size.bytes / 2 + 5) s) ∧
    (∀ s, Reachable ((sys .java size).restrict (fun s action => allowed .java size s action = true)) s →
      Fresh (size.bytes / 2 + 5) s) ∧
    (∀ s t, Reachable (sys .java size) s → next .java size s .read = some t →
      allowed .java size s .read = false → ¬ Fresh (size.bytes / 2 + 5) t) ∧
    ∀ s, Reachable (sys .java size) s → Fresh (size.bytes + 5) s := by
  refine ⟨?_,?_,?_,?_⟩
  · intro s reached
    have inv := reachable_inv reached
    exact inv.fresh inv.half_cpp
  · intro s reached
    exact (reachable_inv reached.unrestrict).fresh (reachable_half reached)
  · exact fun s t reached stepped refused => (reachable_inv reached).refused stepped refused
  · intro s reached
    have inv := reachable_inv reached
    exact inv.fresh fun unpublished => (inv.lag unpublished).lt

end

def start16 : State := start (ByteRingBuffer.create ring16.position (fun _ => 0))

theorem start16_init (language : Language) : (sys language ring16).init start16 := by
  exact ⟨_,rfl,by decide,rfl⟩

def goOver (data : List UInt8) : List Action :=
  .begin 0 data :: List.replicate (data.length + 3) .store ++ .finish :: .startRead 0 ::
    List.replicate (data.length + 13) .read

/-- A C++ reader that has gone over eight bytes of data has published the position behind them. -/
theorem published_fresh_record : ∃ s : State, s.reader.pc = .head ∧ s.reader.bpos = 13 ∧ Fresh 13 s := by
  obtain ⟨s,reached,seen⟩ := exec_reaches (sys .cpp ring16) (fun _ _ => true) (next .cpp ring16)
    (fun _ _ _ taken => taken) (start16_init .cpp) (goOver (List.replicate 8 7))
    (fun s => (s.reader.pc,s.reader.bpos)) (.head,13) (by decide +kernel)
  obtain ⟨pc,bpos⟩ := Prod.mk.inj seen
  exact ⟨s,pc,bpos,(published_fresh ring16).1 s reached.unrestrict⟩

/-- A Java reader is at its loop head 13 bytes ahead of what it has published. -/
theorem not_published_fresh :
    ¬ ∀ (size : RingSize) (s : State), Reachable (sys .java size) s → Fresh (size.bytes / 2 + 5) s := by
  intro fresh
  obtain ⟨s,reached,seen⟩ := exec_reaches (sys .java ring16) (fun _ _ => true) (next .java ring16)
    (fun _ _ _ taken => taken) (start16_init .java) (goOver (List.replicate 8 7))
    (fun s => (s.reader.pc,s.reader.pos,s.reader.bpos)) (.head,13,0) (by decide +kernel)
  obtain ⟨pc,places⟩ := Prod.mk.inj seen
  obtain ⟨pos,bpos⟩ := Prod.mk.inj places
  have near := ((fresh ring16 s reached.unrestrict).behind (Or.inl pc)).2.2
  rw [pos,bpos] at near
  exact absurd near (by decide)

end Toroni.Java.Freshness
