import Toroni.Library.LogBroadcast
import Toroni.Library.Refinement
import Toroni.Rmp.Deliveries
import Toroni.Rmp.WriterSteps

/-! The stream protocol by single steps, in any order: writers that scan the slots, ask their
handlers and store, and a reader in each slot that loads byte by byte and publishes where it is. -/
namespace Toroni.Rmp
open Transition Traits Writer

def Shared.giveUp (w : Shared) : Shared :=
  { w with rb := w.rb.setWriterMtx w.rb.writerMtx.unlock, writer := none }

theorem Shared.Inv.giveUp {size : RingSize} {w : Shared} {pending : List UInt8} (inv : w.Inv size pending) :
    w.giveUp.Inv size [] := by
  have same : SameStream w.rb (w.rb.setWriterMtx w.rb.writerMtx.unlock) := ⟨rfl,rfl,rfl⟩
  exact ⟨same.represents inv.rep.forget,rfl,by simp [Shared.giveUp]⟩

def Shared.countBackPressure (w : Shared) : Shared := { w with rb := w.rb.countBackPressure }

theorem Shared.Inv.countBackPressure {size : RingSize} {w : Shared} {pending : List UInt8}
    (inv : w.Inv size pending) : w.countBackPressure.Inv size pending := by
  have same : SameStream w.rb w.rb.countBackPressure := ⟨rfl,rfl,rfl⟩
  exact ⟨same.represents inv.rep,inv.remaining,inv.held⟩

namespace Interleaved
open LogBroadcast (Label Cursor)

inductive Check
  | loadMax
  | loadMin (max : Nat)
  | scan (i max : Nat)
  | look (i max : Nat)
  | backpressure
  deriving DecidableEq

/-- `check` comes with the message, and is `none` once the writer goes on to its stores. The
stores are decided before: `freePos` does not move under the mutex. -/
structure State where
  shared : Shared
  check : Option (Check × List UInt8)
  ri : ReaderInfo
  reader : Nat → ReaderState

inductive Action
  | begin (self : Owner) (data : List UInt8)
  | check
  | answer (answer : BpAnswer)
  | store
  | finish
  | die
  | activate (i : Nat)
  | deactivate (i : Nat)
  | call (i : Nat)
  | read (i : Nat)

namespace State

def isActive (s : State) (i : Nat) : Bool := (s.ri.info i).isActive

def slots (s : State) : List Nat := List.range s.ri.configMaxReaders.toNat

def detect (s : State) : Option State :=
  match s.check with
  | some (.loadMax,data) => some { s with check := some (.loadMin s.ri.getActiveRange.2,data) }
  | some (.loadMin max,data) => some { s with check := some (.scan s.ri.getActiveRange.1 max,data) }
  | some (.scan i max,data) =>
    if i < max then
      some { s with check := some (if s.isActive i then .look i max else .scan (i + 1) max,data) }
    else some { s with check := none }
  | some (.look i max,data) =>
    let n := (layout s.shared.rb (BitVec.ofNat 64 data.length)).bytesToWrite
    some { s with check := some (if slotBackpressure s.shared.rb n none true (s.ri.info i).position
                                 then .backpressure else .scan (i + 1) max,data) }
  | some (.backpressure,_) | none => none

def answer (s : State) (answer : BpAnswer) : Option State :=
  match s.check with
  | some (.backpressure,data) =>
    match answer with
    | .returns true => some { s with shared := s.shared.countBackPressure, check := some (.loadMax,data) }
    | .returns false => some { s with shared := s.shared.countBackPressure, check := none }
    | .throws => some { s with shared := s.shared.countBackPressure.giveUp, check := none }
  | _ => none

end State

/-- The calls of one reader come one after the other. `Activate` and `Deactivate` are one step,
and so is a publication with the step of `ReadEx` that makes it. -/
def next (size : RingSize) (s : State) : Action → Option State
  | .begin self data =>
    (s.shared.begin size self data).map (fun shared =>
      { s with shared := shared, check := some (.loadMax,data) })
  | .check => s.detect
  | .answer answer => s.answer answer
  | .store =>
    if s.check = none then (s.shared.store size).map (fun shared => { s with shared := shared }) else none
  | .finish => s.shared.finish.map (fun shared => { s with shared := shared })
  | .die => s.shared.die.map (fun shared => { s with shared := shared, check := none })
  | .activate i =>
    if i ∈ s.slots ∧ (s.reader i).reading = false then
      let freePos := s.shared.rb.freePos
      some { s with ri := s.ri.activate (some i) freePos
                    reader := Function.update s.reader i ⟨.idle,freePos,freePos,s.shared.ledger.free⟩ }
    else none
  | .deactivate i =>
    if (s.reader i).reading = false then some { s with ri := s.ri.deactivate (some i) } else none
  | .call i =>
    if s.isActive i ∧ (s.reader i).reading = false then
      some { s with reader := Function.update s.reader i { s.reader i with pc := .entry } }
    else none
  | .read i =>
    ((s.reader i).step s.shared.rb).map (fun r =>
      { s with ri := s.ri.setPosition i r.bpos, reader := Function.update s.reader i r })

def sys (size : RingSize) : System State Action :=
  .ofNext (fun s => (∃ rb, rb.configBufSizeBytes = size.position ∧ s.shared = Shared.fresh rb) ∧
      s.check = none ∧ s.ri.Covers ∧ ∀ i, s.isActive i = false ∧ (s.reader i).reading = false)
    (next size)

/-- A message counts as published with the store that moves `freePos` behind it. -/
def view (s : State) : Action → Option (Label Nat (List UInt8))
  | .store =>
    match s.shared.writer with
    | some (_,.freePos _ (.msg data) :: _) => some (.publish data)
    | _ => none
  | .activate i => some (.join i)
  | .deactivate i => some (.leave i)
  | .call i => some (.call i)
  | .read i =>
    match (s.reader i).pc with
    | .confirm _ data => some (.deliver i data)
    | .last => some (.caughtUp i)
    | _ =>
      if ((s.reader i).step s.shared.rb).any (fun r => r.pc = .done (some .expiredPosition)) then
        some (.missed i)
      else none
  | _ => none

/-- No comparison with `freePos` behind a copy falls between a store that has reached the record and
the moving of `freePos`, and no call goes on `2^63` bytes behind the stream end. -/
def allowed (size : RingSize) (s : State) : Action → Bool
  | .read i => s.shared.ledger.free < (s.reader i).at_ + 2^63 && (s.reader i).inTime size s.shared.ledger
  | _ => true

structure Place (size : RingSize) (g : Ledger) (r : ReaderState) (c : Cursor) : Prop where
  inv : r.Inv size g
  behind : ∃ rest, g.Boundary r.front rest ∧ c.next + (messages rest).length = (messages g.log).length
  goal : c.goal ≤ (messages g.log).length
  caught : r.pc = .last → c.goal ≤ c.next
  lost : c.lost = true → r.Lost size.bytes g
  sane : r.pc ≠ .done none ∧ r.pc ≠ .done (some .invalidPosition)

structure Related (size : RingSize) (s : State) (a : LogBroadcast.State Nat (List UInt8)) : Prop where
  shared : ∃ pending, s.shared.Inv size pending
  log : messages s.shared.ledger.log = a.log
  idle : ∀ i, s.isActive i = false → a.cursor i = none ∧ (s.reader i).reading = false
  place : ∀ i, s.isActive i = true →
    i ∈ s.slots ∧ ∃ c, a.cursor i = some c ∧ Place size s.shared.ledger (s.reader i) c

section
variable {size : RingSize} {s t : State} {a : LogBroadcast.State Nat (List UInt8)} {g g' : Ledger}
  {r r' : ReaderState} {rb : ByteRingBuffer} {pending data : List UInt8} {c : Cursor} {i : Nat} {more : List Record}

theorem Place.grow (place : Place size g r c) (base : g'.base = g.base) (log : g'.log = g.log ++ more)
    (top : g.top ≤ g'.top) : Place size g' r c := by
  obtain ⟨rest,boundary,count⟩ := place.behind
  have total : (messages g'.log).length = (messages g.log).length + (messages more).length := by
    rw [log,messages_append,List.length_append]
  refine ⟨place.inv.grow base log top,⟨rest ++ more,boundary.grow base log,?_⟩,?_,place.caught,?_,place.sane⟩
  · rw [messages_append,List.length_append]
    omega
  · have := place.goal
    omega
  · exact fun lost => (place.lost lost).grow base log

theorem Place.stored (place : Place size g r c) (top : Nat) : Place size { g with top := max g.top top } r c := by
  exact place.grow rfl (List.append_nil _).symm (le_max_left _ _)

/-- The reader activates at the stream end. -/
theorem Place.activated (rep : Represents size rb g pending) :
    Place size g ⟨.idle,rb.freePos,rb.freePos,g.free⟩
      ⟨(messages g.log).length,(messages g.log).length,false⟩ := by
  have boundary : g.Boundary g.free [] := ⟨g.log,(List.append_nil _).symm,rfl⟩
  exact ⟨⟨rep.freePos,⟨[],boundary⟩⟩,⟨[],boundary,rfl⟩,le_rfl,by simp,by simp,by simp⟩

theorem Place.call (place : Place size g r c) (idle : r.reading = false) :
    Place size g { r with pc := .entry } { c with goal := (messages g.log).length } := by
  have here : r.front = r.at_ := by
    cases pc : r.pc <;> simp [ReaderState.reading,pc] at idle <;> simp [ReaderState.front,pc]
  obtain ⟨rest,boundary,count⟩ := place.behind
  rw [here] at boundary
  refine ⟨⟨place.inv.pos,⟨rest,boundary⟩⟩,⟨rest,boundary,count⟩,le_rfl,by simp,?_,by simp⟩
  intro lost
  exact ⟨by simp,(place.lost lost).stopped⟩

theorem Place.hands {hdrCopy : MsgHeader} (place : Place size g r c) (rep : Represents size rb g pending)
    (pc : r.pc = .confirm hdrCopy data) (stepped : r.step rb = some r') :
    c.lost = false ∧ (messages g.log)[c.next]? = some data ∧ Place size g r' { c with next := c.next + 1 } := by
  obtain ⟨rest,boundary,count⟩ := place.behind
  obtain ⟨tail,rfl,later⟩ := place.inv.hands rep pc stepped boundary
  obtain ⟨before,split,_⟩ := boundary
  have moved : r'.pc = .advance hdrCopy := by
    simp only [ReaderState.step,pc] at stepped
    exact Option.some.inj stepped ▸ rfl
  have live : c.lost = false := by
    by_contra gone
    have stuck := (place.lost (by simpa using gone)).pc
    simp [pc] at stuck
  have whole : messages g.log = messages before ++ data :: messages tail := by simp [split,Record.message]
  have passed : c.next = (messages before).length := by
    rw [whole] at count
    simp only [messages_cons,Record.message,Option.toList_some,List.singleton_append,List.length_append,
      List.length_cons] at count
    omega
  have inTime : r.inTime size g = true := by simp [ReaderState.inTime,pc]
  refine ⟨live,?_,place.inv.step rep inTime stepped,⟨tail,later,?_⟩,place.goal,by simp [moved],?_,
    by simp [moved]⟩
  · rw [whole,passed,List.getElem?_append_right le_rfl,Nat.sub_self]
    rfl
  · simp only [messages_cons,Record.message,Option.toList_some,List.singleton_append,List.length_cons] at count
    dsimp only
    omega
  · intro lost
    rw [live] at lost
    contradiction

theorem Place.at_end (place : Place size g r c) (ended : r.front = g.free) (rep : Represents size rb g pending) :
    c.next = (messages g.log).length := by
  obtain ⟨rest,boundary,count⟩ := place.behind
  have last : g.Boundary r.front [] := ⟨g.log,(List.append_nil _).symm,ended⟩
  obtain rfl := boundary.unique rep last
  exact count

/-- What a step of `ReadEx` that hands over nothing can do. -/
theorem Place.read (place : Place size g r c) (rep : Represents size rb g pending)
    (near : g.free < r.at_ + 2^63) (inTime : r.inTime size g = true)
    (silent : ∀ hdrCopy data, r.pc ≠ .confirm hdrCopy data) (stepped : r.step rb = some r') :
    (r'.pc ≠ .done (some .expiredPosition) ∧ Place size g r' c) ∨
      (r'.pc = .done (some .expiredPosition) ∧ Place size g r' { c with lost := true }) := by
  obtain ⟨rest,boundary,count⟩ := place.behind
  obtain ⟨skipped,tail,rfl,empty,later⟩ := place.inv.skips rep inTime silent stepped boundary
  have inv := place.inv.step rep inTime stepped
  have behind : ∃ rest, g.Boundary r'.front rest ∧ c.next + (messages rest).length = (messages g.log).length := by
    refine ⟨tail,later,?_⟩
    rwa [messages_append,empty,List.nil_append] at count
  have ends := r.step_ends stepped
  have sane : r'.pc ≠ .done none ∧ r'.pc ≠ .done (some .invalidPosition) := by
    refine ⟨fun failed => ?_,fun invalid => ?_⟩
    · have sound := inv.sound
      rw [failed] at sound
      exact sound.1 rfl
    · have ahead := ends.2.1 invalid
      rw [place.inv.not_ahead rep near] at ahead
      contradiction
  have caught (last : r'.pc = .last) : c.goal ≤ c.next := by
    obtain ⟨pc,same,_⟩ := ends.1 last
    have ended : r.front = g.free := by
      simp only [ReaderState.front,pc]
      exact place.inv.caught rep near same
    exact place.goal.trans (place.at_end ended rep).ge
  by_cases told : r'.pc = .done (some .expiredPosition)
  · refine Or.inr ⟨told,inv,behind,place.goal,by simp [told],fun _ => ?_,sane⟩
    exact place.inv.lost rep near inTime stepped told
  · refine Or.inl ⟨told,inv,behind,place.goal,caught,fun lost => ?_,sane⟩
    exact ((place.lost lost).step place.inv rep near inTime stepped).1

theorem Related.moved {v : Shared} {check : Option (Check × List UInt8)} (related : Related size s a)
    (shared : ∃ pending, v.Inv size pending) (ledger : v.ledger = s.shared.ledger) :
    Related size { s with shared := v, check := check } a := by
  refine ⟨shared,?_,related.idle,?_⟩
  · rw [ledger]
    exact related.log
  · rw [ledger]
    exact related.place

theorem Related.store (related : Related size s a)
    (stepped : next size s .store = some t) :
    match view s .store with
    | none => Related size t a
    | some label => ∃ b, LogBroadcast.Step a label b ∧ Related size t b := by
  obtain ⟨pending,shared⟩ := related.shared
  simp only [next] at stepped
  split at stepped
  next =>
    obtain ⟨w,stored,rfl⟩ := Option.map_eq_some_iff.mp stepped
    have kept := shared.store stored
    obtain ⟨self,ops,_,⟨index,cells,running,_,ledger⟩ | ⟨n,record,running,_,ledger⟩⟩ := Shared.store_cases stored
    · simp only [view,running]
      refine ⟨kept,?_,related.idle,fun i active => ?_⟩
      · dsimp only
        rw [ledger]
        exact related.log
      · obtain ⟨inside,c,cursor,place⟩ := related.place i active
        refine ⟨inside,c,cursor,?_⟩
        dsimp only
        rw [ledger]
        exact place.stored _
    · have grown (b : LogBroadcast.State Nat (List UInt8)) (cursors : b.cursor = a.cursor)
          (log : b.log = a.log ++ record.message.toList) : Related size { s with shared := w } b := by
        refine ⟨kept,?_,?_,fun i active => ?_⟩
        · dsimp only
          rw [ledger,log,← related.log]
          simp
        · rw [cursors]
          exact related.idle
        · obtain ⟨inside,c,cursor,place⟩ := related.place i active
          refine ⟨inside,c,cursors ▸ cursor,?_⟩
          dsimp only
          rw [ledger]
          exact place.grow rfl rfl le_rfl
      cases record with
      | msg data =>
        simp only [view,running]
        exact ⟨_,.publish a data,grown _ rfl rfl⟩
      | padding length | blank length =>
        simp only [view,running]
        exact grown a rfl (List.append_nil _).symm
  next => contradiction

theorem State.detect_cases (stepped : s.detect = some t) : ∃ check, t = { s with check := check } := by
  unfold State.detect at stepped
  split at stepped
  next => exact ⟨_,(Option.some.inj stepped).symm⟩
  next => exact ⟨_,(Option.some.inj stepped).symm⟩
  next =>
    split at stepped
    next => exact ⟨_,(Option.some.inj stepped).symm⟩
    next => exact ⟨_,(Option.some.inj stepped).symm⟩
  next => exact ⟨_,(Option.some.inj stepped).symm⟩
  next => contradiction
  next => contradiction

theorem State.answer_cases {answer : BpAnswer} (stepped : s.answer answer = some t) :
    ∃ v check, t = { s with shared := v, check := check } ∧ v.ledger = s.shared.ledger ∧
      ∀ size pending, s.shared.Inv size pending → ∃ pending, v.Inv size pending := by
  unfold State.answer at stepped
  split at stepped
  next =>
    split at stepped
    next => exact ⟨_,_,(Option.some.inj stepped).symm,rfl,fun _ pending inv => ⟨pending,inv.countBackPressure⟩⟩
    next => exact ⟨_,_,(Option.some.inj stepped).symm,rfl,fun _ pending inv => ⟨pending,inv.countBackPressure⟩⟩
    next => exact ⟨_,_,(Option.some.inj stepped).symm,rfl,fun _ _ inv => ⟨[],inv.countBackPressure.giveUp⟩⟩
  next => contradiction

/-- A step of the reader in slot `i`. -/
theorem Related.set {d : Option Cursor} (related : Related size s a) (shared : t.shared = s.shared)
    (slots : t.ri.configMaxReaders = s.ri.configMaxReaders)
    (others : ∀ j, j ≠ i → t.isActive j = s.isActive j ∧ t.reader j = s.reader j)
    (own : match d with
      | none => t.isActive i = false ∧ (t.reader i).reading = false
      | some c => t.isActive i = true ∧ i ∈ s.slots ∧ Place size s.shared.ledger (t.reader i) c) :
    Related size t (a.set i d) := by
  refine ⟨shared ▸ related.shared,shared ▸ related.log,fun j idle => ?_,fun j active => ?_⟩
  · rcases eq_or_ne j i with rfl | away
    · rw [LogBroadcast.State.set_self]
      cases d with
      | none => exact ⟨rfl,own.2⟩
      | some c =>
        rw [own.1] at idle
        contradiction
    · obtain ⟨same,kept⟩ := others j away
      rw [LogBroadcast.State.set_of_ne away,kept]
      exact related.idle j (same ▸ idle)
  · rcases eq_or_ne j i with rfl | away
    · cases d with
      | none =>
        rw [own.1] at active
        contradiction
      | some c => exact ⟨by rw [State.slots,slots]; exact own.2.1,c,LogBroadcast.State.set_self _,shared ▸ own.2.2⟩
    · obtain ⟨same,kept⟩ := others j away
      rw [LogBroadcast.State.set_of_ne away,kept,shared,State.slots,slots]
      exact related.place j (same ▸ active)

theorem Related.activate (related : Related size s a) (stepped : next size s (.activate i) = some t) :
    Related size t (a.set i (some ⟨a.log.length,a.log.length,false⟩)) := by
  obtain ⟨pending,shared⟩ := related.shared
  simp only [next] at stepped
  split at stepped
  next ready =>
    obtain rfl := Option.some.inj stepped
    refine related.set rfl rfl (fun j away => ⟨?_,?_⟩) ⟨?_,ready.1,?_⟩
    · simp [State.isActive,ReaderInfo.isActive_activate,away]
    · simp [away]
    · simp [State.isActive,ReaderInfo.isActive_activate]
    · simp only [Function.update_self,← related.log]
      exact Place.activated shared.rep
  next => contradiction

theorem Related.deactivate (related : Related size s a) (stepped : next size s (.deactivate i) = some t) :
    Related size t (a.set i none) := by
  simp only [next] at stepped
  split at stepped
  next quiet =>
    obtain rfl := Option.some.inj stepped
    refine related.set rfl rfl (fun j away => ⟨?_,rfl⟩) ⟨?_,quiet⟩
    · simp [State.isActive,ReaderInfo.isActive_deactivate,away]
    · simp [State.isActive,ReaderInfo.isActive_deactivate]
  next => contradiction

theorem Related.call (related : Related size s a)
    (stepped : next size s (.call i) = some t) :
    ∃ b, LogBroadcast.Step a (.call i) b ∧ Related size t b := by
  simp only [next] at stepped
  split at stepped
  next ready =>
    obtain rfl := Option.some.inj stepped
    obtain ⟨inside,c,cursor,place⟩ := related.place i ready.1
    refine ⟨_,.call a i c cursor,related.set rfl rfl (fun j away => ⟨rfl,?_⟩) ⟨ready.1,inside,?_⟩⟩
    · simp [away]
    · simp only [Function.update_self,← related.log]
      exact place.call ready.2
  next => contradiction

theorem view_read (silent : ∀ hdrCopy data, (s.reader i).pc ≠ .confirm hdrCopy data)
    (going : (s.reader i).pc ≠ .last) : view s (.read i) =
      if ((s.reader i).step s.shared.rb).any (fun r => r.pc = .done (some .expiredPosition)) then
        some (.missed i)
      else none := by
  cases pc : (s.reader i).pc with
  | confirm hdrCopy data => exact absurd pc (silent _ _)
  | last => exact absurd pc going
  | _ => simp only [view,pc]

theorem Related.read (related : Related size s a) (allowed : allowed size s (.read i) = true)
    (stepped : next size s (.read i) = some t) :
    match view s (.read i) with
    | none => Related size t a
    | some label => ∃ b, LogBroadcast.Step a label b ∧ Related size t b := by
  obtain ⟨pending,shared⟩ := related.shared
  obtain ⟨r,read,rfl⟩ := Option.map_eq_some_iff.mp stepped
  obtain ⟨near,inTime⟩ : s.shared.ledger.free < (s.reader i).at_ + 2^63 ∧
      (s.reader i).inTime size s.shared.ledger = true := by simpa [Interleaved.allowed] using allowed
  have active : s.isActive i = true := by
    by_contra idle
    have quiet := (related.idle i (by simpa using idle)).2
    rw [ReaderState.reading_of_step read] at quiet
    contradiction
  obtain ⟨inside,c,cursor,place⟩ := related.place i active
  have kept {d : Cursor} (now : Place size s.shared.ledger r d) :
      Related size { s with ri := s.ri.setPosition i r.bpos, reader := Function.update s.reader i r }
        (a.set i (some d)) := by
    refine related.set rfl rfl (fun j away => ⟨?_,?_⟩) ⟨?_,inside,?_⟩
    · simp [State.isActive,ReaderInfo.isActive_setPosition]
    · simp [away]
    · simpa [State.isActive,ReaderInfo.isActive_setPosition] using active
    · simpa using now
  have same : a.set i (some c) = a := by
    rw [LogBroadcast.State.set,← cursor,Function.update_eq_self]
  by_cases confirms : ∃ hdrCopy data, (s.reader i).pc = .confirm hdrCopy data
  · obtain ⟨hdrCopy,data,pc⟩ := confirms
    obtain ⟨live,here,now⟩ := place.hands shared.rep pc read
    simp only [view,pc]
    exact ⟨_,.deliver a i c data cursor live (related.log ▸ here),kept now⟩
  have silent (hdrCopy : MsgHeader) (data : List UInt8) : (s.reader i).pc ≠ .confirm hdrCopy data :=
    fun pc => confirms ⟨_,_,pc⟩
  by_cases pc : (s.reader i).pc = .last
  · simp only [view,pc]
    have ends : r.pc = .done (some .success) := by
      simp only [ReaderState.step,pc] at read
      exact Option.some.inj read ▸ rfl
    have live : c.lost = false := by
      by_contra gone
      have stuck := (place.lost (by simpa using gone)).pc
      simp [pc] at stuck
    rcases place.read shared.rep near inTime (by simp [pc]) read with ⟨_,now⟩ | ⟨told,_⟩
    · exact ⟨a,.caughtUp a i c cursor live (place.caught pc),same ▸ kept now⟩
    · rw [ends] at told
      simp at told
  · rw [view_read silent pc,read,Option.any_some]
    rcases place.read shared.rep near inTime silent read with ⟨running,now⟩ | ⟨told,now⟩
    · simp only [running,decide_false,Bool.false_eq_true,if_false]
      exact same ▸ kept now
    · simp only [told,decide_true,if_true]
      exact ⟨_,.missed a i c cursor,kept now⟩

theorem Related.step {action : Action} (related : Related size s a) (allowed : allowed size s action = true)
    (stepped : next size s action = some t) :
    match view s action with
    | none => Related size t a
    | some label => ∃ b, LogBroadcast.Step a label b ∧ Related size t b := by
  obtain ⟨pending,shared⟩ := id related.shared
  cases action with
  | store => exact related.store stepped
  | activate i => exact ⟨_,.join a i,related.activate stepped⟩
  | deactivate i => exact ⟨_,.leave a i,related.deactivate stepped⟩
  | call i => exact related.call stepped
  | read i => exact related.read allowed stepped
  | begin self data =>
    obtain ⟨w,begun,rfl⟩ := Option.map_eq_some_iff.mp stepped
    have kept := shared.begin begun
    obtain ⟨_,_,_,rfl⟩ := Shared.begin_eq begun
    exact related.moved ⟨_,kept⟩ rfl
  | finish =>
    obtain ⟨w,finished,rfl⟩ := Option.map_eq_some_iff.mp stepped
    have kept := shared.finish finished
    obtain ⟨_,_,rfl⟩ := Shared.finish_eq finished
    exact related.moved ⟨_,kept⟩ rfl
  | die =>
    obtain ⟨w,died,rfl⟩ := Option.map_eq_some_iff.mp stepped
    have kept := shared.die died
    obtain ⟨_,_,_,rfl⟩ := Shared.die_eq died
    exact related.moved ⟨_,kept⟩ rfl
  | check =>
    obtain ⟨check,rfl⟩ := State.detect_cases stepped
    exact related.moved related.shared rfl
  | answer answer =>
    obtain ⟨v,check,rfl,ledger,kept⟩ := State.answer_cases stepped
    exact related.moved (kept size pending shared) ledger

/-- What the single steps show is a broadcast of one growing log. -/
theorem refines (size : RingSize) :
    Refines (Related size) view ((sys size).restrict (fun s action => allowed size s action = true))
      LogBroadcast.sys where
  start := by
    rintro s ⟨⟨rb,config,fresh⟩,_,_,idle⟩
    refine ⟨⟨[],fun _ => none⟩,⟨rfl,fun _ => rfl⟩,⟨[],?_⟩,?_,fun i _ => ⟨rfl,(idle i).2⟩,fun i active => ?_⟩
    · rw [fresh]
      exact Shared.fresh_inv config
    · rw [fresh]
      rfl
    · rw [(idle i).1] at active
      contradiction
  silent := by
    rintro s action t a related ⟨allowed,stepped⟩ quiet
    have matched := related.step allowed stepped
    rwa [quiet] at matched
  visible := by
    rintro s action t a label related ⟨allowed,stepped⟩ shows
    have matched := related.step allowed stepped
    rwa [shows] at matched

end

def start16 : State where
  shared := Shared.fresh (ByteRingBuffer.create ring16.position (fun _ => 0))
  check := none
  ri := ReaderInfo.create 1
  reader _ := ⟨.idle,0,0,0⟩

theorem start16_init : (sys ring16).init start16 := by
  exact ⟨⟨_,rfl,rfl⟩,rfl,ReaderInfo.create_covers _,fun _ => ⟨rfl,rfl⟩⟩

end Interleaved
end Toroni.Rmp
