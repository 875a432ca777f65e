import Toroni.Rmp.ActiveRange
import Toroni.Rmp.ReaderSteps
import Toroni.Rmp.WriterSteps

/-! Writers and readers by their single loads and stores, with processes that die between any
two of them, and what a slot that is left active by a dead process means for a writer. -/
namespace Toroni.Rmp.DeadReaders
open Transition Traits Writer ActiveRange

structure State where
  shared : Shared
  table : ActiveRange.State
  reader : Nat → ReaderState

/-- `step` is one of `Alloc`, `Activate`, `Deactivate` or `Free`, `read` one of `ReadEx`. A process
that starts after a death may get the same number. -/
inductive Action
  | alloc (p : Owner)
  | activate (p : Owner) (i : Nat)
  | deactivate (p : Owner) (i : Nat)
  | free (p : Owner) (i : Nat)
  | step (p : Owner) (spurious : Bool)
  | readEx (p : Owner) (i : Nat)
  | read (i : Nat)
  | begin (self : Owner) (data : List UInt8)
  | giveUp (self : Owner) (data : List UInt8)
  | store
  | finish
  | die (p : Owner)

namespace State

def isActive (s : State) (i : Nat) : Bool := s.table.isActive i

def lock (s : State) (i : Nat) : RobustProcMutex := (s.table.ri.info i).lock

def position (s : State) (i : Nat) : Position := (s.table.ri.info i).position

def setReader (s : State) (i : Nat) (r : ReaderState) : State :=
  { s with
    table := { s.table with ri := s.table.ri.setPosition i r.bpos }
    reader := Function.update s.reader i r }

def die (s : State) (p : Owner) : State where
  shared :=
    match s.shared.writer with
    | some (self,_) =>
      if self = p then { s.shared with rb := s.shared.rb.setWriterMtx (s.shared.rb.writerMtx.ownerDies p)
                                       writer := none }
      else s.shared
    | none => s.shared
  table :=
    { s.table with
      ri := { s.table.ri with info := fun i =>
        { s.table.ri.info i with lock := (s.table.ri.info i).lock.ownerDies p } }
      pc := Function.update s.table.pc p .idle }
  reader := fun i => if s.lock i = .locked p then { s.reader i with pc := .idle } else s.reader i

end State

def next (size : RingSize) (s : State) : Action → Option State
  | .alloc p => (ActiveRange.next s.table (.alloc p)).map (fun table => { s with table := table })
  | .activate p i =>
    (ActiveRange.next s.table (.activate p i s.shared.rb.freePos)).map (fun table =>
      { s with
        table := table
        reader := Function.update s.reader i { s.reader i with pos := s.shared.rb.freePos } })
  | .deactivate p i =>
    (ActiveRange.next s.table (.deactivate p i)).map (fun table => { s with table := table })
  | .free p i => (ActiveRange.next s.table (.free p i)).map (fun table => { s with table := table })
  | .step p spurious =>
    (ActiveRange.next s.table (.step p spurious)).map (fun table => { s with table := table })
  | .readEx p i =>
    if s.lock i = .locked p ∧ s.isActive i = true ∧ (s.reader i).reading = false then
      some { s with reader := Function.update s.reader i { s.reader i with pc := .entry } }
    else none
  | .read i => ({ s.reader i with bpos := s.position i }.step s.shared.rb).map (s.setReader i)
  | .begin self data => (s.shared.begin size self data).map (fun shared => { s with shared := shared })
  | .giveUp self data =>
    match write s.shared.rb s.table.ri data true none with
    | .backpressure _ =>
      (s.shared.rb.writerMtx.lock self).map (fun mtx =>
        { s with shared := { s.shared with
            rb := (s.shared.rb.setWriterMtx mtx).countBackPressure, writer := some (self,[]) } })
    | _ => none
  | .store => (s.shared.store size).map (fun shared => { s with shared := shared })
  | .finish => s.shared.finish.map (fun shared => { s with shared := shared })
  | .die p => some (s.die p)

def start (rb : ByteRingBuffer) (configMaxReaders : BitVec 16) : State :=
  ⟨Shared.fresh rb,ActiveRange.start configMaxReaders,fun _ => ⟨.idle,0,0,0⟩⟩

def sys (size : RingSize) (configMaxReaders : BitVec 16) : System State Action :=
  .ofNext (fun s => ∃ rb, rb.configBufSizeBytes = size.position ∧ s = start rb configMaxReaders) (next size)

def freeing : Pc → Option Nat
  | .load .free i | .scan .free i _ _ _ _ | .unlock i => some i
  | _ => none

structure Held (t : ActiveRange.State) : Prop where
  held : ∀ p i, (t.pc p).slot = some i → Owns t p i
  freed : ∀ p i, freeing (t.pc p) = some i → t.isActive i = false
  active : ∀ i, t.isActive i = true → i < t.slots ∧ (t.ri.info i).lock ≠ .unlocked

section
variable {t u : ActiveRange.State} {p : Owner} {i : Nat} {pc : Pc}

theorem slot_of_freeing (gone : freeing pc = some i) : pc.slot = some i := by
  unfold freeing at gone
  split at gone
  · exact gone
  · exact gone
  · exact gone
  · contradiction

@[simp] theorem freeing_outdate (pc : Pc) (i : Nat) : freeing (pc.outdate i) = freeing pc := by
  cases pc with
  | scan call => cases call <;> rfl
  | _ => rfl

/-- A step of a process on a slot that it holds or has just taken. -/
theorem Held.touch (inv : Held t) (slots : u.slots = t.slots)
    (others : ∀ k, k ≠ i → u.ri.info k = t.ri.info k)
    (pcs : ∀ q, q ≠ p → (u.pc q).slot = (t.pc q).slot ∧ freeing (u.pc q) = freeing (t.pc q))
    (alone : ∀ q, (t.pc q).slot = some i → q = p)
    (slot : ∀ k, (u.pc p).slot = some k → Owns u p k)
    (freed : ∀ k, freeing (u.pc p) = some k → u.isActive k = false)
    (active : u.isActive i = true → i < t.slots ∧ (u.ri.info i).lock ≠ .unlocked) : Held u := by
  have apart {q : Owner} {k : Nat} (away : q ≠ p) (slot : (t.pc q).slot = some k) : k ≠ i :=
    fun same => away (alone q (same ▸ slot))
  refine ⟨fun q k working => ?_,fun q k gone => ?_,fun k isActive => ?_⟩
  · by_cases same : q = p
    · subst same
      exact slot k working
    · rw [(pcs q same).1] at working
      rw [Owns,slots,others k (apart same working)]
      exact inv.held q k working
  · by_cases same : q = p
    · subst same
      exact freed k gone
    · rw [(pcs q same).2] at gone
      rw [ActiveRange.State.isActive,others k (apart same (slot_of_freeing gone))]
      exact inv.freed q k gone
  · rw [slots]
    by_cases same : k = i
    · subst same
      exact active isActive
    · rw [ActiveRange.State.isActive,others k same] at isActive
      rw [others k same]
      exact inv.active k isActive

theorem Held.at (inv : Held t) (slot : ∀ k, pc.slot = some k → Owns t p k)
    (freed : ∀ k, freeing pc = some k → t.isActive k = false) : Held (t.at p pc) := by
  refine ⟨fun q k working => ?_,fun q k gone => ?_,inv.active⟩
  · by_cases same : q = p
    · subst same
      rw [State.at_pc] at working
      exact slot k working
    · rw [State.at_pc_of_ne same] at working
      exact inv.held q k working
  · by_cases same : q = p
    · subst same
      rw [State.at_pc] at gone
      exact freed k gone
    · rw [State.at_pc_of_ne same] at gone
      exact inv.freed q k gone

/-- A process leaves its slot, or looks for one. -/
theorem Held.away (inv : Held t) (slot : pc.slot = none) (gone : freeing pc = none) : Held (t.at p pc) := by
  apply inv.at
  · intro k working
    rw [slot] at working
    contradiction
  · intro k freed
    rw [gone] at freed
    contradiction

theorem Held.alone (inv : Held t) (owns : Owns t p i) (q : Owner) (slot : (t.pc q).slot = some i) :
    q = p := by
  exact owns.unique (inv.held q i slot)

theorem Held.change {info : Info} (inv : Held t) (owns : Owns t p i)
    (slot : pc.slot = some i ∧ info.lock = .locked p ∨ pc.slot = none)
    (freed : freeing pc = some i → info.isActive = false)
    (active : info.isActive = true → info.lock ≠ .unlocked) :
    Held ({ t with ri := { t.ri with info := Function.update t.ri.info i info } }.at p pc) := by
  refine inv.touch (i := i) rfl (fun k away => Function.update_of_ne away ..) (fun q away => ?_)
    (inv.alone owns) (fun k working => ?_) (fun k gone => ?_) (fun isActive => ⟨owns.1,?_⟩)
  · rw [State.at_pc_of_ne away]
    exact ⟨rfl,rfl⟩
  · rw [State.at_pc] at working
    rcases slot with ⟨some,locked⟩ | none
    · obtain rfl := Option.some.inj (some.symm.trans working)
      exact ⟨owns.1,by simpa [State.at] using locked⟩
    · rw [none] at working
      contradiction
  · rw [State.at_pc] at gone
    rcases slot with ⟨some,_⟩ | none
    · obtain rfl := Option.some.inj (some.symm.trans (slot_of_freeing gone))
      simpa [State.at,ActiveRange.State.isActive] using freed gone
    · rw [slot_of_freeing gone] at none
      contradiction
  · simp only [ActiveRange.State.isActive,State.at,Function.update_self] at isActive
    simpa [State.at] using active isActive

theorem Held.take {lock : RobustProcMutex} (inv : Held t) (inside : i < t.slots)
    (taken : (t.ri.info i).lock.tryLock p = some lock) :
    Held ({ t with ri := t.ri.setLock i lock }.at p (.storeActive .alloc i)) := by
  obtain ⟨free,rfl⟩ := RobustProcMutex.tryLock_eq_some.mp taken
  have nobody (q : Owner) (slot : (t.pc q).slot = some i) : False := free q (inv.held q i slot).2
  refine inv.touch (p := p) (i := i) rfl (fun k away => Function.update_of_ne away ..) (fun q away => ?_)
    (fun q slot => (nobody q slot).elim) (fun k working => ?_) (fun k gone => ?_) (fun _ => ⟨inside,?_⟩)
  · rw [State.at_pc_of_ne away]
    exact ⟨rfl,rfl⟩
  · rw [State.at_pc] at working
    obtain rfl := Option.some.inj working
    exact ⟨inside,by simp [State.at,ReaderInfo.setLock]⟩
  · rw [State.at_pc] at gone
    contradiction
  · simp [State.at,ReaderInfo.setLock]

theorem Held.finish {call : Call} (inv : Held t) (slot : (t.pc p).slot = some i)
    (gone : call = .free → t.isActive i = false) : Held (t.finish p i call) := by
  have owns := inv.held p i slot
  have idle : Held (t.at p .idle) := inv.away rfl rfl
  cases call with
  | alloc => exact idle
  | deactivate => exact idle
  | free =>
    refine inv.at (fun k working => ?_) (fun k freed => ?_)
    · exact Option.some.inj working ▸ owns
    · exact Option.some.inj freed ▸ gone rfl
  | activate =>
    refine inv.touch (p := p) (i := i) rfl (fun _ _ => rfl) (fun q away => ?_) (inv.alone owns)
      (fun k working => ?_) (fun k freed => ?_) (inv.active i)
    · simp [State.finish,away]
    · simp [State.finish,Pc.slot] at working
    · simp [State.finish,freeing] at freed

theorem Held.step {spurious : Bool} (inv : Held t) (stepped : ActiveRange.step t p spurious = some u) :
    Held u := by
  cases pc : t.pc p with
  | idle =>
    simp only [ActiveRange.step,pc] at stepped
    contradiction
  | trying i =>
    simp only [ActiveRange.step,pc] at stepped
    split at stepped
    next inside =>
      split at stepped
      next taken => exact Option.some.inj stepped ▸ inv.take inside taken
      next => exact Option.some.inj stepped ▸ inv.away rfl rfl
    next => exact Option.some.inj stepped ▸ inv.away rfl rfl
  | storePosition i pos =>
    simp only [ActiveRange.step,pc] at stepped
    have owns := inv.held p i (by rw [pc]; rfl)
    exact Option.some.inj stepped ▸ inv.change owns (Or.inl ⟨rfl,owns.2⟩) (fun gone => by simp [freeing] at gone)
      (fun isActive => (inv.active i isActive).2)
  | storeActive call i =>
    simp only [ActiveRange.step,pc] at stepped
    have owns := inv.held p i (by rw [pc]; rfl)
    refine Option.some.inj stepped ▸ inv.change owns (Or.inl ⟨rfl,owns.2⟩) (fun gone => ?_)
      (fun _ free => RobustProcMutex.noConfusion (owns.2.symm.trans free))
    cases call with
    | alloc | deactivate | free => rfl
    | activate => contradiction
  | load call i =>
    simp only [ActiveRange.step,pc] at stepped
    have owns := inv.held p i (by rw [pc]; rfl)
    refine Option.some.inj stepped ▸ inv.at (fun k slot => ?_) (fun k gone => inv.freed p k ?_)
    · exact Option.some.inj slot ▸ owns
    · rw [pc]
      cases call <;> exact gone
  | scan call i old j range stale =>
    simp only [ActiveRange.step,pc] at stepped
    have slot : (t.pc p).slot = some i := by rw [pc]; rfl
    have owns := inv.held p i slot
    have gone (k : Nat) (gone : freeing (.load call i) = some k) : t.isActive k = false := by
      apply inv.freed p k
      rw [pc]
      cases call <;> exact gone
    split at stepped
    next =>
      refine Option.some.inj stepped ▸ inv.at (fun k slot => Option.some.inj slot ▸ owns)
        (fun k freed => gone k ?_)
      cases call <;> exact freed
    next =>
      split at stepped
      next =>
        have published : Held { t with ri := { t.ri with readersMinMax := packRange range } } :=
          ⟨inv.held,inv.freed,inv.active⟩
        exact Option.some.inj stepped ▸ published.finish slot (fun free => gone i (by rw [free]; rfl))
      next =>
        exact Option.some.inj stepped ▸ inv.at (fun k slot => Option.some.inj slot ▸ owns) gone
  | unlock i =>
    simp only [ActiveRange.step,pc] at stepped
    have owns := inv.held p i (by rw [pc]; rfl)
    have closed := inv.freed p i (by rw [pc]; rfl)
    refine Option.some.inj stepped ▸ inv.change owns (Or.inr rfl)
      (fun gone => by simp [freeing] at gone) (fun isActive => ?_)
    exact absurd (closed.symm.trans isActive) Bool.false_ne_true

theorem Held.next {a : ActiveRange.Action} (inv : Held t) (stepped : ActiveRange.next t a = some u) :
    Held u := by
  have begun {p : Owner} {i : Nat} {pc : Pc} (owns : Owns t p i) (slot : pc.slot = some i) (gone : freeing pc = none) :
      Held (t.at p pc) :=
    inv.at (fun k working => Option.some.inj (slot.symm.trans working) ▸ owns)
      (fun k freed => by rw [gone] at freed; contradiction)
  cases a with
  | alloc p =>
    obtain ⟨_,same⟩ := Option.ite_none_right_eq_some.mp stepped
    exact Option.some.inj same ▸ inv.away rfl rfl
  | activate p i pos =>
    obtain ⟨ready,same⟩ := Option.ite_none_right_eq_some.mp stepped
    exact Option.some.inj same ▸ begun ready.2 rfl rfl
  | deactivate p i =>
    obtain ⟨ready,same⟩ := Option.ite_none_right_eq_some.mp stepped
    obtain ⟨held,freed,active⟩ : Held (t.at p (.storeActive .deactivate i)) := begun ready.2 rfl rfl
    exact Option.some.inj same ▸ ⟨held,freed,active⟩
  | free p i =>
    obtain ⟨ready,same⟩ := Option.ite_none_right_eq_some.mp stepped
    obtain ⟨held,freed,active⟩ : Held (t.at p (.storeActive .free i)) := begun ready.2 rfl rfl
    exact Option.some.inj same ▸ ⟨held,freed,active⟩
  | step p spurious => exact inv.step stepped

end

structure Inv (size : RingSize) (s : State) : Prop where
  config : s.shared.rb.configBufSizeBytes = size.position
  table : Held s.table

section
variable {size : RingSize} {s t : State} {p : Owner} {i : Nat}

theorem Held.setReader {r : ReaderState} (inv : Held s.table) : Held (s.setReader i r).table := by
  have same (k : Nat) : ((s.setReader i r).table.ri.info k).lock = (s.table.ri.info k).lock ∧
      (s.setReader i r).table.isActive k = s.table.isActive k := by
    by_cases equal : k = i
    · subst equal
      simp [State.setReader,ReaderInfo.setPosition,ActiveRange.State.isActive]
    · simp [State.setReader,ReaderInfo.setPosition,ActiveRange.State.isActive,equal]
  refine ⟨fun q k slot => ?_,fun q k gone => ?_,fun k isActive => ?_⟩
  · rw [Owns,(same k).1]
    exact inv.held q k slot
  · rw [(same k).2]
    exact inv.freed q k gone
  · rw [(same k).2] at isActive
    rw [(same k).1]
    exact inv.active k isActive

theorem Held.die (inv : Held s.table) : Held (s.die p).table := by
  refine ⟨fun q k slot => ?_,fun q k gone => ?_,fun k isActive => ?_⟩
  · by_cases same : q = p
    · simp [State.die,same,Pc.slot] at slot
    · simp only [State.die,Function.update_of_ne same] at slot
      obtain ⟨inside,locked⟩ := inv.held q k slot
      exact ⟨inside,RobustProcMutex.ownerDies_eq_locked.mpr ⟨locked,same⟩⟩
  · by_cases same : q = p
    · simp [State.die,same,freeing] at gone
    · simp only [State.die,Function.update_of_ne same] at gone
      exact inv.freed q k gone
  · obtain ⟨inside,held⟩ := inv.active k isActive
    exact ⟨inside,fun free => held (RobustProcMutex.ownerDies_eq_unlocked.mp free)⟩

theorem Inv.table_step {a : ActiveRange.Action} {table : ActiveRange.State} {reader : Nat → ReaderState}
    (inv : Inv size s) (stepped : ActiveRange.next s.table a = some table) :
    Inv size { s with table := table, reader := reader } := by
  exact ⟨inv.config,inv.table.next stepped⟩

theorem Inv.step {a : Action} (inv : Inv size s) (stepped : next size s a = some t) : Inv size t := by
  cases a with
  | alloc p =>
    obtain ⟨table,moved,rfl⟩ := Option.map_eq_some_iff.mp stepped
    exact inv.table_step moved
  | activate p i =>
    obtain ⟨table,moved,rfl⟩ := Option.map_eq_some_iff.mp stepped
    exact inv.table_step moved
  | deactivate p i =>
    obtain ⟨table,moved,rfl⟩ := Option.map_eq_some_iff.mp stepped
    exact inv.table_step moved
  | free p i =>
    obtain ⟨table,moved,rfl⟩ := Option.map_eq_some_iff.mp stepped
    exact inv.table_step moved
  | step p spurious =>
    obtain ⟨table,moved,rfl⟩ := Option.map_eq_some_iff.mp stepped
    exact inv.table_step moved
  | readEx p i =>
    obtain ⟨_,same⟩ := Option.ite_none_right_eq_some.mp stepped
    exact Option.some.inj same ▸ ⟨inv.config,inv.table⟩
  | read i =>
    obtain ⟨r,_,rfl⟩ := Option.map_eq_some_iff.mp stepped
    exact ⟨inv.config,inv.table.setReader⟩
  | begin self data =>
    obtain ⟨shared,begun,rfl⟩ := Option.map_eq_some_iff.mp stepped
    obtain ⟨_,mtx,_,rfl⟩ := Shared.begin_eq begun
    exact ⟨inv.config,inv.table⟩
  | giveUp self data =>
    simp only [next] at stepped
    split at stepped
    next =>
      obtain ⟨mtx,_,rfl⟩ := Option.map_eq_some_iff.mp stepped
      exact ⟨inv.config,inv.table⟩
    next => contradiction
  | store =>
    obtain ⟨shared,stored,rfl⟩ := Option.map_eq_some_iff.mp stepped
    obtain ⟨self,ops,_,⟨index,cells,_,put,_⟩ | ⟨n,r,_,moved,_⟩⟩ := Shared.store_cases stored
    · exact ⟨(congrArg ByteRingBuffer.configBufSizeBytes put).trans inv.config,inv.table⟩
    · exact ⟨(congrArg ByteRingBuffer.configBufSizeBytes moved).trans inv.config,inv.table⟩
  | finish =>
    obtain ⟨shared,finished,rfl⟩ := Option.map_eq_some_iff.mp stepped
    obtain ⟨self,_,rfl⟩ := Shared.finish_eq finished
    exact ⟨inv.config,inv.table⟩
  | die p =>
    obtain rfl := Option.some.inj stepped
    refine ⟨?_,inv.table.die⟩
    simp only [State.die]
    split
    next => split <;> exact inv.config
    next => exact inv.config

theorem reachable_inv {configMaxReaders : BitVec 16} (reached : Reachable (sys size configMaxReaders) s) :
    Inv size s := by
  refine reached.invariant (Inv size) ?_ ?_
  · rintro s ⟨rb,config,rfl⟩
    exact ⟨config,fun _ _ => nofun,fun _ _ => nofun,fun _ => nofun⟩
  · exact fun s a t inv stepped => inv.step stepped

def State.lag (s : State) (i : Nat) : Nat := (s.shared.rb.freePos - s.position i).toNat

def State.LeftActive (s : State) (i : Nat) : Prop :=
  s.table.ri.getActiveRange.1 ≤ i ∧ i < s.table.ri.getActiveRange.2 ∧ s.isActive i = true ∧
    s.lock i = .ownerDead

def State.CaughtUp (s : State) : Prop :=
  ∀ i < s.table.slots, ∀ p, s.isActive i = true → s.lock i = .locked p →
    s.position i = s.shared.rb.freePos

def State.total (size : RingSize) (s : State) (data : List UInt8) : Nat :=
  sizeOf (appended size.bytes s.shared.rb.freePos.toNat data)

def State.Succeeds (s : State) (data : List UInt8) : Prop :=
  ∃ rb, write s.shared.rb s.table.ri data true none = .written rb

/-- When all living readers have read everything, a message that is smaller than the ring, with
its header and the rest of the buffer in front of it, is written unless it would make the
published position of a dead reader expire. -/
theorem write_succeeds_iff {configMaxReaders : BitVec 16} {data : List UInt8}
    (reached : Reachable (sys size configMaxReaders) s) (caught : s.CaughtUp) (narrow : data.length < 2^32)
    (small : s.total size data < size.bytes) :
    s.Succeeds data ↔ ∀ i, s.LeftActive i →
      ¬ (s.lag i < size.bytes ∧ size.bytes ≤ s.lag i + s.total size data) := by
  obtain ⟨config,table⟩ := reachable_inv reached
  have free : s.shared.rb.freePos = BitVec.ofNat 64 s.shared.rb.freePos.toNat := by simp
  have legal : Legal size.bytes data := by
    refine ⟨?_,narrow⟩
    rw [State.total,sizeOf_appended] at small
    omega
  obtain ⟨few,positive⟩ := sizeOf_appended_lt s.shared.rb.freePos.toNat legal
  replace few : s.total size data < 2^62 := by
    unfold State.total
    omega
  have stops (i : Nat) : slotBackpressure s.shared.rb (BitVec.ofNat 64 (s.total size data)) none true
      (s.position i) = true ↔ (s.shared.rb.freePos - s.position i).toNat < size.bytes ∧
        size.bytes ≤ (s.shared.rb.freePos - s.position i).toNat + s.total size data :=
    slotBackpressure_distance config positive few small
  have silent : s.Succeeds data ↔ detectReaderBackpressure s.shared.rb s.table.ri
      (BitVec.ofNat 64 (s.total size data)) none = none := by
    rw [State.Succeeds,write_eq config free legal,if_pos rfl,State.total]
    split
    next pos found => simp [found]
    next none => simp [none]
  rw [silent,detectReaderBackpressure_eq_none]
  refine ⟨fun quiet i left full => ?_,fun harmless i low high => ?_⟩
  · obtain ⟨low,high,isActive,_⟩ := left
    have slot := quiet i low high
    rw [show (s.table.ri.info i).isActive = true from isActive] at slot
    exact absurd ((stops i).mpr full) (Bool.eq_false_iff.mp slot)
  · by_contra stopped
    rw [Bool.not_eq_false] at stopped
    have isActive : s.isActive i = true := by
      simp only [slotBackpressure,Bool.and_eq_true] at stopped
      exact stopped.1.1.1
    obtain ⟨inside,held⟩ := table.active i isActive
    rw [show (s.table.ri.info i).isActive = true from isActive] at stopped
    have full := (stops i).mp stopped
    cases lock : s.lock i with
    | unlocked => exact held lock
    | locked p =>
      rw [caught i inside p isActive lock,BitVec.sub_self] at full
      have := full.2
      simp only [BitVec.toNat_ofNat,Nat.zero_mod,Nat.zero_add] at this
      exact absurd small (Nat.not_lt.mpr this)
    | ownerDead => exact harmless i ⟨low,high,isActive,lock⟩ full

end

def start16 : State := start (.create ring16.position (fun _ => 0)) 1

def activateAndDie : List Action :=
  .alloc 1 :: List.replicate 5 (.step 1 false) ++ .activate 1 0 :: List.replicate 5 (.step 1 false) ++ [.die 1]

/-- The dead reader has read everything, and a first message of five bytes is written. -/
theorem write_succeeds_first : ∃ s : State, s.lock 0 = .ownerDead ∧ s.isActive 0 = true ∧
    s.Succeeds [1,2,3,4,5] := by
  obtain ⟨s,reached,saw⟩ := exec_reaches (sys ring16 1) (fun _ _ => true) (next ring16) (fun _ _ _ step => step)
    (s := start16) ⟨_,rfl,rfl⟩ activateAndDie
    (fun s => (s.lock 0,s.isActive 0,s.table.slots,s.shared.rb.freePos,s.position 0)) (.ownerDead,true,1,0,0)
    (by decide +kernel)
  simp only [Prod.mk.injEq] at saw
  obtain ⟨dead,isActive,slots,free,position⟩ := saw
  have total : s.total ring16 [1,2,3,4,5] = 10 := by
    rw [State.total,free]
    rfl
  refine ⟨s,dead,isActive,(write_succeeds_iff reached.unrestrict (fun i inside p _ alive => ?_) (by decide)
    (by rw [total]; decide)).mpr (fun i left => ?_)⟩
  · rw [slots] at inside
    obtain rfl : i = 0 := by omega
    rw [dead] at alive
    contradiction
  · have inside := ((reachable_inv reached.unrestrict).table.active i left.2.2.1).1
    rw [slots] at inside
    obtain rfl : i = 0 := by omega
    rw [State.lag,free,position,total]
    decide

def reported : WriteResult → Option Position
  | .backpressure pos => some pos
  | _ => none

theorem eq_backpressure {result : WriteResult} {pos : Position} (found : reported result = some pos) :
    result = .backpressure pos := by
  unfold reported at found
  split at found
  next => rw [Option.some.inj found]
  next => contradiction

/-- The second message, of one byte, would make the published position of the dead reader expire:
with no living reader at all, `Write` reports backpressure. -/
theorem dead_reader_blocks : ∃ s : State, Reachable (sys ring16 1) s ∧ s.CaughtUp ∧
    s.total ring16 [7] < ring16.bytes ∧ s.LeftActive 0 ∧
    write s.shared.rb s.table.ri [7] true none = .backpressure 0 ∧ ¬ s.Succeeds [7] := by
  obtain ⟨s,reached,saw⟩ := exec_reaches (sys ring16 1) (fun _ _ => true) (next ring16) (fun _ _ _ step => step)
    (s := start16) ⟨_,rfl,rfl⟩
    (activateAndDie ++ .begin 2 [1,2,3,4,5] :: List.replicate 8 .store ++ [.finish])
    (fun s => ((s.lock 0,s.isActive 0,s.table.slots,s.table.ri.getActiveRange),s.shared.rb.freePos,
      reported (write s.shared.rb s.table.ri [7] true none)))
    ((.ownerDead,true,1,0,1),10,some 0) (by decide +kernel)
  simp only [Prod.mk.injEq] at saw
  obtain ⟨⟨dead,isActive,slots,range⟩,free,result⟩ := saw
  have reports := eq_backpressure result
  refine ⟨s,reached.unrestrict,fun i inside p _ alive => ?_,?_,⟨?_,?_,isActive,dead⟩,reports,?_⟩
  · rw [slots] at inside
    obtain rfl : i = 0 := by omega
    rw [dead] at alive
    contradiction
  · rw [State.total,free]
    decide
  · simp [range]
  · simp [range]
  · rintro ⟨rb,written⟩
    rw [reports] at written
    contradiction

end Toroni.Rmp.DeadReaders
