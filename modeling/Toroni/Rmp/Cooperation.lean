import Toroni.Rmp.Interleaved

/-! Writers that go on waiting, whatever the order of the single steps: what the scan of the slots
tells a writer is enough for every active reader to get every message. -/
namespace Toroni.Rmp
open CircularMemory Reader Traits Writer

theorem Ledger.run_extends {B : Nat} {g : Ledger} (ops : List Store) :
    (g.run B ops).base = g.base ∧ ∃ more, (g.run B ops).log = g.log ++ more := by
  induction ops generalizing g with
  | nil => exact ⟨rfl,[],(List.append_nil _).symm⟩
  | cons op ops ih =>
    obtain ⟨base,more,log⟩ := ih (g := g.apply B op)
    rw [Ledger.run_cons]
    cases op with
    | bytes index cells => exact ⟨base,more,log⟩
    | freePos n r => exact ⟨base,r :: more,by rw [log,Ledger.apply,List.append_assoc]; rfl⟩

def Shared.ahead (size : RingSize) (w : Shared) : Ledger :=
  match w.writer with
  | some (_,ops) => w.ledger.run size.bytes ops
  | none => w.ledger

namespace Interleaved
open Transition
open LogBroadcast (Label)

/-- A message takes, with what is skipped before it, less than a revolution and leaves no padding
without content, and the handler goes on waiting or throws. -/
def waits (size : RingSize) (s : State) : Action → Bool
  | .begin _ data =>
    let log := appended size.bytes s.shared.ledger.free data
    decide (sizeOf log < size.bytes) && log.all (fun r => !decide (NoContent r))
  | .answer (.returns false) => false
  | _ => true

def Awaits (i : Nat) : Option (Check × List UInt8) → Prop
  | some (.loadMax,_) | some (.backpressure,_) => True
  | some (.loadMin max,_) => i < max
  | some (.scan j max,_) | some (.look j max,_) => j ≤ i ∧ i < max
  | none => False

structure Guarded (size : RingSize) (s : State) (i p : Nat) : Prop where
  inv : (s.reader i).Inv size s.shared.ledger
  published : (s.ri.info i).position = BitVec.ofNat 64 p ∧ (s.reader i).bpos = BitVec.ofNat 64 p
  behind : p ≤ (s.reader i).at_
  near : s.shared.ledger.free < p + size.bytes
  room : s.shared.ledger.top ≤ p + size.bytes
  checked : (s.shared.ahead size).free < p + size.bytes ∨ Awaits i s.check
  unbroken : ∀ result, (s.reader i).pc = .done result → result = some .success

structure Cooperates (size : RingSize) (s : State) : Prop where
  shared : ∃ pending, s.shared.Inv size pending
  covers : s.ri.Covers
  fits : (s.shared.ahead size).free < s.shared.ledger.free + size.bytes
  content : ∀ r ∈ (s.shared.ahead size).log, ¬ NoContent r
  checking : ∀ check data, s.check = some (check,data) → Legal size.bytes data ∧
    (s.shared.ahead size).free = s.shared.ledger.free + sizeOf (appended size.bytes s.shared.ledger.free data)
  idle : ∀ i, s.isActive i = false → (s.reader i).reading = false
  guarded : ∀ i, s.isActive i = true → i ∈ s.slots ∧ ∃ p, Guarded size s i p

section
variable {size : RingSize} {s t : State} {i p : Nat} {action : Action} {w : Shared} {pending : List UInt8}

theorem ahead_extends (size : RingSize) (w : Shared) :
    (w.ahead size).base = w.ledger.base ∧ ∃ more, (w.ahead size).log = w.ledger.log ++ more := by
  unfold Shared.ahead
  split
  · exact Ledger.run_extends _
  · exact ⟨rfl,[],(List.append_nil _).symm⟩

theorem free_le_ahead (size : RingSize) (w : Shared) : w.ledger.free ≤ (w.ahead size).free := by
  obtain ⟨base,more,log⟩ := ahead_extends size w
  rw [Ledger.free,Ledger.free,base,log,sizeOf_append]
  omega

theorem ahead_store (stored : s.shared.store size = some w) : w.ahead size = s.shared.ahead size := by
  unfold Shared.store at stored
  split at stored
  next self op ops running =>
    cases Option.some.inj stored
    simp only [Shared.ahead,running,Ledger.run_cons]
  next => contradiction

/-- No store of a write reaches behind its end. -/
theorem storeAt_le_ahead {self : Owner} {index : Nat} {cells : List UInt8} {ops : List Store}
    (inv : w.Inv size pending) (running : w.writer = some (self,.bytes index cells :: ops)) :
    w.storeAt size index + cells.length ≤ (w.ahead size).free := by
  have remaining := inv.remaining
  rw [running] at remaining
  obtain ⟨rfl,_,rest⟩ := remaining
  have covered := (Writes.top_le
    (g := w.ledger.apply size.bytes (.bytes (w.ledger.free % size.bytes + pending.length) cells)) rest).1
  simp only [Ledger.free_bytes,List.length_append] at covered
  simp only [Shared.storeAt,Shared.ahead,running,Ledger.run_cons]
  omega

theorem Guarded.le_free (guarded : Guarded size s i p) : (s.reader i).at_ ≤ s.shared.ledger.free := by
  obtain ⟨rest,boundary⟩ := guarded.inv.sound.boundary
  have := boundary.le
  omega

theorem Guarded.inTime (guarded : Guarded size s i p) : (s.reader i).inTime size s.shared.ledger = true := by
  have near := guarded.near
  have behind := guarded.behind
  have room := guarded.room
  exact ReaderState.inTime_of_intact (by omega) (by omega)

theorem Cooperates.active {r : ReaderState} (coop : Cooperates size s)
    (read : (s.reader i).step s.shared.rb = some r) : s.isActive i = true := by
  by_contra idle
  have quiet := coop.idle i (by simpa using idle)
  rw [ReaderState.reading_of_step read] at quiet
  contradiction

/-- Writers that wait keep every step within what tells a reader in time. -/
theorem Cooperates.allowed (coop : Cooperates size s) (action : Action) (stepped : next size s action = some t) :
    allowed size s action = true := by
  obtain ⟨pending,shared⟩ := coop.shared
  have bounds := size.bounds
  cases action with
  | begin | check | answer | store | finish | die | activate | deactivate | call => rfl
  | read i =>
    obtain ⟨r,read,_⟩ := Option.map_eq_some_iff.mp stepped
    obtain ⟨_,p,guarded⟩ := coop.guarded i (coop.active read)
    have near := guarded.near
    have behind := guarded.behind
    simp only [Interleaved.allowed,guarded.inTime,Bool.and_true,decide_eq_true_eq]
    omega

theorem Guarded.moved (guarded : Guarded size s i p) (ledger : t.shared.ledger = s.shared.ledger)
    (info : t.ri.info i = s.ri.info i) (reader : t.reader i = s.reader i)
    (checked : (t.shared.ahead size).free < p + size.bytes ∨ Awaits i t.check) : Guarded size t i p := by
  refine ⟨?_,?_,?_,?_,?_,checked,?_⟩
  · rw [reader,ledger]
    exact guarded.inv
  · rw [info,reader]
    exact guarded.published
  · rw [reader]
    exact guarded.behind
  · rw [ledger]
    exact guarded.near
  · rw [ledger]
    exact guarded.room
  · rw [reader]
    exact guarded.unbroken

theorem Cooperates.begin {self : Owner} {data : List UInt8} (coop : Cooperates size s)
    (waits : waits size s (.begin self data) = true) (stepped : next size s (.begin self data) = some t) :
    Cooperates size t := by
  obtain ⟨pending,shared⟩ := coop.shared
  obtain ⟨w,begun,rfl⟩ := Option.map_eq_some_iff.mp stepped
  obtain ⟨idle,_⟩ := shared.begin_idle begun
  have kept := shared.begin begun
  obtain ⟨legal,mtx,_,rfl⟩ := Shared.begin_eq begun
  obtain ⟨short,whole⟩ : sizeOf (appended size.bytes s.shared.ledger.free data) < size.bytes ∧
      ∀ r ∈ appended size.bytes s.shared.ledger.free data, ¬ NoContent r := by
    simpa [Interleaved.waits] using waits
  have before : s.shared.ahead size = s.shared.ledger := by simp [Shared.ahead,idle]
  have content := coop.content
  have ends := Ledger.free_run_logStores (B := size.bytes) (g := s.shared.ledger) s.shared.ledger.free
    (appended size.bytes s.shared.ledger.free data)
  have grown := (Ledger.run_logStores (B := size.bytes) (g := s.shared.ledger) s.shared.ledger.free
    (appended size.bytes s.shared.ledger.free data)).1
  have after : Shared.ahead size { s.shared with
      rb := s.shared.rb.setWriterMtx mtx
      writer := some (self,stores s.shared.rb data) } = s.shared.ledger.run size.bytes
        (logStores size.bytes s.shared.ledger.free (appended size.bytes s.shared.ledger.free data)) := by
    rw [← stores_eq shared.rep.config shared.rep.freePos legal.2]
    rfl
  refine ⟨⟨_,kept⟩,coop.covers,?_,?_,?_,coop.idle,fun i active => ?_⟩
  · rw [after,ends]
    dsimp only
    omega
  · rw [after,grown]
    intro r member
    rcases List.mem_append.mp member with old | new
    · exact content r (before ▸ old)
    · exact whole r new
  · intro check other same
    cases same
    refine ⟨legal,?_⟩
    rw [after,ends]
  · obtain ⟨inside,p,guarded⟩ := coop.guarded i active
    exact ⟨inside,p,guarded.moved rfl rfl rfl (Or.inr trivial)⟩

theorem State.detect_data {check : Check} {data : List UInt8} (stepped : s.detect = some t)
    (now : t.check = some (check,data)) : ∃ before, s.check = some (before,data) := by
  unfold State.detect at stepped
  split at stepped
  next found =>
    obtain rfl := Option.some.inj stepped
    obtain ⟨rfl,rfl⟩ := Prod.mk.inj (Option.some.inj now)
    exact ⟨_,found⟩
  next found =>
    obtain rfl := Option.some.inj stepped
    obtain ⟨rfl,rfl⟩ := Prod.mk.inj (Option.some.inj now)
    exact ⟨_,found⟩
  next found =>
    split at stepped
    next =>
      obtain rfl := Option.some.inj stepped
      obtain ⟨rfl,rfl⟩ := Prod.mk.inj (Option.some.inj now)
      exact ⟨_,found⟩
    next =>
      obtain rfl := Option.some.inj stepped
      contradiction
  next found =>
    obtain rfl := Option.some.inj stepped
    obtain ⟨rfl,rfl⟩ := Prod.mk.inj (Option.some.inj now)
    exact ⟨_,found⟩
  next => contradiction
  next => contradiction

/-- Each load of the scan leaves every active reader checked, or still to be looked at. -/
theorem Cooperates.looks (coop : Cooperates size s) (active : s.isActive i = true)
    (guarded : Guarded size s i p) (stepped : s.detect = some t) :
    (t.shared.ahead size).free < p + size.bytes ∨ Awaits i t.check := by
  obtain ⟨pending,shared⟩ := coop.shared
  obtain ⟨inside,_⟩ := coop.guarded i active
  obtain ⟨low,high⟩ := coop.covers i (List.mem_range.mp inside) active
  have checked := guarded.checked
  unfold State.detect at stepped
  split at stepped
  next data check =>
    obtain rfl := Option.some.inj stepped
    exact Or.inr high
  next max data check =>
    obtain rfl := Option.some.inj stepped
    rw [check] at checked
    exact checked.imp_right (fun awaits => ⟨low,awaits⟩)
  next j max data check =>
    rw [check] at checked
    split at stepped
    next more =>
      obtain rfl := Option.some.inj stepped
      refine checked.imp_right (fun ⟨above,below⟩ => ?_)
      dsimp only
      split
      next => exact ⟨above,below⟩
      next passed =>
        refine ⟨?_,below⟩
        rcases Nat.eq_or_lt_of_le above with rfl | later
        · exact absurd active passed
        · exact later
    next ended =>
      obtain rfl := Option.some.inj stepped
      exact Or.inl (checked.resolve_right (fun ⟨above,below⟩ => ended (lt_of_le_of_lt above below)))
  next j max data check =>
    obtain ⟨legal,ends⟩ := coop.checking _ _ check
    rw [check] at checked
    obtain rfl := Option.some.inj stepped
    dsimp only
    split
    next => exact Or.inr trivial
    next passed =>
      rcases checked with room | ⟨above,below⟩
      · exact Or.inl room
      · rcases Nat.eq_or_lt_of_le above with rfl | later
        · left
          have near := guarded.near
          have behind := guarded.behind
          have order := guarded.le_free
          have small := sizeOf_appended_lt s.shared.ledger.free legal
          rw [layout_eq shared.rep.config shared.rep.freePos legal.2,guarded.published.1,
            slotBackpressure_iff shared.rep.config shared.rep.freePos (by omega) (by omega) small.2
              (by omega)] at passed
          omega
        · exact Or.inr ⟨later,below⟩
  next => contradiction
  next => contradiction

theorem Cooperates.check (coop : Cooperates size s) (stepped : s.detect = some t) : Cooperates size t := by
  have looks {i p : Nat} (active : s.isActive i = true) (guarded : Guarded size s i p) :=
    coop.looks active guarded stepped
  obtain ⟨check,rfl⟩ := State.detect_cases stepped
  refine ⟨coop.shared,coop.covers,coop.fits,coop.content,?_,coop.idle,fun i active => ?_⟩
  · intro pc data same
    obtain ⟨pc',before⟩ := State.detect_data stepped same
    exact coop.checking pc' data before
  · obtain ⟨inside,p,guarded⟩ := coop.guarded i active
    exact ⟨inside,p,guarded.moved rfl rfl rfl (looks active guarded)⟩

/-- The writer leaves its write, complete or not. -/
theorem Cooperates.leave {check : Option (Check × List UInt8)} (coop : Cooperates size s)
    (shared : ∃ pending, w.Inv size pending) (ledger : w.ledger = s.shared.ledger) (left : w.writer = none)
    (none : check = none) : Cooperates size { s with shared := w, check := check } := by
  have ahead : w.ahead size = s.shared.ledger := by rw [Shared.ahead,left,ledger]
  have bounds := size.bounds
  refine ⟨shared,coop.covers,?_,?_,?_,coop.idle,fun i active => ?_⟩
  · rw [ahead,ledger]
    omega
  · rw [ahead]
    obtain ⟨_,more,log⟩ := ahead_extends size s.shared
    exact fun r member => coop.content r (log ▸ List.mem_append_left more member)
  · intro pc data same
    rw [none] at same
    contradiction
  · obtain ⟨inside,p,guarded⟩ := coop.guarded i active
    exact ⟨inside,p,guarded.moved ledger rfl rfl (Or.inl (ahead ▸ guarded.near))⟩

theorem Cooperates.answer {answer : BpAnswer} (coop : Cooperates size s)
    (waits : waits size s (.answer answer) = true) (stepped : s.answer answer = some t) :
    Cooperates size t := by
  obtain ⟨pending,shared⟩ := id coop.shared
  unfold State.answer at stepped
  split at stepped
  next data check =>
    split at stepped
    next =>
      obtain rfl := Option.some.inj stepped
      refine ⟨⟨pending,shared.countBackPressure⟩,coop.covers,coop.fits,coop.content,?_,coop.idle,fun i active => ?_⟩
      · intro pc other same
        cases same
        exact coop.checking _ data check
      · obtain ⟨inside,p,guarded⟩ := coop.guarded i active
        exact ⟨inside,p,guarded.moved rfl rfl rfl (Or.inr trivial)⟩
    next => contradiction
    next =>
      obtain rfl := Option.some.inj stepped
      exact coop.leave ⟨[],shared.countBackPressure.giveUp⟩ rfl rfl rfl
  next => contradiction

theorem Guarded.stored (guarded : Guarded size s i p) {ledger : Ledger} {top : Nat}
    (grown : ledger = { s.shared.ledger with top := max s.shared.ledger.top top })
    (reach : top ≤ p + size.bytes) (same : w.ledger = ledger)
    (ahead : (w.ahead size).free < p + size.bytes) : Guarded size { s with shared := w } i p := by
  have room := guarded.room
  subst grown
  refine ⟨?_,guarded.published,guarded.behind,?_,?_,Or.inl ahead,guarded.unbroken⟩
  · dsimp only
    rw [same]
    exact guarded.inv.stored top
  · dsimp only
    rw [same]
    exact guarded.near
  · dsimp only
    rw [same]
    exact max_le room reach

theorem Cooperates.store (coop : Cooperates size s) (stepped : next size s .store = some t) :
    Cooperates size t := by
  obtain ⟨pending,shared⟩ := coop.shared
  simp only [next] at stepped
  split at stepped
  next passed =>
    obtain ⟨w,stored,rfl⟩ := Option.map_eq_some_iff.mp stepped
    have same := ahead_store stored
    have kept := shared.store stored
    have fits := coop.fits
    have ends {i p : Nat} (guarded : Guarded size s i p) : (s.shared.ahead size).free < p + size.bytes := by
      have checked := guarded.checked
      rw [passed] at checked
      exact checked.resolve_right id
    have content := coop.content
    obtain ⟨self,ops,_,⟨index,cells,running,_,ledger⟩ | ⟨n,record,running,_,ledger⟩⟩ := Shared.store_cases stored
    · refine ⟨kept,coop.covers,?_,same ▸ content,?_,coop.idle,fun i active => ?_⟩
      · rw [same,ledger]
        exact fits
      · intro pc data check
        rw [passed] at check
        contradiction
      · obtain ⟨inside,p,guarded⟩ := coop.guarded i active
        have reach := storeAt_le_ahead shared running
        have bound := ends guarded
        exact ⟨inside,p,guarded.stored rfl (by omega) ledger (same ▸ bound)⟩
    · have further := free_le_ahead size w
      rw [same] at further
      have grown : w.ledger.free = s.shared.ledger.free + record.size := by
        rw [ledger]
        simp [Ledger.free,Nat.add_assoc]
      refine ⟨kept,coop.covers,?_,same ▸ content,?_,coop.idle,fun i active => ?_⟩
      · rw [same]
        dsimp only
        omega
      · intro pc data check
        rw [passed] at check
        contradiction
      · obtain ⟨inside,p,guarded⟩ := coop.guarded i active
        have bound := ends guarded
        refine ⟨inside,p,?_,guarded.published,guarded.behind,?_,?_,Or.inl (same ▸ bound),guarded.unbroken⟩
        · dsimp only
          rw [ledger]
          exact guarded.inv.grow rfl rfl le_rfl
        · dsimp only
          omega
        · dsimp only
          rw [ledger]
          exact guarded.room
  next => contradiction

theorem position_activate (ri : ReaderInfo) (i j : Nat) (pos : Position) :
    ((ri.activate (some i) pos).info j).position = if j = i then pos else (ri.info j).position := by
  rcases eq_or_ne j i with rfl | away
  · simp [ReaderInfo.activate,ReaderInfo.updateActiveRange,ReaderInfo.setActive,ReaderInfo.setPosition]
  · simp [ReaderInfo.activate,ReaderInfo.updateActiveRange,ReaderInfo.setActive,ReaderInfo.setPosition,away]

/-- A step of the reader in slot `i` leaves the others where they are. -/
theorem Cooperates.set (coop : Cooperates size s) (shared : t.shared = s.shared) (check : t.check = s.check)
    (slots : t.ri.configMaxReaders = s.ri.configMaxReaders) (covers : t.ri.Covers)
    (others : ∀ j, j ≠ i → t.isActive j = s.isActive j ∧ (t.ri.info j).position = (s.ri.info j).position ∧
      t.reader j = s.reader j)
    (idle : t.isActive i = false → (t.reader i).reading = false)
    (own : t.isActive i = true → i ∈ s.slots ∧ ∃ p, Guarded size t i p) : Cooperates size t := by
  have inside (j : Nat) : j ∈ t.slots ↔ j ∈ s.slots := by rw [State.slots,State.slots,slots]
  refine ⟨shared ▸ coop.shared,covers,shared ▸ coop.fits,shared ▸ coop.content,?_,fun j quiet => ?_,
    fun j active => ?_⟩
  · rw [check,shared]
    exact coop.checking
  · rcases eq_or_ne j i with rfl | away
    · exact idle quiet
    · obtain ⟨same,_,reader⟩ := others j away
      rw [reader]
      exact coop.idle j (same ▸ quiet)
  · rcases eq_or_ne j i with rfl | away
    · exact ⟨(inside j).mpr (own active).1,(own active).2⟩
    · obtain ⟨same,position,reader⟩ := others j away
      obtain ⟨slot,p,guarded⟩ := coop.guarded j (same ▸ active)
      refine ⟨(inside j).mpr slot,p,?_,?_,?_,shared ▸ guarded.near,shared ▸ guarded.room,?_,?_⟩
      · rw [reader,shared]
        exact guarded.inv
      · rw [position,reader]
        exact guarded.published
      · rw [reader]
        exact guarded.behind
      · rw [shared,check]
        exact guarded.checked
      · rw [reader]
        exact guarded.unbroken

theorem Cooperates.activate (coop : Cooperates size s) (stepped : next size s (.activate i) = some t) :
    Cooperates size t := by
  obtain ⟨pending,shared⟩ := coop.shared
  simp only [next] at stepped
  split at stepped
  next ready =>
    obtain rfl := Option.some.inj stepped
    have bounds := size.bounds
    have ahead := shared.rep.ahead
    refine coop.set rfl rfl rfl (ReaderInfo.updateActiveRange_covers _) (fun j away => ⟨?_,?_,?_⟩) ?_
      (fun _ => ⟨ready.1,s.shared.ledger.free,?_⟩)
    · simp [State.isActive,ReaderInfo.isActive_activate,away]
    · simp [position_activate,away]
    · simp [away]
    · simp [ReaderState.reading]
    · refine ⟨?_,⟨?_,?_⟩,?_,?_,?_,Or.inl coop.fits,?_⟩
      · simp only [Function.update_self]
        exact (Place.activated shared.rep).inv
      · simp [position_activate,shared.rep.freePos]
      · simp [shared.rep.freePos]
      · simp
      · dsimp only
        omega
      · dsimp only
        omega
      · simp
  next => contradiction

theorem Cooperates.deactivate (coop : Cooperates size s) (stepped : next size s (.deactivate i) = some t) :
    Cooperates size t := by
  simp only [next] at stepped
  split at stepped
  next quiet =>
    obtain rfl := Option.some.inj stepped
    have gone : ((s.ri.deactivate (some i)).info i).isActive = false := by
      simp [ReaderInfo.isActive_deactivate]
    refine coop.set (i := i) rfl rfl rfl (ReaderInfo.updateActiveRange_covers _) (fun j away => ⟨?_,?_,rfl⟩)
      (fun _ => quiet) (fun active => ?_)
    · simp [State.isActive,ReaderInfo.isActive_deactivate,away]
    · simp [ReaderInfo.deactivate,ReaderInfo.updateActiveRange,ReaderInfo.setActive,away]
    · rw [State.isActive,gone] at active
      contradiction
  next => contradiction

theorem Cooperates.call (coop : Cooperates size s) (stepped : next size s (.call i) = some t) :
    Cooperates size t := by
  simp only [next] at stepped
  split at stepped
  next ready =>
    obtain rfl := Option.some.inj stepped
    obtain ⟨slot,p,guarded⟩ := coop.guarded i ready.1
    have room := guarded.room
    have behind := guarded.behind
    refine coop.set (i := i) rfl rfl rfl coop.covers (fun j away => ⟨rfl,rfl,by simp [away]⟩) ?_
      (fun _ => ⟨slot,p,?_,?_,?_,guarded.near,room,guarded.checked,?_⟩)
    · intro idle
      rw [show s.isActive i = false from idle] at ready
      exact absurd ready.1 (by simp)
    · simp only [Function.update_self]
      exact ⟨guarded.inv.pos,guarded.inv.sound.boundary⟩
    · simpa using guarded.published
    · simpa using behind
    · simp
  next => contradiction

/-- The published position moves to the read one, if at all. -/
theorem step_bpos {rb : ByteRingBuffer} {r r' : ReaderState} (stepped : r.step rb = some r') :
    (r'.bpos = r.bpos ∨ r'.bpos = r.pos) ∧ r.at_ ≤ r'.at_ := by
  by_cases pc : r.pc = .publish
  · simp only [ReaderState.step,pc] at stepped
    obtain rfl := Option.some.inj stepped
    dsimp only
    split <;> simp
  · rcases ReaderState.step_cases stepped pc with ⟨_,_,bpos,at_⟩ | ⟨_,_,_,bpos,at_⟩ | ⟨_,bpos,at_⟩ | ⟨_,rfl⟩
    · exact ⟨Or.inl bpos,at_.ge⟩
    · exact ⟨Or.inl bpos,by omega⟩
    · exact ⟨Or.inl bpos,at_⟩
    · exact ⟨Or.inr rfl,le_rfl⟩

theorem Guarded.ends {r : ReaderState} {result : Option Result} (guarded : Guarded size s i p)
    (shared : s.shared.Inv size pending) (content : ∀ r ∈ s.shared.ledger.log, ¬ NoContent r)
    (stepped : (s.reader i).step s.shared.rb = some r) (done : r.pc = .done result) :
    result = some .success := by
  have near := guarded.near
  have behind := guarded.behind
  have bounds := size.bounds
  have close : s.shared.ledger.free < (s.reader i).at_ + 2^63 := by omega
  have inv := guarded.inv.step shared.rep guarded.inTime stepped
  have onward := (step_bpos stepped).2
  cases result with
  | none =>
    have sound := inv.sound
    rw [done] at sound
    exact absurd rfl sound.1
  | some result =>
    cases result with
    | success => rfl
    | invalidPosition =>
      have ahead := (ReaderState.step_ends stepped).2.1 done
      rw [guarded.inv.not_ahead shared.rep close] at ahead
      contradiction
    | expiredPosition =>
      obtain ⟨_,record,rest,⟨before,split,_⟩,stops⟩ := guarded.inv.lost shared.rep close guarded.inTime stepped done
      have member : record ∈ s.shared.ledger.log := split ▸ List.mem_append_right before List.mem_cons_self
      have whole := content record member
      cases record with
      | msg data =>
        rcases stops with old | rfl
        · omega
        · exact absurd (Or.inl rfl) whole
      | padding length =>
        rcases stops with old | rfl
        · omega
        · exact absurd (Or.inr rfl) whole
      | blank length => exact stops.elim

theorem Cooperates.ends {r : ReaderState} {result : Option Result} (coop : Cooperates size s)
    (read : (s.reader i).step s.shared.rb = some r) (done : r.pc = .done result) : result = some .success := by
  obtain ⟨pending,shared⟩ := coop.shared
  obtain ⟨_,p,guarded⟩ := coop.guarded i (coop.active read)
  obtain ⟨_,more,log⟩ := ahead_extends size s.shared
  exact guarded.ends shared (fun r member => coop.content r (log ▸ List.mem_append_left more member)) read done

theorem Cooperates.read (coop : Cooperates size s) (stepped : next size s (.read i) = some t) :
    Cooperates size t := by
  obtain ⟨pending,shared⟩ := coop.shared
  obtain ⟨r,read,rfl⟩ := Option.map_eq_some_iff.mp stepped
  have active := coop.active read
  obtain ⟨slot,p,guarded⟩ := coop.guarded i active
  have near := guarded.near
  have behind := guarded.behind
  have room := guarded.room
  have bounds := size.bounds
  obtain ⟨moves,onward⟩ := step_bpos read
  obtain ⟨q,later,bpos,order⟩ : ∃ q, p ≤ q ∧ r.bpos = BitVec.ofNat 64 q ∧ q ≤ r.at_ := by
    rcases moves with same | moved
    · exact ⟨p,le_rfl,same.trans guarded.published.2,by omega⟩
    · exact ⟨(s.reader i).at_,behind,moved.trans guarded.inv.pos,onward⟩
  have same (j : Nat) : ((s.ri.setPosition i r.bpos).info j).isActive = (s.ri.info j).isActive :=
    ReaderInfo.isActive_setPosition _ _ _ _
  refine coop.set (i := i) rfl rfl rfl (coop.covers.setPosition i r.bpos)
    (fun j away => ⟨same j,by simp [ReaderInfo.setPosition,away],by simp [away]⟩) ?_
    (fun _ => ⟨slot,q,?_,⟨?_,?_⟩,?_,?_,?_,guarded.checked.imp_left (fun bound => lt_of_lt_of_le bound (by omega)),?_⟩)
  · intro idle
    rw [State.isActive,same] at idle
    rw [State.isActive,idle] at active
    contradiction
  · simp only [Function.update_self]
    exact guarded.inv.step shared.rep guarded.inTime read
  · simpa [ReaderInfo.setPosition] using bpos
  · simpa using bpos
  · simpa using order
  · dsimp only
    omega
  · dsimp only
    omega
  · intro result done
    simp only [Function.update_self] at done
    exact coop.ends read done

theorem Cooperates.step (coop : Cooperates size s) (waits : waits size s action = true)
    (stepped : next size s action = some t) : Cooperates size t := by
  obtain ⟨pending,shared⟩ := id coop.shared
  cases action with
  | begin self data => exact coop.begin waits stepped
  | check => exact coop.check stepped
  | answer answer => exact coop.answer waits stepped
  | store => exact coop.store stepped
  | activate i => exact coop.activate stepped
  | deactivate i => exact coop.deactivate stepped
  | call i => exact coop.call stepped
  | read i => exact coop.read stepped
  | finish =>
    obtain ⟨w,finished,rfl⟩ := Option.map_eq_some_iff.mp stepped
    have kept := shared.finish finished
    obtain ⟨_,running,rfl⟩ := Shared.finish_eq finished
    refine coop.leave ⟨_,kept⟩ rfl rfl ?_
    rw [Option.eq_none_iff_forall_not_mem]
    rintro ⟨check,data⟩ checking
    obtain ⟨legal,ends⟩ := coop.checking check data checking
    have small := sizeOf_appended_lt s.shared.ledger.free legal
    simp only [Shared.ahead,running,Ledger.run_nil] at ends
    omega
  | die =>
    obtain ⟨w,died,rfl⟩ := Option.map_eq_some_iff.mp stepped
    have kept := shared.die died
    obtain ⟨_,_,_,rfl⟩ := Shared.die_eq died
    exact coop.leave ⟨_,kept⟩ rfl rfl rfl

theorem Cooperates.start (initial : (sys size).init s) : Cooperates size s := by
  obtain ⟨⟨rb,config,fresh⟩,check,covers,idle⟩ := initial
  have bounds := size.bounds
  refine ⟨⟨[],?_⟩,covers,?_,?_,?_,fun i _ => (idle i).2,fun i active => ?_⟩
  · rw [fresh]
    exact Shared.fresh_inv config
  · rw [fresh]
    simp only [Shared.ahead,Shared.fresh]
    omega
  · rw [fresh]
    simp [Shared.ahead,Shared.fresh]
  · intro pc data same
    rw [check] at same
    contradiction
  · rw [(idle i).1] at active
    contradiction

theorem reachable_cooperates
    (reached : Reachable ((sys size).restrict (fun s action => waits size s action = true)) s) :
    Cooperates size s := by
  apply reached.invariant (Cooperates size)
  · intro s initial
    exact .start initial
  · rintro s action t coop ⟨waits,stepped⟩
    exact coop.step waits stepped

theorem seen_allowed {first last : State} {shown : List (Label Nat (List UInt8))}
    (seen : Seen ((sys size).restrict (fun s action => waits size s action = true)) view first shown last)
    (reached : Reachable ((sys size).restrict (fun s action => waits size s action = true)) first) :
    Seen ((sys size).restrict (fun s action => Interleaved.allowed size s action = true)) view first shown last := by
  refine seen.weaken ?_ reached
  intro s action t reached stepped _
  exact (reachable_cooperates reached).allowed action stepped

end

end Interleaved
end Toroni.Rmp
