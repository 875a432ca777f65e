import Toroni.Library.Transition
import Toroni.Rmp.ReaderInfo

/-! The calls that change the table of reader slots, taken by their atomic steps: the store to
`isActive`, and the load, the scan and the compare-exchange of `UpdateActiveRange`. -/
namespace Toroni.Rmp.ActiveRange
open Transition Traits

inductive Call
  | alloc
  | activate
  | deactivate
  | free
  deriving DecidableEq

/-- Where a process stands in its call on slot `i`. A scan has read the slots below `j`. `stale`
is a history variable: an `Activate` of a slot that the scan had passed has returned since. -/
inductive Pc
  | idle
  | trying (i : Nat)
  | storePosition (i : Nat) (pos : Position)
  | storeActive (call : Call) (i : Nat)
  | load (call : Call) (i : Nat)
  | scan (call : Call) (i : Nat) (old : BitVec 32) (j : Nat) (range : Nat × Nat) (stale : Bool)
  | unlock (i : Nat)
  deriving DecidableEq

def Pc.slot : Pc → Option Nat
  | .idle | .trying _ => none
  | .storePosition i _ | .storeActive _ i | .load _ i | .scan _ i _ _ _ _ | .unlock i => some i

def Pc.outdate (i : Nat) : Pc → Pc
  | .scan call k old j range stale => .scan call k old j range (stale || decide (i < j))
  | pc => pc

/-- `activated` is a history variable: the slots whose `Activate` has returned and whose
`Deactivate` or `Free` has not started since. -/
structure State where
  ri : ReaderInfo
  pc : Owner → Pc
  activated : Nat → Bool

def State.slots (s : State) : Nat := s.ri.configMaxReaders.toNat

def State.isActive (s : State) (i : Nat) : Bool := (s.ri.info i).isActive

def State.at (s : State) (p : Owner) (pc : Pc) : State := { s with pc := Function.update s.pc p pc }

inductive Action
  | alloc (p : Owner)
  | activate (p : Owner) (i : Nat) (pos : Position)
  | deactivate (p : Owner) (i : Nat)
  | free (p : Owner) (i : Nat)
  | step (p : Owner) (spurious : Bool)

def State.finish (s : State) (p : Owner) (i : Nat) : Call → State
  | .alloc | .deactivate => s.at p .idle
  | .activate => { s with pc := Function.update (fun q => (s.pc q).outdate i) p .idle
                          activated := Function.update s.activated i true }
  | .free => s.at p (.unlock i)

/-- The next atomic step of a process. A compare-exchange may fail spuriously. -/
def step (s : State) (p : Owner) (spurious : Bool) : Option State :=
  match s.pc p with
  | .idle => none
  | .trying i =>
    if i < s.slots then
      match (s.ri.info i).lock.tryLock p with
      | some lock => some ({ s with ri := s.ri.setLock i lock }.at p (.storeActive .alloc i))
      | none => some (s.at p (.trying (i + 1)))
    else some (s.at p .idle)
  | .storePosition i pos =>
    some ({ s with ri := s.ri.setPosition i pos }.at p (.storeActive .activate i))
  | .storeActive call i =>
    some ({ s with ri := s.ri.setActive i (call == Call.activate) }.at p (.load call i))
  | .load call i => some (s.at p (.scan call i s.ri.readersMinMax 0 (s.slots,0) false))
  | .scan call i old j range stale =>
    if j < s.slots then
      some (s.at p (.scan call i old (j + 1) (scanSlot range j (s.isActive j)) stale))
    else if s.ri.readersMinMax = old ∧ spurious = false then
      some ({ s with ri := { s.ri with readersMinMax := packRange range } }.finish p i call)
    else some (s.at p (.load call i))
  | .unlock i => some ({ s with ri := s.ri.setLock i (s.ri.info i).lock.unlock }.at p .idle)

def next (s : State) : Action → Option State
  | .alloc p => if s.pc p = .idle then some (s.at p (.trying 0)) else none
  | .activate p i pos =>
    if s.pc p = .idle ∧ i < s.slots ∧ (s.ri.info i).lock = .locked p then
      some (s.at p (.storePosition i pos))
    else none
  | .deactivate p i =>
    if s.pc p = .idle ∧ i < s.slots ∧ (s.ri.info i).lock = .locked p then
      some ({ s with activated := Function.update s.activated i false }.at p (.storeActive .deactivate i))
    else none
  | .free p i =>
    if s.pc p = .idle ∧ i < s.slots ∧ (s.ri.info i).lock = .locked p then
      some ({ s with activated := Function.update s.activated i false }.at p (.storeActive .free i))
    else none
  | .step p spurious => step s p spurious

def start (configMaxReaders : BitVec 16) : State :=
  ⟨ReaderInfo.create configMaxReaders,fun _ => .idle,fun _ => false⟩

def sys (configMaxReaders : BitVec 16) : System State Action :=
  .ofNext (fun s => s = start configMaxReaders) next

/-- No compare-exchange succeeds after a stale scan. -/
def allowed (s : State) : Action → Bool
  | .step p spurious =>
    match s.pc p with
    | .scan _ _ old j _ stale =>
      !stale || decide (j < s.slots) || decide (s.ri.readersMinMax ≠ old) || spurious
    | _ => true
  | _ => true

/-- Every slot whose `Activate` has returned lies in the range, and every active slot does while
no call is in progress. -/
def Visible (s : State) : Prop :=
  (∀ i, s.activated i = true → s.ri.getActiveRange.1 ≤ i ∧ i < s.ri.getActiveRange.2) ∧
    ((∀ p, s.pc p = .idle) → s.ri.Covers)

def Owns (s : State) (p : Owner) (i : Nat) : Prop := i < s.slots ∧ (s.ri.info i).lock = .locked p

def Ends (s : State) (call : Call) (i : Nat) : Prop := call ≠ .activate → s.activated i = false

def Sound (s : State) (p : Owner) : Pc → Prop
  | .idle | .trying _ => True
  | .storePosition i _ => Owns s p i
  | .storeActive call i => Owns s p i ∧ Ends s call i
  | .load call i => Owns s p i ∧ Ends s call i ∧ s.isActive i = (call == Call.activate)
  | .scan call i _ j range stale =>
    (Owns s p i ∧ Ends s call i ∧ s.isActive i = (call == Call.activate)) ∧
      (j ≤ s.slots ∧ range.1 ≤ s.slots ∧ (range.2 = 0 ∨ range.2 < s.slots)) ∧
      ∀ k < j, (stale = false ∧ s.activated k = true ∨ call = .activate ∧ k = i) →
        range.1 ≤ k ∧ k ≤ range.2
  | .unlock i => Owns s p i ∧ s.activated i = false ∧ s.isActive i = false

structure Inv (s : State) : Prop where
  sound : ∀ p, Sound s p (s.pc p)
  active : ∀ i, s.activated i = true → i < s.slots ∧ s.isActive i = true ∧ ∃ p, (s.ri.info i).lock = .locked p
  covers : ∀ i, s.activated i = true → s.ri.getActiveRange.1 ≤ i ∧ i < s.ri.getActiveRange.2
  called : ∀ i, s.isActive i = true → s.activated i = true ∨ ∃ p, (s.pc p).slot = some i

section
variable {s t : State} {p q : Owner} {i : Nat} {pc : Pc} {call : Call} {action : Action}
  {spurious : Bool}

@[simp] theorem Pc.slot_outdate (pc : Pc) (i : Nat) : (pc.outdate i).slot = pc.slot := by
  cases pc <;> rfl

theorem Sound.owns (sound : Sound s p pc) (slot : pc.slot = some i) : Owns s p i := by
  cases pc with
  | idle | trying => contradiction
  | storePosition => exact Option.some.inj slot ▸ sound
  | storeActive | load | unlock => exact Option.some.inj slot ▸ sound.1
  | scan => exact Option.some.inj slot ▸ sound.1.1

theorem Owns.unique (owns : Owns s p i) (other : Owns s q i) : q = p := by
  exact RobustProcMutex.locked.inj (other.2.symm.trans owns.2)

structure Touches (s t : State) (p : Owner) (i : Nat) : Prop where
  slots : t.slots = s.slots
  others : ∀ k, k ≠ i → t.ri.info k = s.ri.info k ∧ t.activated k = s.activated k
  pcs : ∀ q, q ≠ p → t.pc q = s.pc q ∧ (t.activated i = true → s.activated i = true) ∨
    t.pc q = (s.pc q).outdate i
  slot : (s.pc p).slot = none ∨ (s.pc p).slot = some i

/-- What a process knows is not disturbed by a step on another slot. -/
theorem Sound.other (sound : Sound s q (s.pc q)) (apart : (s.pc q).slot ≠ some i) (away : q ≠ p)
    (touches : Touches s t p i) : Sound t q (t.pc q) := by
  have owns {k : Nat} (differs : k ≠ i) (owns : Owns s q k) : Owns t q k :=
    ⟨touches.slots ▸ owns.1,by rw [(touches.others k differs).1]; exact owns.2⟩
  have ends {k : Nat} {call : Call} (differs : k ≠ i) (ends : Ends s call k) : Ends t call k := by
    intro other
    rw [(touches.others k differs).2]
    exact ends other
  have active {k : Nat} (differs : k ≠ i) : t.isActive k = s.isActive k := by
    rw [State.isActive,(touches.others k differs).1,State.isActive]
  have same : t.pc q = s.pc q ∨ t.pc q = (s.pc q).outdate i := (touches.pcs q away).imp_left And.left
  cases pc : s.pc q with
  | idle | trying =>
    rw [pc] at same
    rcases same with same | same <;> rw [same] <;> trivial
  | storePosition k pos =>
    rw [pc] at same sound apart
    have differs : k ≠ i := fun eq => apart (by rw [eq]; rfl)
    have still : Sound t q (.storePosition k pos) := owns differs sound
    rcases same with same | same <;> rw [same] <;> exact still
  | storeActive call k =>
    rw [pc] at same sound apart
    have differs : k ≠ i := fun eq => apart (by rw [eq]; rfl)
    have still : Sound t q (.storeActive call k) := ⟨owns differs sound.1,ends differs sound.2⟩
    rcases same with same | same <;> rw [same] <;> exact still
  | load call k =>
    rw [pc] at same sound apart
    have differs : k ≠ i := fun eq => apart (by rw [eq]; rfl)
    have still : Sound t q (.load call k) :=
      ⟨owns differs sound.1,ends differs sound.2.1,(active differs).trans sound.2.2⟩
    rcases same with same | same <;> rw [same] <;> exact still
  | scan call k old j range stale =>
    rw [pc] at sound apart
    have differs : k ≠ i := fun eq => apart (by rw [eq]; rfl)
    obtain ⟨own,bounds,read⟩ := sound
    have still : (Owns t q k ∧ Ends t call k ∧ t.isActive k = (call == Call.activate)) ∧
        (j ≤ t.slots ∧ range.1 ≤ t.slots ∧ (range.2 = 0 ∨ range.2 < t.slots)) :=
      ⟨⟨owns differs own.1,ends differs own.2.1,(active differs).trans own.2.2⟩,
        touches.slots.symm ▸ bounds⟩
    rcases touches.pcs q away with ⟨same,fewer⟩ | outdated
    · rw [same,pc]
      refine ⟨still.1,still.2,fun n below found => read n below (found.imp_left ?_)⟩
      rintro ⟨fresh,activated⟩
      by_cases eq : n = i
      · exact ⟨fresh,eq ▸ fewer (eq ▸ activated)⟩
      · exact ⟨fresh,(touches.others n eq).2 ▸ activated⟩
    · rw [outdated,pc]
      refine ⟨still.1,still.2,fun n below found => read n below (found.imp_left ?_)⟩
      rintro ⟨fresh,activated⟩
      simp only [Bool.or_eq_false_iff,decide_eq_false_iff_not] at fresh
      have eq : n ≠ i := fun eq => fresh.2 (eq ▸ below)
      exact ⟨fresh.1,(touches.others n eq).2 ▸ activated⟩
  | unlock k =>
    rw [pc] at same sound apart
    have differs : k ≠ i := fun eq => apart (by rw [eq]; rfl)
    have still : Sound t q (.unlock k) :=
      ⟨owns differs sound.1,(touches.others k differs).2.trans sound.2.1,(active differs).trans sound.2.2⟩
    rcases same with same | same <;> rw [same] <;> exact still

theorem Inv.touch (inv : Inv s) (touches : Touches s t p i) (alone : ∀ q, Owns s q i → q = p)
    (own : Sound t p (t.pc p))
    (active : t.activated i = true →
      i < t.slots ∧ t.isActive i = true ∧ ∃ p, (t.ri.info i).lock = .locked p)
    (covers : ∀ k, t.activated k = true → t.ri.getActiveRange.1 ≤ k ∧ k < t.ri.getActiveRange.2)
    (called : t.isActive i = true → t.activated i = true ∨ ∃ q, (t.pc q).slot = some i) : Inv t where
  sound q := by
    by_cases same : q = p
    · exact same ▸ own
    · exact (inv.sound q).other (fun slot => same (alone q ((inv.sound q).owns slot))) same touches
  active k activated := by
    by_cases same : k = i
    · exact same ▸ active (same ▸ activated)
    · obtain ⟨info,kept⟩ := touches.others k same
      rw [State.isActive,info,touches.slots]
      exact inv.active k (kept ▸ activated)
  covers := covers
  called k isActive := by
    by_cases same : k = i
    · exact same ▸ called (same ▸ isActive)
    · obtain ⟨info,kept⟩ := touches.others k same
      rw [State.isActive,info] at isActive
      rw [kept]
      refine (inv.called k isActive).imp_right (fun ⟨q,slot⟩ => ⟨q,?_⟩)
      have away : q ≠ p := by
        rintro rfl
        rcases touches.slot with none | some
        · rw [none] at slot
          contradiction
        · rw [some] at slot
          exact same (Option.some.inj slot).symm
      rcases touches.pcs q away with ⟨kept,_⟩ | outdated
      · rw [kept,slot]
      · rw [outdated,Pc.slot_outdate,slot]

@[simp] theorem sound_at (other : Pc) : Sound (s.at p other) q pc ↔ Sound s q pc := by
  cases pc <;> exact Iff.rfl

@[simp] theorem State.at_pc (pc : Pc) : (s.at p pc).pc p = pc := Function.update_self ..

theorem State.at_pc_of_ne (away : q ≠ p) (pc : Pc) : (s.at p pc).pc q = s.pc q := by
  exact Function.update_of_ne away ..

theorem Inv.moved (inv : Inv s) (sound : Sound s p pc)
    (slot : ∀ i, (s.pc p).slot = some i → pc.slot = some i ∨ s.isActive i = false) : Inv (s.at p pc) where
  sound q := by
    by_cases same : q = p
    · subst same
      rw [State.at_pc,sound_at]
      exact sound
    · rw [sound_at,State.at_pc_of_ne same]
      exact inv.sound q
  active := inv.active
  covers := inv.covers
  called i isActive := by
    refine (inv.called i isActive).imp_right (fun ⟨q,working⟩ => ?_)
    by_cases same : q = p
    · subst same
      refine ⟨q,?_⟩
      rcases slot i working with still | idle
      · simpa [State.at] using still
      · rw [show (s.at q pc).isActive i = s.isActive i from rfl,idle] at isActive
        contradiction
    · exact ⟨q,by simpa [State.at,same] using working⟩

theorem Inv.touch_at {r : ReaderInfo} {a : Nat → Bool} (inv : Inv s)
    (slots : r.configMaxReaders = s.ri.configMaxReaders) (range : r.readersMinMax = s.ri.readersMinMax)
    (others : ∀ k, k ≠ i → r.info k = s.ri.info k) (kept : ∀ k, k ≠ i → a k = s.activated k)
    (fewer : a i = true → s.activated i = true) (alone : ∀ q, Owns s q i → q = p)
    (slot : (s.pc p).slot = none ∨ (s.pc p).slot = some i) (own : Sound ⟨r,s.pc,a⟩ p pc)
    (locked : a i = true → (r.info i).isActive = true ∧ ∃ p, (r.info i).lock = .locked p)
    (called : (r.info i).isActive = true → a i = true ∨ pc.slot = some i) :
    Inv (State.at ⟨r,s.pc,a⟩ p pc) := by
  have activated (k : Nat) (now : a k = true) : s.activated k = true := by
    by_cases same : k = i
    · exact same ▸ fewer (same ▸ now)
    · exact kept k same ▸ now
  refine inv.touch (p := p) (i := i) ⟨congrArg BitVec.toNat slots,fun k away => ⟨others k away,kept k away⟩,?_,slot⟩
    alone ?_ ?_ ?_ ?_
  · intro q away
    exact Or.inl ⟨State.at_pc_of_ne away pc,fewer⟩
  · rw [State.at_pc,sound_at]
    exact own
  · intro now
    have inside := (inv.active i (fewer now)).1
    exact ⟨by rw [State.slots] at *; exact slots.symm ▸ inside,locked now⟩
  · intro k now
    have place := inv.covers k (activated k now)
    rw [ReaderInfo.getActiveRange] at place ⊢
    exact range.symm ▸ place
  · intro isActive
    refine (called isActive).imp_right (fun working => ⟨p,?_⟩)
    rw [State.at_pc]
    exact working

/-- The scan has been published: nothing that is activated is outside of it. -/
theorem Inv.published {range : Nat × Nat} (inv : Inv s)
    (bounds : range.1 ≤ s.slots ∧ (range.2 = 0 ∨ range.2 < s.slots))
    (found : ∀ k, s.activated k = true → range.1 ≤ k ∧ k ≤ range.2) :
    Inv { s with ri := { s.ri with readersMinMax := packRange range } } where
  sound p := by
    have sound := inv.sound p
    cases pc : s.pc p <;> rw [pc] at sound <;> exact sound
  active := inv.active
  covers k activated := by
    have small : s.slots < 2^16 := s.ri.configMaxReaders.isLt
    have place := found k activated
    rw [ReaderInfo.getActiveRange,unpackRange_packRange (by omega) (by omega)]
    exact ⟨place.1,Nat.lt_succ_of_le place.2⟩
  called := inv.called

theorem Inv.trying (inv : Inv s) (pc : s.pc p = .trying i) (stepped : step s p spurious = some t) :
    Inv t := by
  simp only [step,pc] at stepped
  split at stepped
  next inside =>
    split at stepped
    next lock taken =>
      obtain rfl := Option.some.inj stepped
      have unlocked (q : Owner) : (s.ri.info i).lock ≠ .locked q := by
        intro locked
        rw [locked] at taken
        contradiction
      have idle : s.activated i = false := by
        rw [Bool.eq_false_iff]
        intro activated
        obtain ⟨_,_,q,locked⟩ := inv.active i activated
        exact unlocked q locked
      have mine : lock = .locked p := by
        cases held : (s.ri.info i).lock with
        | locked q => exact (unlocked q held).elim
        | unlocked | ownerDead =>
          rw [held] at taken
          exact (Option.some.inj taken).symm
      refine inv.touch_at rfl rfl (fun k away => ?_) (fun _ _ => rfl) id
        (fun q owns => (unlocked q owns.2).elim) (Or.inl (by rw [pc]; rfl)) ⟨⟨inside,?_⟩,fun _ => idle⟩
        (fun activated => ?_) (fun _ => Or.inr rfl)
      · simp [ReaderInfo.setLock,away]
      · simp [ReaderInfo.setLock,mine]
      · rw [idle] at activated
        contradiction
    next =>
      exact Option.some.inj stepped ▸ inv.moved trivial (fun k slot => by rw [pc] at slot; contradiction)
  next =>
    exact Option.some.inj stepped ▸ inv.moved trivial (fun k slot => by rw [pc] at slot; contradiction)

theorem Inv.storePosition {pos : Position} (inv : Inv s) (pc : s.pc p = .storePosition i pos)
    (stepped : step s p spurious = some t) : Inv t := by
  simp only [step,pc] at stepped
  obtain rfl := Option.some.inj stepped
  have sound := inv.sound p
  rw [pc] at sound
  have info : ((s.ri.setPosition i pos).info i).isActive = s.isActive i ∧
      ((s.ri.setPosition i pos).info i).lock = (s.ri.info i).lock := by
    simp [ReaderInfo.setPosition,State.isActive]
  refine inv.touch_at rfl rfl (fun k away => ?_) (fun _ _ => rfl) id (fun q owns => sound.unique owns)
    (Or.inr (by rw [pc]; rfl)) ⟨⟨sound.1,info.2.trans sound.2⟩,fun other => absurd rfl other⟩
    (fun activated => ?_) (fun _ => Or.inr rfl)
  · simp [ReaderInfo.setPosition,away]
  · rw [info.1,info.2]
    exact (inv.active i activated).2

theorem Inv.storeActive (inv : Inv s) (pc : s.pc p = .storeActive call i)
    (stepped : step s p spurious = some t) : Inv t := by
  simp only [step,pc] at stepped
  obtain rfl := Option.some.inj stepped
  have sound := inv.sound p
  rw [pc] at sound
  have info : ((s.ri.setActive i (call == Call.activate)).info i).isActive = (call == Call.activate) ∧
      ((s.ri.setActive i (call == Call.activate)).info i).lock = (s.ri.info i).lock := by
    simp [ReaderInfo.setActive]
  refine inv.touch_at rfl rfl (fun k away => ?_) (fun _ _ => rfl) id (fun q owns => sound.1.unique owns)
    (Or.inr (by rw [pc]; rfl)) ⟨⟨sound.1.1,info.2.trans sound.1.2⟩,sound.2,info.1⟩
    (fun activated => ?_) (fun _ => Or.inr rfl)
  · simp [ReaderInfo.setActive,away]
  · rw [info.1,info.2]
    refine ⟨?_,(inv.active i activated).2.2⟩
    by_contra other
    have ended := sound.2 (by simpa using other)
    rw [ended] at activated
    contradiction

theorem Inv.unlock (inv : Inv s) (pc : s.pc p = .unlock i) (stepped : step s p spurious = some t) :
    Inv t := by
  simp only [step,pc] at stepped
  obtain rfl := Option.some.inj stepped
  have sound := inv.sound p
  rw [pc] at sound
  have info : ((s.ri.setLock i (s.ri.info i).lock.unlock).info i).isActive = s.isActive i := by
    simp [ReaderInfo.setLock,State.isActive]
  refine inv.touch_at rfl rfl (fun k away => ?_) (fun _ _ => rfl) id (fun q owns => sound.1.unique owns)
    (Or.inr (by rw [pc]; rfl)) trivial (fun activated => ?_) (fun isActive => ?_)
  · simp [ReaderInfo.setLock,away]
  · rw [sound.2.1] at activated
    contradiction
  · rw [info,sound.2.2] at isActive
    contradiction

theorem Inv.load (inv : Inv s) (pc : s.pc p = .load call i) (stepped : step s p spurious = some t) :
    Inv t := by
  simp only [step,pc] at stepped
  have sound := inv.sound p
  rw [pc] at sound
  refine Option.some.inj stepped ▸ inv.moved ⟨sound,⟨Nat.zero_le _,le_rfl,Or.inl rfl⟩,?_⟩ ?_
  · intro k below
    contradiction
  · intro k slot
    rw [pc] at slot
    exact Or.inl slot

theorem Inv.scan {old : BitVec 32} {j : Nat} {range : Nat × Nat} {stale : Bool} (inv : Inv s)
    (pc : s.pc p = .scan call i old j range stale) (more : j < s.slots)
    (stepped : step s p spurious = some t) : Inv t := by
  simp only [step,pc,if_pos more] at stepped
  have sound := inv.sound p
  rw [pc] at sound
  obtain ⟨own,⟨_,bounds⟩,found⟩ := sound
  refine Option.some.inj stepped ▸ inv.moved ⟨own,⟨more,scanSlot_bounds more bounds⟩,?_⟩ ?_
  · intro k below read
    by_cases last : k = j
    · subst last
      have isActive : s.isActive k = true := by
        rcases read with ⟨_,activated⟩ | ⟨rfl,rfl⟩
        · exact (inv.active k activated).2.1
        · exact own.2.2
      rw [isActive]
      exact scanSlot_active _ _
    · have mono := scanSlot_mono range j (s.isActive j)
      have place := found k (by omega) read
      omega
  · intro k slot
    rw [pc] at slot
    exact Or.inl slot

theorem Inv.activated {old : BitVec 32} {j : Nat} {range : Nat × Nat} {stale : Bool} (inv : Inv s)
    (pc : s.pc p = .scan .activate i old j range stale)
    (inside : s.ri.getActiveRange.1 ≤ i ∧ i < s.ri.getActiveRange.2) :
    Inv (s.finish p i .activate) := by
  have sound := inv.sound p
  rw [pc] at sound
  obtain ⟨⟨owns,_,isActive⟩,_,_⟩ := sound
  refine inv.touch (p := p) (i := i) ⟨rfl,fun k away => ⟨rfl,Function.update_of_ne away ..⟩,?_,
    Or.inr (by rw [pc]; rfl)⟩ (fun q other => owns.unique other) ?_ ?_ ?_ ?_
  · intro q away
    exact Or.inr (Function.update_of_ne away _ (fun q => (s.pc q).outdate i))
  · simp [State.finish,Sound]
  · intro _
    exact ⟨owns.1,isActive,p,owns.2⟩
  · intro k activated
    by_cases same : k = i
    · exact same ▸ inside
    · exact inv.covers k (by rw [← activated]; exact (Function.update_of_ne same ..).symm)
  · intro _
    exact Or.inl (Function.update_self ..)

theorem Inv.exchange {old : BitVec 32} {j : Nat} {range : Nat × Nat} {stale : Bool} (inv : Inv s)
    (allowed : allowed s (.step p spurious) = true)
    (pc : s.pc p = .scan call i old j range stale) (all : ¬ j < s.slots)
    (stepped : step s p spurious = some t) : Inv t := by
  simp only [step,pc,if_neg all] at stepped
  have sound := inv.sound p
  rw [pc] at sound
  obtain ⟨own,⟨_,bounds⟩,found⟩ := sound
  split at stepped
  next swapped =>
    obtain rfl := Option.some.inj stepped
    have fresh : stale = false := by
      simpa [ActiveRange.allowed,pc,all,swapped.1,swapped.2] using allowed
    have visited (k : Nat) (activated : s.activated k = true) : k < j := by
      have := (inv.active k activated).1
      omega
    have published := inv.published bounds
      (fun k activated => found k (visited k activated) (Or.inl ⟨fresh,activated⟩))
    cases call with
    | alloc | deactivate =>
      refine published.moved trivial (fun k slot => Or.inr ?_)
      rw [show (s.pc p).slot = some i by rw [pc]; rfl] at slot
      exact Option.some.inj slot ▸ own.2.2
    | free =>
      refine published.moved ⟨own.1,own.2.1 (by decide),own.2.2⟩ (fun k slot => Or.inl ?_)
      rw [show (s.pc p).slot = some i by rw [pc]; rfl] at slot
      exact slot
    | activate =>
      refine published.activated pc ?_
      have small : s.slots < 2^16 := s.ri.configMaxReaders.isLt
      have place := found i (by have := own.1.1; omega) (Or.inr ⟨rfl,rfl⟩)
      rw [ReaderInfo.getActiveRange,unpackRange_packRange (by omega) (by omega)]
      exact ⟨place.1,Nat.lt_succ_of_le place.2⟩
  next =>
    refine Option.some.inj stepped ▸ inv.moved own (fun k slot => ?_)
    rw [pc] at slot
    exact Or.inl slot

theorem Inv.step (inv : Inv s) (allowed : allowed s (.step p spurious) = true)
    (stepped : step s p spurious = some t) : Inv t := by
  cases pc : s.pc p with
  | idle =>
    simp only [ActiveRange.step,pc] at stepped
    contradiction
  | trying i => exact inv.trying pc stepped
  | storePosition i pos => exact inv.storePosition pc stepped
  | storeActive call i => exact inv.storeActive pc stepped
  | load call i => exact inv.load pc stepped
  | scan call i old j range stale =>
    by_cases more : j < s.slots
    · exact inv.scan pc more stepped
    · exact inv.exchange allowed pc more stepped
  | unlock i => exact inv.unlock pc stepped

theorem Inv.ended (inv : Inv s) (call : Call)
    (ready : s.pc p = .idle ∧ i < s.slots ∧ (s.ri.info i).lock = .locked p) :
    Inv ({ s with activated := Function.update s.activated i false }.at p (.storeActive call i)) := by
  have owns : Owns s p i := ready.2
  refine inv.touch_at rfl rfl (fun _ _ => rfl) (fun k away => Function.update_of_ne away ..)
    (fun now => ?_) (fun q other => owns.unique other) (Or.inl (by rw [ready.1]; rfl))
    ⟨owns,fun _ => Function.update_self ..⟩ (fun now => ?_) (fun _ => Or.inr rfl)
  · rw [Function.update_self] at now
    contradiction
  · rw [Function.update_self] at now
    contradiction

theorem Inv.next (inv : Inv s) (allowed : allowed s action = true)
    (stepped : next s action = some t) : Inv t := by
  cases action with
  | alloc p =>
    simp only [ActiveRange.next] at stepped
    split at stepped
    next idle =>
      exact Option.some.inj stepped ▸ inv.moved trivial (fun k slot => by rw [idle] at slot; contradiction)
    next => contradiction
  | activate p i pos =>
    simp only [ActiveRange.next] at stepped
    split at stepped
    next ready =>
      exact Option.some.inj stepped ▸ inv.moved (show Sound s p (.storePosition i pos) from ready.2)
        (fun k slot => by rw [ready.1] at slot; contradiction)
    next => contradiction
  | deactivate p i =>
    simp only [ActiveRange.next] at stepped
    split at stepped
    next ready => exact Option.some.inj stepped ▸ inv.ended .deactivate ready
    next => contradiction
  | free p i =>
    simp only [ActiveRange.next] at stepped
    split at stepped
    next ready => exact Option.some.inj stepped ▸ inv.ended .free ready
    next => contradiction
  | step p spurious => exact inv.step allowed stepped

/-- In every run in which no compare-exchange succeeds after a stale scan, for every number of
slots, activated slots are visible to writers. -/
theorem activated_slots_visible {configMaxReaders : BitVec 16}
    (reached : Reachable ((sys configMaxReaders).restrict (fun s action => allowed s action = true)) s) :
    Visible s := by
  have inv : Inv s := by
    refine reached.invariant Inv ?_ ?_
    · rintro s rfl
      exact ⟨fun _ => trivial,fun _ activated => by contradiction,fun _ activated => by contradiction,
        fun _ isActive => by contradiction⟩
    · rintro s action t inv ⟨allowed,stepped⟩
      exact inv.next allowed stepped
  refine ⟨inv.covers,fun idle i _ isActive => inv.covers i ?_⟩
  rcases inv.called i isActive with activated | ⟨q,slot⟩
  · exact activated
  · rw [idle q] at slot
    contradiction

end

def steps (p : Owner) (n : Nat) : List Action := List.replicate n (.step p false)

/-- A third process scans for its `Alloc` while the owner of slot 1 deactivates it and activates it
again. It finds the range changed twice, the second time behind a scan that has missed the slot. -/
theorem activated_slots_visible_rescanned :
    ∃ s : State, s.activated 1 = true ∧ s.ri.getActiveRange = (0,2) ∧ s.pc 2 = .idle ∧ Visible s := by
  obtain ⟨s,reached,seen⟩ := exec_reaches (sys 3) allowed next (fun _ _ _ taken => taken) rfl
    (.alloc 0 :: steps 0 7 ++ .activate 0 0 0 :: steps 0 7 ++ .alloc 1 :: steps 1 8 ++
      .activate 1 1 0 :: steps 1 7 ++ .alloc 2 :: steps 2 6 ++ .deactivate 1 1 :: steps 1 1 ++
      steps 2 2 ++ steps 1 5 ++ steps 2 4 ++ .activate 1 1 0 :: steps 1 7 ++ steps 2 7)
    (fun s => (s.activated 1,s.ri.getActiveRange,s.pc 2)) (true,(0,2),.idle) (by decide +kernel)
  simp only [Prod.mk.injEq] at seen
  obtain ⟨activated,range,idle⟩ := seen
  exact ⟨s,activated,range,idle,activated_slots_visible reached⟩

/-- While a third process scans for its `Alloc`, the owner of slot 1 deactivates it and activates
it again. The range is what it was, and the scan that has missed the slot is published. -/
theorem activated_slot_hidden : ∃ s, Reachable (sys 3) s ∧ s.activated 1 = true ∧
    s.ri.getActiveRange = (0,1) ∧ ¬ Visible s := by
  obtain ⟨s,reached,seen⟩ := exec_reaches (sys 3) (fun _ _ => true) next (fun _ _ _ taken => taken) rfl
    (.alloc 0 :: steps 0 7 ++ .activate 0 0 0 :: steps 0 7 ++ .alloc 1 :: steps 1 8 ++
      .activate 1 1 0 :: steps 1 7 ++ .alloc 2 :: steps 2 6 ++ .deactivate 1 1 :: steps 1 1 ++
      steps 2 2 ++ steps 1 5 ++ .activate 1 1 0 :: steps 1 7 ++ steps 2 1)
    (fun s => (s.activated 1,s.ri.getActiveRange)) (true,(0,1)) (by decide +kernel)
  obtain ⟨activated,range⟩ := Prod.mk.inj seen
  refine ⟨s,reached.unrestrict,activated,range,?_⟩
  intro visible
  have inside := (visible.1 1 activated).2
  rw [range] at inside
  exact absurd inside (by decide)

end Toroni.Rmp.ActiveRange
