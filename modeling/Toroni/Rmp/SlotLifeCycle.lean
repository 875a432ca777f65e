import Mathlib.Order.Bounds.Defs
import Toroni.Library.Transition
import Toroni.Rmp.ReaderInfo

/-! The life of the reader slots over sequences of whole calls and deaths of owners: who holds a
slot, what `Alloc` answers, and the range of active slots after every call. -/
namespace Toroni.Rmp
open Traits

namespace ReaderInfo

def ownerDies (ri : ReaderInfo) (p : Owner) : ReaderInfo :=
  { ri with info := fun i => { ri.info i with lock := (ri.info i).lock.ownerDies p } }

def Active (ri : ReaderInfo) : Set Nat :=
  {i | i < ri.configMaxReaders.toNat ∧ (ri.info i).isActive = true}

def RangeExact (ri : ReaderInfo) : Prop :=
  (∃ least greatest, IsLeast ri.Active least ∧ IsGreatest ri.Active greatest ∧
      ri.getActiveRange = (least,greatest + 1)) ∨
    ri.Active = ∅ ∧ ri.getActiveRange.2 ≤ ri.getActiveRange.1

end ReaderInfo

namespace SlotLifeCycle
open Transition

/-- `held` and `dead` are history variables: the slots that `Alloc` has answered to a process and
that it has not freed since, and the processes that have died. -/
structure State where
  ri : ReaderInfo
  held : Owner → Nat → Bool
  dead : Owner → Bool

def State.slots (s : State) : Nat := s.ri.configMaxReaders.toNat

def State.Holds (s : State) (p : Owner) (i : Nat) : Prop := s.dead p = false ∧ s.held p i = true

inductive Action
  | alloc (p : Owner)
  | activate (p : Owner) (readerId : ReaderId) (pos : Position)
  | deactivate (p : Owner) (readerId : ReaderId)
  | free (p : Owner) (readerId : ReaderId)
  | die (p : Owner)

def Action.process : Action → Owner
  | .alloc p | .activate p _ _ | .deactivate p _ | .free p _ | .die p => p

def Action.Inside (slots : Nat) : Action → Prop
  | .activate _ readerId _ | .deactivate _ readerId | .free _ readerId => ∀ i ∈ readerId, i < slots
  | .alloc _ | .die _ => True

instance (slots : Nat) : ∀ action : Action, Decidable (action.Inside slots)
  | .activate _ readerId _ | .deactivate _ readerId | .free _ readerId =>
    inferInstanceAs (Decidable (∀ i ∈ readerId, i < slots))
  | .alloc _ | .die _ => inferInstanceAs (Decidable True)

def mark (held : Owner → Nat → Bool) (p : Owner) (readerId : ReaderId) (value : Bool) : Owner → Nat → Bool :=
  match readerId with
  | none => held
  | some i => Function.update held p (Function.update (held p) i value)

/-- `Unlock` fails for a process that does not own the mutex, and the slot is deactivated then; a
process that its assertion ends dies next. -/
def State.free (s : State) (p : Owner) (readerId : ReaderId) : State :=
  match readerId with
  | none => s
  | some i =>
    if (s.ri.info i).lock = .locked p then
      { s with ri := s.ri.free readerId, held := mark s.held p readerId false }
    else { s with ri := s.ri.deactivate readerId }

def perform (s : State) : Action → State
  | .alloc p => { s with ri := (s.ri.alloc p).2, held := mark s.held p (s.ri.alloc p).1 true }
  | .activate _ readerId pos => { s with ri := s.ri.activate readerId pos }
  | .deactivate _ readerId => { s with ri := s.ri.deactivate readerId }
  | .free p readerId => s.free p readerId
  | .die p => { s with ri := s.ri.ownerDies p, dead := Function.update s.dead p true }

def next (s : State) (action : Action) : Option State :=
  if s.dead action.process = false ∧ action.Inside s.slots then some (perform s action) else none

def start (configMaxReaders : BitVec 16) : State :=
  ⟨ReaderInfo.create configMaxReaders,fun _ _ => false,fun _ => false⟩

def sys (configMaxReaders : BitVec 16) : System State Action :=
  .ofNext (fun s => s = start configMaxReaders) next

structure Lawful (s : State) : Prop where
  exclusive : ∀ i p q, s.Holds p i → s.Holds q i → p = q
  exhausted : ∀ p, (s.ri.alloc p).1 = none ↔ ∀ i < s.slots, ∃ q, s.Holds q i
  granted : ∀ p i, (s.ri.alloc p).1 = some i →
    i < s.slots ∧ (∀ q, ¬ s.Holds q i) ∧ ((s.ri.alloc p).2.info i).isActive = false
  freed : ∀ p i, s.Holds p i → ∀ q, ∃ j ≤ i, ((s.free p (some i)).ri.alloc q).1 = some j ∧
    ((∀ k < i, ∃ o, s.Holds o k) → j = i)
  range : s.ri.RangeExact

structure Inv (s : State) : Prop where
  owner : ∀ p i, s.Holds p i ↔ i < s.slots ∧ (s.ri.info i).lock = .locked p
  range : s.ri.RangeExact

end SlotLifeCycle

theorem scan_limits (active : Nat → Bool) (total n : Nat) (inside : n ≤ total) :
    let range := (List.range n).foldl (fun range i => scanSlot range i (active i)) (total,0)
    (IsLeast {i | i < n ∧ active i = true} range.1 ∧ IsGreatest {i | i < n ∧ active i = true} range.2) ∨
      {i | i < n ∧ active i = true} = ∅ ∧ range = (total,0) := by
  induction n with
  | zero =>
    right
    refine ⟨?_,rfl⟩
    ext i
    exact iff_of_false (fun member => Nat.not_lt_zero i member.1) id
  | succ n ih =>
    simp only [List.range_succ,List.foldl_append,List.foldl_cons,List.foldl_nil]
    have known := ih (by omega)
    generalize (List.range n).foldl (fun range i => scanSlot range i (active i)) (total,0) = range at *
    cases last : active n with
    | false =>
      have same : {i | i < n + 1 ∧ active i = true} = {i | i < n ∧ active i = true} := by
        ext i
        constructor
        · intro ⟨bound,isActive⟩
          refine ⟨?_,isActive⟩
          rcases Nat.lt_succ_iff_lt_or_eq.mp bound with below | rfl
          · exact below
          · rw [last] at isActive
            contradiction
        · intro ⟨bound,isActive⟩
          exact ⟨by omega,isActive⟩
      rw [same]
      exact known
    | true =>
      left
      rcases known with ⟨⟨first,least⟩,⟨final,greatest⟩⟩ | ⟨none,rfl⟩
      · have : scanSlot range n true = (range.1,n) := by
          have low := first.1
          have high := final.1
          simp only [scanSlot,if_true,Prod.mk.injEq]
          exact ⟨if_neg (by omega),if_pos high⟩
        rw [this]
        refine ⟨⟨⟨Nat.lt_succ_of_lt first.1,first.2⟩,?_⟩,⟨Nat.lt_succ_self n,last⟩,?_⟩
        · intro i ⟨bound,isActive⟩
          rcases Nat.lt_succ_iff_lt_or_eq.mp bound with below | rfl
          · exact least ⟨below,isActive⟩
          · exact Nat.le_of_lt first.1
        · intro i ⟨bound,_⟩
          exact Nat.le_of_lt_succ bound
      · have : scanSlot (total,0) n true = (n,n) := by
          simp only [scanSlot,if_true,Prod.mk.injEq]
          exact ⟨if_pos (by omega),by split <;> omega⟩
        rw [this]
        refine ⟨⟨⟨Nat.lt_succ_self n,last⟩,?_⟩,⟨Nat.lt_succ_self n,last⟩,?_⟩
        · intro i ⟨bound,isActive⟩
          rcases Nat.lt_succ_iff_lt_or_eq.mp bound with below | rfl
          · have member : i ∈ {i | i < n ∧ active i = true} := ⟨below,isActive⟩
            rw [none] at member
            contradiction
          · exact le_rfl
        · intro i ⟨bound,_⟩
          exact Nat.le_of_lt_succ bound

namespace ReaderInfo

theorem updateActiveRange_exact (ri : ReaderInfo) (some : 0 < ri.configMaxReaders.toNat) :
    ri.updateActiveRange.RangeExact := by
  have small := ri.configMaxReaders.isLt
  rcases scan_limits (fun i => (ri.info i).isActive) ri.configMaxReaders.toNat
    ri.configMaxReaders.toNat le_rfl with ⟨least,greatest⟩ | ⟨none,unmoved⟩
  · left
    refine ⟨ri.scan.1,ri.scan.2,least,greatest,?_⟩
    have low := least.1.1
    have high := greatest.1.1
    apply unpackRange_packRange
    · exact low.trans small
    · exact lt_of_le_of_lt high small
  · right
    refine ⟨none,?_⟩
    have packed : ri.updateActiveRange.getActiveRange = (ri.configMaxReaders.toNat,1) := by
      have : ri.scan = (ri.configMaxReaders.toNat,0) := unmoved
      rw [getActiveRange,updateActiveRange,this]
      exact unpackRange_packRange small (by simp)
    rw [packed]
    exact some

theorem create_exact (configMaxReaders : BitVec 16) : (create configMaxReaders).RangeExact := by
  right
  constructor
  · ext i
    exact iff_of_false (fun member => Bool.false_ne_true member.2) id
  · simp [getActiveRange,unpackRange,create]

theorem deactivate_exact (ri : ReaderInfo) {i : Nat} (inside : i < ri.configMaxReaders.toNat) :
    (ri.deactivate (some i)).RangeExact := by
  exact updateActiveRange_exact _ (Nat.zero_lt_of_lt inside)

theorem activate_exact (ri : ReaderInfo) {i : Nat} (inside : i < ri.configMaxReaders.toNat)
    (pos : Position) : (ri.activate (some i) pos).RangeExact := by
  exact updateActiveRange_exact _ (Nat.zero_lt_of_lt inside)

/-- The range depends on no mutex. -/
theorem RangeExact.of_same {ri ri' : ReaderInfo} (exact : ri.RangeExact)
    (slots : ri'.configMaxReaders = ri.configMaxReaders) (packed : ri'.readersMinMax = ri.readersMinMax)
    (flags : ∀ i, (ri'.info i).isActive = (ri.info i).isActive) : ri'.RangeExact := by
  have active : ri'.Active = ri.Active := by
    ext i
    simp only [Active,slots,flags]
  have range : ri'.getActiveRange = ri.getActiveRange := congrArg unpackRange packed
  rw [RangeExact,active,range]
  exact exact

theorem lock_deactivate (ri : ReaderInfo) (i j : Nat) :
    ((ri.deactivate (some i)).info j).lock = (ri.info j).lock := by
  simp only [deactivate,updateActiveRange,setActive,Function.update_apply]
  split
  next same => rw [same]
  next => rfl

theorem lock_activate (ri : ReaderInfo) (i j : Nat) (pos : Position) :
    ((ri.activate (some i) pos).info j).lock = (ri.info j).lock := by
  simp only [activate,updateActiveRange,setActive,setPosition,Function.update_apply]
  split
  next same => simp only [same,if_true]
  next => rfl

theorem lock_setLock (ri : ReaderInfo) (i j : Nat) (lock : RobustProcMutex) :
    ((ri.setLock i lock).info j).lock = if j = i then lock else (ri.info j).lock := by
  simp only [setLock,Function.update_apply]
  split <;> rfl

theorem isActive_setLock (ri : ReaderInfo) (i j : Nat) (lock : RobustProcMutex) :
    ((ri.setLock i lock).info j).isActive = (ri.info j).isActive := by
  simp only [setLock,Function.update_apply]
  split
  next same => rw [same]
  next => rfl

theorem alloc_none (ri : ReaderInfo) (p : Owner) :
    (ri.alloc p).1 = none ↔ ∀ i < ri.configMaxReaders.toNat, ∃ q, (ri.info i).lock = .locked q := by
  have busy : (ri.alloc p).1 = none ↔ (List.range ri.configMaxReaders.toNat).find?
      (fun i => ((ri.info i).lock.tryLock p).isSome) = none := by
    unfold alloc
    split
    next found => simp [found]
    next found => simp [found]
  rw [busy,List.find?_eq_none]
  simp only [List.mem_range,RobustProcMutex.tryLock_isSome]
  simp

theorem alloc_some {ri : ReaderInfo} {p : Owner} {i : Nat} (answer : (ri.alloc p).1 = some i) :
    i < ri.configMaxReaders.toNat ∧ (∀ q, (ri.info i).lock ≠ .locked q) ∧
      (∀ j < i, ∃ q, (ri.info j).lock = .locked q) ∧
      (ri.alloc p).2 = (ri.setLock i (.locked p)).deactivate (some i) := by
  unfold alloc at answer ⊢
  split at answer
  next k found =>
    obtain rfl : k = i := Option.some.inj answer
    obtain ⟨free,member,busy⟩ := List.find?_range_eq_some.mp found
    refine ⟨List.mem_range.mp member,(RobustProcMutex.tryLock_isSome _ _).mp free,?_,rfl⟩
    intro j below
    have := busy j below
    simp only [Bool.not_eq_true',← Bool.not_eq_true,RobustProcMutex.tryLock_isSome] at this
    simpa using this
  next => contradiction

end ReaderInfo

namespace SlotLifeCycle
open Transition

section
variable {s : State}

theorem Inv.slot (inv : Inv s) (i : Nat) (inside : i < s.slots) :
    (∃ q, (s.ri.info i).lock = .locked q) ↔ ∃ q, s.Holds q i := by
  constructor
  · intro ⟨q,locked⟩
    exact ⟨q,(inv.owner q i).mpr ⟨inside,locked⟩⟩
  · intro ⟨q,holds⟩
    exact ⟨q,((inv.owner q i).mp holds).2⟩

theorem Inv.exhausted (inv : Inv s) (p : Owner) :
    (s.ri.alloc p).1 = none ↔ ∀ i < s.slots, ∃ q, s.Holds q i := by
  rw [ReaderInfo.alloc_none]
  constructor
  · intro full i inside
    exact (inv.slot i inside).mp (full i inside)
  · intro full i inside
    exact (inv.slot i inside).mpr (full i inside)

theorem Inv.unheld (inv : Inv s) {i : Nat} (free : ∀ q, (s.ri.info i).lock ≠ .locked q) (q : Owner) :
    ¬ s.Holds q i := by
  intro holds
  exact free q ((inv.owner q i).mp holds).2

theorem Inv.granted (inv : Inv s) {p : Owner} {i : Nat} (answer : (s.ri.alloc p).1 = some i) :
    i < s.slots ∧ (∀ q, ¬ s.Holds q i) ∧ ((s.ri.alloc p).2.info i).isActive = false := by
  obtain ⟨inside,free,_,table⟩ := ReaderInfo.alloc_some answer
  refine ⟨inside,inv.unheld free,?_⟩
  rw [table,ReaderInfo.isActive_deactivate,if_pos rfl]

theorem free_lock (s : State) {p : Owner} {i : Nat} (own : (s.ri.info i).lock = .locked p) (j : Nat) :
    ((s.free p (some i)).ri.info j).lock = if j = i then .unlocked else (s.ri.info j).lock := by
  simp only [State.free,own,if_true,ReaderInfo.free,ReaderInfo.lock_setLock,ReaderInfo.lock_deactivate,
    RobustProcMutex.unlock]

theorem free_slots (s : State) (p : Owner) (readerId : ReaderId) :
    (s.free p readerId).slots = s.slots := by
  cases readerId with
  | none => rfl
  | some i =>
    unfold State.free
    dsimp only
    split <;> rfl

theorem Inv.freed (inv : Inv s) {p : Owner} {i : Nat} (holds : s.Holds p i) (q : Owner) :
    ∃ j ≤ i, ((s.free p (some i)).ri.alloc q).1 = some j ∧
      ((∀ k < i, ∃ o, s.Holds o k) → j = i) := by
  obtain ⟨inside,own⟩ := (inv.owner p i).mp holds
  have lock := free_lock s own
  cases answer : ((s.free p (some i)).ri.alloc q).1 with
  | none =>
    have slots : (s.free p (some i)).ri.configMaxReaders.toNat = s.slots := free_slots s p (some i)
    obtain ⟨o,locked⟩ := (ReaderInfo.alloc_none _ q).mp answer i (by omega)
    rw [lock,if_pos rfl] at locked
    contradiction
  | some j =>
    obtain ⟨_,free,busy,_⟩ := ReaderInfo.alloc_some answer
    have below : j ≤ i := by
      apply Nat.le_of_not_lt
      intro above
      obtain ⟨o,locked⟩ := busy i above
      rw [lock,if_pos rfl] at locked
      contradiction
    refine ⟨j,below,rfl,?_⟩
    intro full
    rcases Nat.lt_or_eq_of_le below with less | same
    · obtain ⟨o,other⟩ := full j less
      have locked := lock j
      rw [if_neg (Nat.ne_of_lt less),((inv.owner o j).mp other).2] at locked
      exact absurd locked (free o)
    · exact same

theorem Inv.lawful (inv : Inv s) : Lawful s where
  exclusive i p q first second := by
    have owner := ((inv.owner p i).mp first).2
    rw [((inv.owner q i).mp second).2] at owner
    exact (RobustProcMutex.locked.inj owner).symm
  exhausted := inv.exhausted
  granted _ _ := inv.granted
  freed _ _ := inv.freed
  range := inv.range

theorem start_inv (configMaxReaders : BitVec 16) : Inv (start configMaxReaders) where
  owner p i := by simp [State.Holds,start,ReaderInfo.create]
  range := ReaderInfo.create_exact configMaxReaders

/-- A call that leaves the mutexes alone keeps the invariant with an exact range. -/
theorem Inv.keep (inv : Inv s) {ri : ReaderInfo} (slots : ri.configMaxReaders = s.ri.configMaxReaders)
    (lock : ∀ i, (ri.info i).lock = (s.ri.info i).lock) (range : ri.RangeExact) :
    Inv { s with ri := ri } where
  owner p i := by
    have same := inv.owner p i
    simp only [State.slots,← slots,← lock] at same
    exact same
  range := range

theorem Inv.deactivate (inv : Inv s) {i : Nat} (inside : i < s.slots) :
    Inv { s with ri := s.ri.deactivate (some i) } := by
  exact inv.keep rfl (s.ri.lock_deactivate i) (s.ri.deactivate_exact inside)

theorem mark_eq (held : Owner → Nat → Bool) (p q : Owner) (i j : Nat) (value : Bool) :
    mark held p (some i) value q j = if q = p ∧ j = i then value else held q j := by
  simp only [mark,Function.update_apply]
  rcases eq_or_ne q p with rfl | other
  · simp [Function.update_apply]
  · simp [other]

theorem Inv.alloc (inv : Inv s) {p : Owner} (alive : s.dead p = false) : Inv (perform s (.alloc p)) := by
  cases answer : (s.ri.alloc p).1 with
  | none =>
    have table : (s.ri.alloc p).2 = s.ri := by
      unfold ReaderInfo.alloc at answer ⊢
      split at answer
      · contradiction
      · rfl
    simp only [perform,answer,table,mark]
    exact inv
  | some i =>
    obtain ⟨inside,free,_,table⟩ := ReaderInfo.alloc_some answer
    simp only [perform,answer,table]
    refine ⟨?_,ReaderInfo.deactivate_exact _ inside⟩
    intro q j
    simp only [State.Holds,mark_eq,ReaderInfo.lock_deactivate,ReaderInfo.lock_setLock]
    have known := inv.owner q j
    simp only [State.Holds] at known
    rcases eq_or_ne j i with rfl | elsewhere
    · have unlocked := free q
      simp only [if_true,and_true,RobustProcMutex.locked.injEq]
      rcases eq_or_ne q p with rfl | other
      · simp only [if_true,alive,and_true]
        exact iff_of_true trivial inside
      · simp only [if_neg other,known]
        exact iff_of_false (fun held => unlocked held.2) (fun locked => other locked.2.symm)
    · simp only [elsewhere,and_false,if_false]
      exact known

theorem Inv.free (inv : Inv s) {p : Owner} {i : Nat} (inside : i < s.slots) :
    Inv (s.free p (some i)) := by
  rcases em ((s.ri.info i).lock = .locked p) with own | foreign
  · have lock := free_lock s own
    have slots := free_slots s p (some i)
    constructor
    · intro q j
      rw [slots,lock]
      have known := inv.owner q j
      simp only [State.free,own,if_true,State.Holds,mark_eq] at known ⊢
      rcases eq_or_ne j i with rfl | elsewhere
      · rcases eq_or_ne q p with rfl | other
        · simp
        · simp only [other,false_and,if_false,if_true,known,own]
          simp [other.symm]
      · simp only [elsewhere,and_false,if_false]
        exact known
    · simp only [State.free,own,if_true,ReaderInfo.free]
      exact (s.ri.deactivate_exact inside).of_same rfl rfl (ReaderInfo.isActive_setLock _ _ · _)
  · simp only [State.free,foreign,if_false]
    exact inv.deactivate inside

theorem Inv.die (inv : Inv s) (p : Owner) : Inv (perform s (.die p)) := by
  refine ⟨?_,inv.range.of_same rfl rfl fun _ => rfl⟩
  intro q i
  have known := inv.owner q i
  simp only [State.Holds,State.slots,perform,ReaderInfo.ownerDies,Function.update_apply] at known ⊢
  rcases eq_or_ne q p with rfl | other
  · simp only [if_true,false_and,Bool.true_eq_false,false_iff,not_and]
    intro _ locked
    exact (RobustProcMutex.ownerDies_eq_locked.mp locked).2 rfl
  · rw [if_neg other,known,RobustProcMutex.ownerDies_eq_locked,and_iff_left other]

theorem Inv.step (inv : Inv s) {action : Action} {t : State} (taken : next s action = some t) : Inv t := by
  obtain ⟨⟨alive,inside⟩,performed⟩ := Option.ite_none_right_eq_some.mp taken
  obtain rfl := Option.some.inj performed
  cases action with
  | alloc p => exact inv.alloc alive
  | activate p readerId pos =>
    cases readerId with
    | none => exact inv
    | some i => exact inv.keep rfl (s.ri.lock_activate i · pos) (s.ri.activate_exact (inside i rfl) pos)
  | deactivate p readerId =>
    cases readerId with
    | none => exact inv
    | some i => exact inv.deactivate (inside i rfl)
  | free p readerId =>
    cases readerId with
    | none => exact inv
    | some i => exact inv.free (inside i rfl)
  | die p => exact inv.die p

/-- After any calls and deaths. -/
theorem slots_lawful {configMaxReaders : BitVec 16} (reached : Reachable (sys configMaxReaders) s) :
    Lawful s := by
  apply Inv.lawful
  apply reached.invariant Inv
  · intro s new
    obtain rfl : s = start configMaxReaders := new
    exact start_inv configMaxReaders
  · intro s action t inv taken
    exact inv.step taken

end

/-- A process dies while its slot is active, and another one gets that slot, inactive. -/
theorem slots_lawful_dead_owner :
    ∃ s : State, s.dead 0 = true ∧ s.Holds 1 0 ∧ (s.ri.info 0).isActive = false ∧ Lawful s := by
  obtain ⟨s,reached,seen⟩ := exec_reaches (sys 2) (fun _ _ => true) next (fun _ _ _ taken => taken) rfl
    [.alloc 0,.activate 0 (some 0) 8,.die 0,.alloc 1]
    (fun s => ((s.dead 0,s.dead 1),(s.held 1 0,(s.ri.info 0).isActive))) ((true,false),(true,false))
    (by decide +kernel)
  obtain ⟨deaths,slot⟩ := Prod.mk.inj seen
  obtain ⟨dead,alive⟩ := Prod.mk.inj deaths
  obtain ⟨held,inactive⟩ := Prod.mk.inj slot
  exact ⟨s,dead,⟨alive,held⟩,inactive,slots_lawful reached.unrestrict⟩

end SlotLifeCycle
end Toroni.Rmp
