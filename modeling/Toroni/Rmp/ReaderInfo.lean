import Mathlib.Data.List.Range
import Mathlib.Logic.Function.Basic
import Toroni.Rmp.Stream
import Toroni.Traits.RobustProcMutex

/-! The shared table of reader slots and the packed range of its active slots,
with every operation taken as one step. -/
namespace Toroni.Rmp
open Traits

structure Info where
  lock : RobustProcMutex
  position : Position
  isActive : Bool

structure ReaderInfo where
  expiredReaders : StatCounter
  initialized : Bool
  configMaxReaders : BitVec 16
  readersMinMax : BitVec 32
  info : Nat → Info

abbrev ReaderId := Option Nat

def scanSlot (range : Nat × Nat) (i : Nat) (isActive : Bool) : Nat × Nat :=
  if isActive then (if i < range.1 then i else range.1,if range.2 < i then i else range.2) else range

def packRange (range : Nat × Nat) : BitVec 32 := BitVec.ofNat 32 (range.1 <<< 16 ||| (range.2 + 1))

def unpackRange (packed : BitVec 32) : Nat × Nat := (packed.toNat >>> 16,packed.toNat % 2^16)

namespace ReaderInfo

def create (configMaxReaders : BitVec 16) : ReaderInfo where
  expiredReaders := 0
  initialized := true
  configMaxReaders := configMaxReaders
  readersMinMax := 0
  info := fun _ => ⟨.unlocked,0,false⟩

def setPosition (ri : ReaderInfo) (i : Nat) (pos : Position) : ReaderInfo :=
  { ri with info := Function.update ri.info i { ri.info i with position := pos } }

def setActive (ri : ReaderInfo) (i : Nat) (isActive : Bool) : ReaderInfo :=
  { ri with info := Function.update ri.info i { ri.info i with isActive := isActive } }

def setLock (ri : ReaderInfo) (i : Nat) (lock : RobustProcMutex) : ReaderInfo :=
  { ri with info := Function.update ri.info i { ri.info i with lock := lock } }

def scan (ri : ReaderInfo) : Nat × Nat :=
  (List.range ri.configMaxReaders.toNat).foldl
    (fun range i => scanSlot range i (ri.info i).isActive) (ri.configMaxReaders.toNat,0)

def updateActiveRange (ri : ReaderInfo) : ReaderInfo :=
  { ri with readersMinMax := packRange ri.scan }

def getActiveRange (ri : ReaderInfo) : Nat × Nat := unpackRange ri.readersMinMax

def activate (ri : ReaderInfo) (readerId : ReaderId) (pos : Position) : ReaderInfo :=
  match readerId with
  | none => ri
  | some i => ((ri.setPosition i pos).setActive i true).updateActiveRange

def deactivate (ri : ReaderInfo) (readerId : ReaderId) : ReaderInfo :=
  match readerId with
  | none => ri
  | some i => (ri.setActive i false).updateActiveRange

def alloc (ri : ReaderInfo) (self : Owner) : ReaderId × ReaderInfo :=
  match (List.range ri.configMaxReaders.toNat).find?
      (fun i => ((ri.info i).lock.tryLock self).isSome) with
  | some i => (some i,(ri.setLock i (.locked self)).deactivate (some i))
  | none => (none,ri)

def free (ri : ReaderInfo) (readerId : ReaderId) : ReaderInfo :=
  match readerId with
  | none => ri
  | some i => (ri.deactivate (some i)).setLock i (ri.info i).lock.unlock

end ReaderInfo

theorem scanSlot_mono (range : Nat × Nat) (i : Nat) (isActive : Bool) :
    (scanSlot range i isActive).1 ≤ range.1 ∧ range.2 ≤ (scanSlot range i isActive).2 := by
  unfold scanSlot
  split
  · dsimp only
    exact ⟨by split <;> omega,by split <;> omega⟩
  · exact ⟨le_rfl,le_rfl⟩

theorem scanSlot_active (range : Nat × Nat) (i : Nat) :
    (scanSlot range i true).1 ≤ i ∧ i ≤ (scanSlot range i true).2 := by
  simp only [scanSlot,if_true]
  exact ⟨by split <;> omega,by split <;> omega⟩

theorem scanSlot_bounds {range : Nat × Nat} {n i : Nat} {isActive : Bool} (visited : i < n)
    (bounds : range.1 ≤ n ∧ (range.2 = 0 ∨ range.2 < n)) :
    (scanSlot range i isActive).1 ≤ n ∧
      ((scanSlot range i isActive).2 = 0 ∨ (scanSlot range i isActive).2 < n) := by
  unfold scanSlot
  split
  · dsimp only
    exact ⟨by split <;> omega,by split <;> omega⟩
  · exact bounds

theorem unpackRange_packRange {range : Nat × Nat} (low : range.1 < 2^16) (high : range.2 + 1 < 2^16) :
    unpackRange (packRange range) = (range.1,range.2 + 1) := by
  have joined : range.1 <<< 16 ||| (range.2 + 1) = range.1 * 2^16 + (range.2 + 1) := by
    rw [← Nat.shiftLeft_add_eq_or_of_lt high,Nat.shiftLeft_eq]
  have whole : (packRange range).toNat = range.1 * 2^16 + (range.2 + 1) := by
    rw [packRange,joined,BitVec.toNat_ofNat]
    omega
  simp only [unpackRange,whole,Nat.shiftRight_eq_div_pow,Prod.mk.injEq]
  omega

/-- The limits a whole scan has found after visiting the first `n` slots. -/
theorem scan_prefix (active : Nat → Bool) (total n : Nat) (inside : n ≤ total) :
    let range := (List.range n).foldl (fun range i => scanSlot range i (active i)) (total,0)
    (range.1 ≤ total ∧ (range.2 = 0 ∨ range.2 < total)) ∧
      ∀ i < n, active i = true → range.1 ≤ i ∧ i ≤ range.2 := by
  induction n with
  | zero => simp
  | succ n ih =>
    obtain ⟨bounds,covered⟩ := ih (by omega)
    simp only [List.range_succ,List.foldl_append,List.foldl_cons,List.foldl_nil]
    refine ⟨scanSlot_bounds (by omega) bounds,?_⟩
    intro i bound isActive
    by_cases last : i = n
    · subst last
      rw [isActive]
      exact scanSlot_active _ _
    · have mono := scanSlot_mono ((List.range n).foldl
        (fun range i => scanSlot range i (active i)) (total,0)) n (active n)
      have := covered i (by omega) isActive
      omega

namespace ReaderInfo

theorem isActive_activate (ri : ReaderInfo) (i j : Nat) (pos : Position) :
    ((ri.activate (some i) pos).info j).isActive = if j = i then true else (ri.info j).isActive := by
  by_cases same : j = i
  · subst same
    simp [activate,updateActiveRange,setActive]
  · simp [activate,updateActiveRange,setActive,setPosition,same]

theorem isActive_deactivate (ri : ReaderInfo) (i j : Nat) :
    ((ri.deactivate (some i)).info j).isActive = if j = i then false else (ri.info j).isActive := by
  by_cases same : j = i
  · subst same
    simp [deactivate,updateActiveRange,setActive]
  · simp [deactivate,updateActiveRange,setActive,same]

theorem isActive_setPosition (ri : ReaderInfo) (i j : Nat) (pos : Position) :
    ((ri.setPosition i pos).info j).isActive = (ri.info j).isActive := by
  by_cases same : j = i
  · subst same
    simp [setPosition]
  · simp [setPosition,same]

def Covers (ri : ReaderInfo) : Prop :=
  ∀ i < ri.configMaxReaders.toNat, (ri.info i).isActive = true →
    ri.getActiveRange.1 ≤ i ∧ i < ri.getActiveRange.2

theorem updateActiveRange_covers (ri : ReaderInfo) : ri.updateActiveRange.Covers := by
  intro i bound isActive
  have small := ri.configMaxReaders.isLt
  obtain ⟨bounds,covered⟩ := scan_prefix (fun i => (ri.info i).isActive)
    ri.configMaxReaders.toNat ri.configMaxReaders.toNat le_rfl
  have found := covered i bound isActive
  change ri.configMaxReaders.toNat > i at bound
  have packed : ri.updateActiveRange.getActiveRange = (ri.scan.1,ri.scan.2 + 1) := by
    apply unpackRange_packRange
    · exact lt_of_le_of_lt bounds.1 small
    · have := bounds.2
      simp only [scan]
      omega
  rw [packed]
  exact ⟨found.1,Nat.lt_succ_of_le found.2⟩

theorem create_covers (configMaxReaders : BitVec 16) : (create configMaxReaders).Covers := by
  intro i _ isActive
  simp [create] at isActive

theorem Covers.setPosition {ri : ReaderInfo} (covers : ri.Covers) (i : Nat) (pos : Position) :
    (ri.setPosition i pos).Covers := by
  intro j bound isActive
  apply covers j bound
  by_cases same : j = i
  · subst same
    simpa [ReaderInfo.setPosition] using isActive
  · simpa [ReaderInfo.setPosition,same] using isActive

end ReaderInfo
end Toroni.Rmp
