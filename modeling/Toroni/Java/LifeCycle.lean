import Toroni.Java.Interchange
import Toroni.Java.TopicMsg
import Toroni.Tp.Reader

/-! What a process shows of its channel readers while they are created and closed, in the two
implementations: the events of their list, and whether the slot is active. -/
namespace Toroni.Java
open Rmp (ByteRingBuffer)
open Tp (ChannelReaderEventType)

structure Reader where
  readerPos : Long
  channelReaders : List ChannelReader
  events : List ChannelReaderEventType

namespace Reader

def create : Reader := ⟨0,[],[]⟩

def addChannelReader (rb : ByteRingBuffer) (slot : Nat) (ri : Rmp.ReaderInfo) (r : Reader)
    (channelReader : ChannelReader) : Rmp.ReaderInfo × Reader :=
  let channelReaders := r.channelReaders ++ [channelReader]
  if channelReaders.length = 1 then
    (ReaderInfo.activate ri (some slot) rb.freePos,
      ⟨rb.freePos,channelReaders,r.events ++ [.firstChannelReaderCreated]⟩)
  else (ri,{ r with channelReaders := channelReaders })

/-- The list is looked at whether or not the channel reader was in it. -/
def removeChannelReader (slot : Nat) (ri : Rmp.ReaderInfo) (r : Reader) (id : Nat) :
    Rmp.ReaderInfo × Reader :=
  let channelReaders := r.channelReaders.eraseP (fun c => c.id == id)
  if channelReaders = [] then
    (ReaderInfo.deactivate ri (some slot),
      { r with channelReaders := channelReaders
               events := r.events ++ [.lastChannelReaderClosed] })
  else (ri,{ r with channelReaders := channelReaders })

end Reader

namespace LifeCycle

inductive Task (α : Type)
  | add (c : α)
  | remove (id : Nat)

structure Observed where
  wasEmpty : Bool
  isEmpty : Bool
  emitted : List ChannelReaderEventType
  isActive : Bool

def Observed.Lawful (o : Observed) : Prop :=
  o.emitted = (match o.wasEmpty,o.isEmpty with
    | true,false => [.firstChannelReaderCreated]
    | false,true => [.lastChannelReaderClosed]
    | _,_ => []) ∧ o.isActive = !o.isEmpty

def Alternates {α : Type} (first other : α) : List α → Prop
  | [] => True
  | event :: events => event = first ∧ Alternates other first events

structure Orderly (observed : List Observed) : Prop where
  lawful : ∀ o ∈ observed, o.Lawful
  alternating : Alternates .firstChannelReaderCreated .lastChannelReaderClosed
    (observed.flatMap Observed.emitted)

structure Implementation (α σ : Type) where
  perform : ByteRingBuffer → σ → Task α → σ
  channelReaders : σ → List α
  events : σ → List ChannelReaderEventType
  isActive : σ → Bool

namespace Implementation
variable {α σ : Type} (imp : Implementation α σ)

def observed (s t : σ) : Observed :=
  ⟨(imp.channelReaders s).isEmpty,(imp.channelReaders t).isEmpty,
    (imp.events t).drop (imp.events s).length,imp.isActive t⟩

def observe : σ → List (ByteRingBuffer × Task α) → List Observed
  | _, [] => []
  | s, (rb,task) :: tasks =>
    imp.observed s (imp.perform rb s task) :: observe (imp.perform rb s task) tasks

def RemovesFromSome : σ → List (ByteRingBuffer × Task α) → Prop
  | _, [] => True
  | s, (rb,task) :: tasks =>
    (∀ id, task = .remove id → imp.channelReaders s ≠ []) ∧ RemovesFromSome (imp.perform rb s task) tasks

end Implementation

def cpp (slot : Nat) : Implementation Tp.ChannelReader (Tp.ReaderInfo × Tp.Reader) where
  perform rb s
    | .add c => s.2.addChannelReader rb slot s.1 c
    | .remove id => s.2.removeChannelReader slot s.1 id
  channelReaders s := s.2.channelReaders
  events s := s.2.events
  isActive s := (s.1.rmpReaderInfo.info slot).isActive

def java (slot : Nat) : Implementation ChannelReader (Rmp.ReaderInfo × Reader) where
  perform rb s
    | .add c => s.2.addChannelReader rb slot s.1 c
    | .remove id => s.2.removeChannelReader slot s.1 id
  channelReaders s := s.2.channelReaders
  events s := s.2.events
  isActive s := (s.1.info slot).isActive

section
variable {α σ : Type} {imp : Implementation α σ} {s t : σ} {tasks : List (ByteRingBuffer × Task α)}

/-- Lawful tasks alternate the events, as the list is empty exactly after the closing of the last. -/
theorem alternates_observe (lawful : ∀ o ∈ imp.observe s tasks, o.Lawful) :
    let emitted := (imp.observe s tasks).flatMap Observed.emitted
    if (imp.channelReaders s).isEmpty then Alternates .firstChannelReaderCreated .lastChannelReaderClosed emitted
    else Alternates .lastChannelReaderClosed .firstChannelReaderCreated emitted := by
  induction tasks generalizing s with
  | nil =>
    simp only [Implementation.observe,List.flatMap_nil]
    split
    · trivial
    · trivial
  | cons next tasks ih =>
    obtain ⟨rb,task⟩ := next
    obtain ⟨first,others⟩ := List.forall_mem_cons.mp lawful
    have rest := ih others
    have emitted := first.1
    simp only [Implementation.observe,List.flatMap_cons]
    rw [emitted]
    simp only [Implementation.observed]
    cases (imp.channelReaders s).isEmpty with
    | true =>
      cases after : (imp.channelReaders (imp.perform rb s task)).isEmpty with
      | true => simpa [after] using rest
      | false => simpa [after,Alternates] using rest
    | false =>
      cases after : (imp.channelReaders (imp.perform rb s task)).isEmpty with
      | true => simpa [after,Alternates] using rest
      | false => simpa [after] using rest

theorem orderly_of_lawful (empty : imp.channelReaders s = []) (lawful : ∀ o ∈ imp.observe s tasks, o.Lawful) :
    Orderly (imp.observe s tasks) := by
  have alternating := alternates_observe lawful
  rw [empty] at alternating
  exact ⟨lawful,alternating⟩

end

section
variable {slot : Nat}

theorem cpp_lawful {s : Tp.ReaderInfo × Tp.Reader} (rb : ByteRingBuffer) (task : Task Tp.ChannelReader)
    (inv : (cpp slot).isActive s = !((cpp slot).channelReaders s).isEmpty) :
    ((cpp slot).observed s ((cpp slot).perform rb s task)).Lawful := by
  obtain ⟨info,r⟩ := s
  have active : (info.rmpReaderInfo.info slot).isActive = !r.channelReaders.isEmpty := inv
  cases task with
  | add c =>
    simp only [Implementation.observed,cpp,Tp.Reader.addChannelReader,Observed.Lawful]
    cases list : r.channelReaders with
    | nil => simp [Rmp.ReaderInfo.isActive_activate]
    | cons first others => simp [active,list]
  | remove id =>
    simp only [Implementation.observed,cpp,Tp.Reader.removeChannelReader,Observed.Lawful]
    split
    case isTrue last =>
      obtain ⟨some_,none⟩ := last
      simp [List.isEmpty_eq_false_iff.mpr some_,none,Rmp.ReaderInfo.isActive_deactivate]
    case isFalse kept =>
      by_cases empty : r.channelReaders = []
      · simp [active,empty]
      · have left : r.channelReaders.eraseP (fun c => c.id == id) ≠ [] := fun none => kept ⟨empty,none⟩
        simp [active,List.isEmpty_eq_false_iff.mpr empty,List.isEmpty_eq_false_iff.mpr left]

theorem java_lawful {s : Rmp.ReaderInfo × Reader} (rb : ByteRingBuffer) (task : Task ChannelReader)
    (inv : (java slot).isActive s = !((java slot).channelReaders s).isEmpty) :
    ((java slot).observed s ((java slot).perform rb s task)).Lawful ↔
      ∀ id, task = .remove id → (java slot).channelReaders s ≠ [] := by
  obtain ⟨info,r⟩ := s
  have active : (info.info slot).isActive = !r.channelReaders.isEmpty := inv
  cases task with
  | add c =>
    simp only [Implementation.observed,java,Reader.addChannelReader,Observed.Lawful]
    cases list : r.channelReaders with
    | nil => simp [activate_eq,Rmp.ReaderInfo.isActive_activate]
    | cons first others => simp [active,list]
  | remove id =>
    simp only [Implementation.observed,java,Reader.removeChannelReader,Observed.Lawful]
    by_cases empty : r.channelReaders = []
    · simp [empty]
    · have some_ := List.isEmpty_eq_false_iff.mpr empty
      split
      case isTrue none => simp [empty,some_,none,deactivate_eq,Rmp.ReaderInfo.isActive_deactivate]
      case isFalse left => simp [active,empty,some_,List.isEmpty_eq_false_iff.mpr left]

theorem cpp_all_lawful {s : Tp.ReaderInfo × Tp.Reader} (tasks : List (ByteRingBuffer × Task Tp.ChannelReader))
    (inv : (cpp slot).isActive s = !((cpp slot).channelReaders s).isEmpty) :
    ∀ o ∈ (cpp slot).observe s tasks, o.Lawful := by
  induction tasks generalizing s with
  | nil => exact nofun
  | cons next tasks ih =>
    have lawful := cpp_lawful next.1 next.2 inv
    exact List.forall_mem_cons.mpr ⟨lawful,ih lawful.2⟩

theorem java_all_lawful {s : Rmp.ReaderInfo × Reader} (tasks : List (ByteRingBuffer × Task ChannelReader))
    (inv : (java slot).isActive s = !((java slot).channelReaders s).isEmpty) :
    (∀ o ∈ (java slot).observe s tasks, o.Lawful) ↔ (java slot).RemovesFromSome s tasks := by
  induction tasks generalizing s with
  | nil => exact iff_of_true nofun trivial
  | cons next tasks ih =>
    have lawful := java_lawful next.1 next.2 inv
    rw [Implementation.observe,List.forall_mem_cons,Implementation.RemovesFromSome,lawful]
    exact and_congr_right (fun allowed => ih (lawful.mpr allowed).2)

theorem alloc_inactive {ri table : Rmp.ReaderInfo} {self : Traits.Owner}
    (allocated : ri.alloc self = (some slot,table)) : (table.info slot).isActive = false := by
  unfold Rmp.ReaderInfo.alloc at allocated
  split at allocated
  · obtain ⟨found,rfl⟩ := Prod.mk.inj allocated
    rw [Option.some.inj found,Rmp.ReaderInfo.isActive_deactivate,if_pos rfl]
  · exact nomatch (Prod.mk.inj allocated).1

/-- In C++ the life cycle is always orderly, in Java exactly while no channel reader is closed when
there is none. Either reader starts with the slot that it has got from the table. -/
theorem orderly_iff {cppTable javaTable ri ri' : Rmp.ReaderInfo} {slot' : Nat} {self self' : Traits.Owner}
    (cppAllocated : ri.alloc self = (some slot,cppTable))
    (javaAllocated : ReaderInfo.alloc ri' self' = (some slot',javaTable)) (readerGen : Tp.ReaderGen)
    (cppTasks : List (ByteRingBuffer × Task Tp.ChannelReader))
    (javaTasks : List (ByteRingBuffer × Task ChannelReader)) :
    Orderly ((cpp slot).observe (⟨readerGen,true,cppTable⟩,.create) cppTasks) ∧
      (Orderly ((java slot').observe (javaTable,.create) javaTasks) ↔
        (java slot').RemovesFromSome (javaTable,.create) javaTasks) := by
  rw [alloc_eq] at javaAllocated
  refine ⟨orderly_of_lawful rfl (cpp_all_lawful _ (alloc_inactive cppAllocated)),?_⟩
  have inactive : (java slot').isActive (javaTable,.create) =
      !((java slot').channelReaders (javaTable,.create)).isEmpty := alloc_inactive javaAllocated
  rw [← java_all_lawful javaTasks inactive]
  exact ⟨Orderly.lawful,orderly_of_lawful rfl⟩

end

/-- One channel reader that is closed twice in C++, and once in Java. -/
theorem orderly_closed : ∃ cppTable javaTable : Rmp.ReaderInfo,
    Orderly ((cpp 0).observe (⟨0,true,cppTable⟩,.create)
      [(ByteRingBuffer.create 16 (fun _ => 0),.add ⟨0,[97],false,0⟩),
        (ByteRingBuffer.create 16 (fun _ => 0),.remove 0),(ByteRingBuffer.create 16 (fun _ => 0),.remove 0)]) ∧
      (Orderly ((java 0).observe (javaTable,.create)
        [(ByteRingBuffer.create 16 (fun _ => 0),.add ⟨0,['a'],false,0⟩),
          (ByteRingBuffer.create 16 (fun _ => 0),.remove 0)]) ↔
        (java 0).RemovesFromSome (javaTable,.create)
          [(ByteRingBuffer.create 16 (fun _ => 0),.add ⟨0,['a'],false,0⟩),
            (ByteRingBuffer.create 16 (fun _ => 0),.remove 0)]) := by
  exact ⟨_,_,orderly_iff (show (Rmp.ReaderInfo.create 1).alloc 0 = (some 0,_) from rfl)
    (show ReaderInfo.alloc (Rmp.ReaderInfo.create 1) 0 = (some 0,_) from rfl) 0 _ _⟩

/-- Closing a channel reader that was never added emits the event of the last one in Java. -/
theorem java_not_orderly :
    ¬ Orderly ((java 0).observe ((ReaderInfo.alloc (Rmp.ReaderInfo.create 1) 0).2,.create)
      [(ByteRingBuffer.create 16 (fun _ => 0),.remove 0)]) := by
  intro orderly
  exact nomatch orderly.alternating.1

end LifeCycle
end Toroni.Java
