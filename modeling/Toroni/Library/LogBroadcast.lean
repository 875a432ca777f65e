import Mathlib.Logic.Function.Basic
import Toroni.Library.Transition

/-! One growing log and any number of readers, each of which is handed the log piece by piece
from the point where it joined, until it learns that it has missed something. -/
namespace LogBroadcast
open Transition

/-- `caughtUp` ends a call with the report that nothing is left to hand over, `missed` with the
report that something is lost. -/
inductive Label (ι α : Type)
  | publish (x : α)
  | join (i : ι)
  | leave (i : ι)
  | call (i : ι)
  | deliver (i : ι) (x : α)
  | caughtUp (i : ι)
  | missed (i : ι)
  deriving DecidableEq

structure Cursor where
  next : Nat
  goal : Nat
  lost : Bool

structure State (ι α : Type) where
  log : List α
  cursor : ι → Option Cursor

section
variable {ι α : Type} [DecidableEq ι]

def State.set (s : State ι α) (i : ι) (c : Option Cursor) : State ι α :=
  { s with cursor := Function.update s.cursor i c }

inductive Step : State ι α → Label ι α → State ι α → Prop
  | publish (s : State ι α) (x : α) : Step s (.publish x) { s with log := s.log ++ [x] }
  | join (s : State ι α) (i : ι) : Step s (.join i) (s.set i (some ⟨s.log.length,s.log.length,false⟩))
  | leave (s : State ι α) (i : ι) : Step s (.leave i) (s.set i none)
  | call (s : State ι α) (i : ι) (c : Cursor) (active : s.cursor i = some c) :
      Step s (.call i) (s.set i (some { c with goal := s.log.length }))
  | deliver (s : State ι α) (i : ι) (c : Cursor) (x : α) (active : s.cursor i = some c)
      (live : c.lost = false) (here : s.log[c.next]? = some x) :
      Step s (.deliver i x) (s.set i (some { c with next := c.next + 1 }))
  | caughtUp (s : State ι α) (i : ι) (c : Cursor) (active : s.cursor i = some c)
      (live : c.lost = false) (whole : c.goal ≤ c.next) : Step s (.caughtUp i) s
  | missed (s : State ι α) (i : ι) (c : Cursor) (active : s.cursor i = some c) :
      Step s (.missed i) (s.set i (some { c with lost := true }))

def sys : System (State ι α) (Label ι α) where
  init s := s.log = [] ∧ ∀ i, s.cursor i = none
  step := Step

def Label.published : Label ι α → Option α
  | publish x => some x
  | _ => none

def Label.delivered (i : ι) : Label ι α → Option α
  | deliver j x => if j = i then some x else none
  | _ => none

def publishedOf (labels : List (Label ι α)) : List α := labels.filterMap Label.published

def deliveredOf (i : ι) (labels : List (Label ι α)) : List α := labels.filterMap (Label.delivered i)

def Stays (i : ι) (labels : List (Label ι α)) : Prop := .join i ∉ labels ∧ .leave i ∉ labels

variable {i : ι} {s t : State ι α} {c : Cursor} {label : Label ι α} {labels before after : List (Label ι α)}

omit [DecidableEq ι] in
@[simp] theorem publishedOf_append :
    publishedOf (before ++ after) = publishedOf before ++ publishedOf after := List.filterMap_append

@[simp] theorem deliveredOf_append :
    deliveredOf i (before ++ after) = deliveredOf i before ++ deliveredOf i after := List.filterMap_append

@[simp] theorem State.set_self (c : Option Cursor) : (s.set i c).cursor i = c := Function.update_self ..

theorem State.set_of_ne {j : ι} (away : j ≠ i) (c : Option Cursor) : (s.set i c).cursor j = s.cursor j := by
  exact Function.update_of_ne away ..

omit [DecidableEq ι] in
theorem Stays.append (stays : Stays i (before ++ after)) : Stays i before ∧ Stays i after := by
  obtain ⟨joined,left⟩ := stays
  constructor
  · exact ⟨fun joins => joined (List.mem_append_left _ joins),fun leaves => left (List.mem_append_left _ leaves)⟩
  · exact ⟨fun joins => joined (List.mem_append_right _ joins),fun leaves => left (List.mem_append_right _ leaves)⟩

theorem Step.log_eq (step : Step s label t) : t.log = s.log ++ publishedOf [label] := by
  cases step <;> simp [publishedOf,Label.published,State.set]

theorem log_eq (run : Run sys s labels t) : t.log = s.log ++ publishedOf labels := by
  induction run with
  | nil => simp [publishedOf]
  | snoc _ last ih => rw [Step.log_eq last,ih,publishedOf_append,List.append_assoc]

/-- What a step does to the cursor of a reader that stays: it is handed the next entry of the log,
learns that it has missed some, begins a call, or is left alone. -/
theorem Step.stays (step : Step s label t) (active : s.cursor i = some c) (stays : Stays i [label]) :
    ∃ d, t.cursor i = some d ∧
      (deliveredOf i [label] = [] ∧ d.next = c.next ∨
        c.lost = false ∧ d.next = c.next + 1 ∧ ∃ x, s.log[c.next]? = some x ∧ deliveredOf i [label] = [x]) ∧
      (d.lost = true ↔ c.lost = true ∨ label = .missed i) ∧
      (label = .call i → d.goal = s.log.length) ∧ (label ≠ .call i → d.goal = c.goal) := by
  have apart {j : ι} {d : Option Cursor} (away : i ≠ j) : (s.set j d).cursor i = some c := by
    rw [State.set_of_ne away]
    exact active
  cases step with
  | publish x => exact ⟨c,active,Or.inl ⟨rfl,rfl⟩,by simp,by simp,fun _ => rfl⟩
  | caughtUp j d _ live whole => exact ⟨c,active,Or.inl ⟨rfl,rfl⟩,by simp,by simp,fun _ => rfl⟩
  | join j =>
    have away : i ≠ j := fun same => stays.1 (by simp [same])
    exact ⟨c,apart away,Or.inl ⟨rfl,rfl⟩,by simp,by simp,fun _ => rfl⟩
  | leave j =>
    have away : i ≠ j := fun same => stays.2 (by simp [same])
    exact ⟨c,apart away,Or.inl ⟨rfl,rfl⟩,by simp,by simp,fun _ => rfl⟩
  | call j d own =>
    rcases eq_or_ne i j with rfl | away
    · obtain rfl := Option.some.inj (own.symm.trans active)
      exact ⟨_,State.set_self _,Or.inl ⟨rfl,rfl⟩,by simp,fun _ => rfl,fun other => absurd rfl other⟩
    · exact ⟨c,apart away,Or.inl ⟨rfl,rfl⟩,by simp,by simp [away.symm],fun _ => rfl⟩
  | deliver j d x own live here =>
    rcases eq_or_ne i j with rfl | away
    · obtain rfl := Option.some.inj (own.symm.trans active)
      exact ⟨_,State.set_self _,Or.inr ⟨live,rfl,x,here,by simp [deliveredOf,Label.delivered]⟩,by simp,by simp,fun _ => rfl⟩
    · exact ⟨c,apart away,Or.inl ⟨by simp [deliveredOf,Label.delivered,away.symm],rfl⟩,by simp,by simp,fun _ => rfl⟩
  | missed j d own =>
    rcases eq_or_ne i j with rfl | away
    · obtain rfl := Option.some.inj (own.symm.trans active)
      exact ⟨_,State.set_self _,Or.inl ⟨rfl,rfl⟩,by simp,by simp,fun _ => rfl⟩
    · exact ⟨c,apart away,Or.inl ⟨rfl,rfl⟩,by simp [away.symm],by simp,fun _ => rfl⟩

structure Following (i : ι) (start : Nat) (labels : List (Label ι α)) (s : State ι α) (c : Cursor) : Prop where
  active : s.cursor i = some c
  forward : start ≤ c.next
  inside : c.next ≤ s.log.length
  segment : deliveredOf i labels = (s.log.drop start).take (c.next - start)

theorem following (run : Run sys s labels t) (active : s.cursor i = some c)
    (begins : c.next = s.log.length) (stays : Stays i labels) :
    ∃ d, Following i s.log.length labels t d := by
  induction run with
  | nil => exact ⟨c,active,Nat.le_of_eq begins.symm,Nat.le_of_eq begins,by simp [begins,deliveredOf]⟩
  | @snoc t u labels label before last ih =>
    obtain ⟨first,only⟩ := stays.append
    obtain ⟨c,follows⟩ := ih first
    obtain ⟨d,now,moves,_,_⟩ := Step.stays last follows.active only
    have grown := Step.log_eq last
    have forward := follows.forward
    have inside := follows.inside
    have kept : (u.log.drop s.log.length).take (c.next - s.log.length) =
        (t.log.drop s.log.length).take (c.next - s.log.length) := by
      rw [grown,List.drop_append_of_le_length (by omega),
        List.take_append_of_le_length (by rw [List.length_drop]; omega)]
    rcases moves with ⟨quiet,same⟩ | ⟨_,moved,x,here,found⟩
    · refine ⟨d,now,by omega,?_,?_⟩
      · rw [grown,List.length_append]
        omega
      · rw [deliveredOf_append,quiet,List.append_nil,same,kept,follows.segment]
    · obtain ⟨bound,value⟩ := List.getElem?_eq_some_iff.mp here
      refine ⟨d,now,by omega,?_,?_⟩
      · rw [grown,List.length_append]
        omega
      · have later : (u.log.drop s.log.length)[c.next - s.log.length]? = some x := by
          rw [List.getElem?_drop,Nat.add_sub_cancel' forward,grown,List.getElem?_append_left bound,here]
        rw [deliveredOf_append,found,moved,Nat.sub_add_comm forward,List.take_add_one,later,kept,follows.segment,
          Option.toList_some]

end
end LogBroadcast
