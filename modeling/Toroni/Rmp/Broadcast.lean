import Mathlib.Logic.Function.Basic
import Toroni.Library.Transition
import Toroni.Rmp.Reader

/-! What the stream protocol is for: one global sequence of messages, of which every
active reader receives a segment without gaps, until it learns that it has missed some. -/
namespace Toroni.Rmp

inductive Event
  | wrote (data : List UInt8)
  | gaveUp
  | activated (i : Nat)
  | deactivated (i : Nat)
  | read (i : Nat) (result : Option Reader.Result) (confirmed : List (List UInt8))

namespace Broadcast
open Transition Reader

structure Cursor where
  next : Nat
  lost : Bool

structure State where
  log : List (List UInt8)
  reader : Nat → Option Cursor

inductive Step : State → Event → State → Prop
  | wrote (s : State) (data : List UInt8) : Step s (.wrote data) { s with log := s.log ++ [data] }
  | gaveUp (s : State) : Step s .gaveUp s
  | activated (s : State) (i : Nat) : Step s (.activated i)
      { s with reader := Function.update s.reader i (some ⟨s.log.length,false⟩) }
  | deactivated (s : State) (i : Nat) : Step s (.deactivated i)
      { s with reader := Function.update s.reader i none }
  | success (s : State) (i : Nat) (c : Cursor) (active : s.reader i = some c)
      (live : c.lost = false) : Step s (.read i (some .success) (s.log.drop c.next))
      { s with reader := Function.update s.reader i (some ⟨s.log.length,false⟩) }
  | expired (s : State) (i : Nat) (c : Cursor) (count : Nat) (active : s.reader i = some c)
      (inside : c.next + count ≤ s.log.length) (lost : c.lost = true → count = 0) :
      Step s (.read i (some .expiredPosition) ((s.log.drop c.next).take count))
      { s with reader := Function.update s.reader i (some ⟨c.next + count,true⟩) }

def sys : System State Event where
  init s := s.log = [] ∧ ∀ i, s.reader i = none
  step := Step

end Broadcast

def writtenOf : List Event → List (List UInt8)
  | [] => []
  | .wrote data :: events => data :: writtenOf events
  | _ :: events => writtenOf events

def confirmedOf (i : Nat) : List Event → List (List UInt8)
  | [] => []
  | .read j _ confirmed :: events =>
    (if j = i then confirmed else []) ++ confirmedOf i events
  | _ :: events => confirmedOf i events

def OneActivation (i : Nat) (events : List Event) : Prop :=
  .activated i ∉ events ∧ .deactivated i ∉ events

def StaysExpired (i : Nat) (events : List Event) : Prop :=
  ∀ before found after, events = before ++ .read i (some .expiredPosition) found :: after →
    ∀ result confirmed, .read i result confirmed ∈ after →
      result = some .expiredPosition ∧ confirmed = []

section
variable {i : Nat} {events before after : List Event} {event : Event}

@[simp] theorem writtenOf_append : writtenOf (before ++ after) = writtenOf before ++ writtenOf after := by
  induction before with
  | nil => rfl
  | cons event before ih => cases event <;> simp [writtenOf,ih]

@[simp] theorem confirmedOf_append :
    confirmedOf i (before ++ after) = confirmedOf i before ++ confirmedOf i after := by
  induction before with
  | nil => rfl
  | cons event before ih => cases event <;> simp [confirmedOf,ih]

namespace Broadcast
open Transition Reader

theorem log_eq {s t : State} (run : Run sys s events t) : t.log = s.log ++ writtenOf events := by
  induction run with
  | nil => simp [writtenOf]
  | snoc _ last ih => cases last <;> simp [writtenOf,ih]

structure Following (i start : Nat) (events : List Event) (s : State) (c : Cursor) : Prop where
  active : s.reader i = some c
  forward : start ≤ c.next
  inside : c.next ≤ s.log.length
  segment : confirmedOf i events = (s.log.drop start).take (c.next - start)
  lost : ∀ found, .read i (some .expiredPosition) found ∈ events → c.lost = true
  told : ∀ result confirmed, .read i result confirmed ∈ events →
    result = some .success ∨ result = some .expiredPosition
  stays : StaysExpired i events

theorem Following.other {start : Nat} {s t : State} {c : Cursor}
    (follows : Following i start events s c) (same : t.reader i = s.reader i) (grown : ∃ more, t.log = s.log ++ more)
    (foreign : ∀ result confirmed, event ≠ .read i result confirmed) :
    Following i start (events ++ [event]) t c := by
  obtain ⟨more,grown⟩ := grown
  have quiet : confirmedOf i [event] = [] := by
    cases event with
    | read j result confirmed =>
      have away : j ≠ i := fun equal => foreign result confirmed (by rw [equal])
      simp [confirmedOf,away]
    | _ => rfl
  have inside := follows.inside
  have kept {e : Event} (member : e ∈ events ++ [event])
      (mine : ∃ result confirmed, e = .read i result confirmed) : e ∈ events := by
    obtain ⟨result,confirmed,rfl⟩ := mine
    rcases List.mem_append.mp member with old | new
    · exact old
    · exact absurd (List.mem_singleton.mp new).symm (foreign result confirmed)
  refine ⟨same.trans follows.active,follows.forward,?_,?_,?_,?_,?_⟩
  · simp only [grown,List.length_append]
    omega
  · rw [confirmedOf_append,quiet,List.append_nil,follows.segment,grown,
      List.drop_append_of_le_length (by have := follows.forward; omega),
      List.take_append_of_le_length (by rw [List.length_drop]; omega)]
  · exact fun found member => follows.lost found (kept member ⟨_,_,rfl⟩)
  · exact fun result confirmed member => follows.told result confirmed (kept member ⟨_,_,rfl⟩)
  · intro before found after split result confirmed later
    rcases List.eq_nil_or_concat after with rfl | ⟨rest,final,rfl⟩
    · simp at later
    · rw [List.concat_eq_append] at split later
      rw [← List.cons_append,← List.append_assoc] at split
      obtain ⟨split,tail⟩ := List.append_inj' split rfl
      rcases List.mem_append.mp later with old | new
      · exact follows.stays before found rest split result confirmed old
      · rw [← tail] at new
        exact absurd (List.mem_singleton.mp new).symm (foreign result confirmed)

theorem Following.read {start : Nat} (count : Nat) {s t : State} {c d : Cursor} {result : Option Result}
    {confirmed : List (List UInt8)} (follows : Following i start events s c)
    (active : t.reader i = some d) (same : t.log = s.log) (moved : d.next = c.next + count)
    (inside : c.next + count ≤ s.log.length) (found : confirmed = (s.log.drop c.next).take count)
    (told : result = some .success ∧ c.lost = false ∨
      result = some .expiredPosition ∧ d.lost = true ∧ (c.lost = true → count = 0)) :
    Following i start (events ++ [.read i result confirmed]) t d := by
  have forward := follows.forward
  refine ⟨active,by omega,by rw [same]; omega,?_,?_,?_,?_⟩
  · rw [confirmedOf_append,follows.segment,same,moved,found,
      show c.next + count - start = (c.next - start) + count by omega,List.take_add,List.drop_drop,
      show start + (c.next - start) = c.next by omega]
    simp [confirmedOf]
  · intro found member
    rcases List.mem_append.mp member with old | new
    · have lost := follows.lost found old
      rcases told with ⟨_,live⟩ | ⟨_,lost,_⟩
      · rw [lost] at live
        contradiction
      · exact lost
    · cases List.mem_singleton.mp new
      rcases told with ⟨same,_⟩ | ⟨_,lost,_⟩
      · contradiction
      · exact lost
  · intro result' confirmed' member
    rcases List.mem_append.mp member with old | new
    · exact follows.told result' confirmed' old
    · cases List.mem_singleton.mp new
      exact told.imp And.left And.left
  · intro before gone after split result' confirmed' later
    rcases List.eq_nil_or_concat after with rfl | ⟨rest,final,rfl⟩
    · simp at later
    · rw [List.concat_eq_append] at split later
      rw [← List.cons_append,← List.append_assoc] at split
      obtain ⟨split,tail⟩ := List.append_inj' split rfl
      rcases List.mem_append.mp later with old | new
      · exact follows.stays before gone rest split result' confirmed' old
      · rw [← tail] at new
        cases List.mem_singleton.mp new
        have lost : c.lost = true := follows.lost gone (by simp [split])
        rcases told with ⟨_,live⟩ | ⟨same,_,still⟩
        · rw [lost] at live
          contradiction
        · exact ⟨same,by simp [found,still lost]⟩

theorem following {s t : State} (run : Run sys s events t)
    (fresh : s.reader i = some ⟨s.log.length,false⟩) (one : OneActivation i events) :
    ∃ c, Following i s.log.length events t c := by
  induction run with
  | nil =>
    refine ⟨_,fresh,le_rfl,le_rfl,by simp [confirmedOf],?_,?_,?_⟩
    · simp
    · simp
    · intro before found after split
      simp at split
  | @snoc t u events event _ last ih =>
    obtain ⟨c,follows⟩ := ih
      ⟨fun member => one.1 (by simp [member]),fun member => one.2 (by simp [member])⟩
    cases last with
    | wrote data => exact ⟨c,follows.other rfl ⟨_,rfl⟩ (by simp)⟩
    | gaveUp => exact ⟨c,follows.other rfl ⟨[],by simp⟩ (by simp)⟩
    | activated j =>
      have away : i ≠ j := fun equal => one.1 (by simp [equal])
      exact ⟨c,follows.other (by simp [away]) ⟨[],by simp⟩ (by simp)⟩
    | deactivated j =>
      have away : i ≠ j := fun equal => one.2 (by simp [equal])
      exact ⟨c,follows.other (by simp [away]) ⟨[],by simp⟩ (by simp)⟩
    | success j d active live =>
      by_cases mine : i = j
      · subst mine
        cases Option.some.inj (active.symm.trans follows.active)
        have inside := follows.inside
        exact ⟨⟨t.log.length,false⟩,follows.read (t.log.length - c.next) (by simp) rfl
          (by dsimp only; omega) (by omega) (by rw [List.take_of_length_le (by simp)])
          (Or.inl ⟨rfl,live⟩)⟩
      · exact ⟨c,follows.other (by simp [mine]) ⟨[],by simp⟩ (by simp [Ne.symm mine])⟩
    | expired j d count active inside lost =>
      by_cases mine : i = j
      · subst mine
        cases Option.some.inj (active.symm.trans follows.active)
        exact ⟨⟨c.next + count,true⟩,follows.read count (by simp) rfl rfl inside rfl
          (Or.inr ⟨rfl,rfl,lost⟩)⟩
      · exact ⟨c,follows.other (by simp [mine]) ⟨[],by simp⟩ (by simp [Ne.symm mine])⟩

end Broadcast
end
end Toroni.Rmp
