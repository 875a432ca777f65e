import Mathlib.Data.List.Basic

/-! What a receiver has been handed of a log that only grows: everything of one stretch that it lets
through, in the order of the log and nothing twice. -/

structure Stretch {β γ : Type} (lets : β → Option γ) (log : List β) (inbox : List γ) (first last : Nat) :
    Prop where
  order : first ≤ last
  inside : last ≤ log.length
  handed : inbox = ((log.take last).drop first).filterMap lets

namespace Stretch
variable {β γ : Type} {lets : β → Option γ} {log : List β} {inbox : List γ} {first last n : Nat}

theorem start (inside : first ≤ log.length) : Stretch lets log [] first first := by
  refine ⟨Nat.le_refl _,inside,?_⟩
  rw [List.drop_eq_nil_of_le (by rw [List.length_take]; exact Nat.min_le_left _ _)]
  rfl

theorem grow (stretch : Stretch lets log inbox first last) (more : List β) :
    Stretch lets (log ++ more) inbox first last := by
  obtain ⟨order,inside,handed⟩ := stretch
  refine ⟨order,?_,?_⟩
  · rw [List.length_append]
    omega
  · rwa [List.take_append_of_le_length inside]

/-- The receiver is handed what it lets through of the next entries. -/
theorem pass (stretch : Stretch lets log inbox first last) (bound : last + n ≤ log.length) :
    Stretch lets log (inbox ++ ((log.drop last).take n).filterMap lets) first (last + n) := by
  obtain ⟨order,inside,handed⟩ := stretch
  refine ⟨Nat.le_trans order (Nat.le_add_right _ n),bound,?_⟩
  rw [List.take_add,List.drop_append_of_le_length (by rw [List.length_take]; omega),List.filterMap_append,handed]

theorem nothing {k l m : Nat} (none : (log.drop k).filterMap lets = []) (later : k ≤ l) :
    ((log.take m).drop l).filterMap lets = [] := by
  rw [List.filterMap_eq_nil_iff] at none ⊢
  intro x member
  apply none
  rw [List.drop_take] at member
  have inside := List.mem_of_mem_take member
  obtain ⟨d,rfl⟩ := Nat.exists_eq_add_of_le later
  rw [← List.drop_drop] at inside
  exact List.mem_of_mem_drop inside

/-- Entries of which the receiver lets nothing through may be passed without handing it anything. -/
theorem skip (stretch : Stretch lets log inbox first last) (bound : last + n ≤ log.length)
    (none : (log.drop last).filterMap lets = []) : Stretch lets log inbox first (last + n) := by
  have next := stretch.pass bound
  have silent := nothing (l := last) (m := last + n) none (Nat.le_refl _)
  rw [List.drop_take,Nat.add_sub_cancel_left] at silent
  rwa [silent,List.append_nil] at next

end Stretch
