import Mathlib.Order.Nat
import Toroni.Library.Refinement

/-! Infinite runs under weak fairness, and the rules by which one thing leads to another. -/
namespace Transition

structure Trace {σ ε : Type} (sys : System σ ε) where
  state : Nat → σ
  event : Nat → ε
  step : ∀ n, sys.step (state n) (event n) (state (n + 1))

namespace Trace

def Fair {σ ε : Type} {sys : System σ ε} (ρ : Trace sys) (mine : ε → Prop) (enabled : σ → Prop) : Prop :=
  ∀ n, ∃ m, n ≤ m ∧ (mine (ρ.event m) ∨ ¬ enabled (ρ.state m))

def LeadsTo {σ ε : Type} {sys : System σ ε} (ρ : Trace sys) (before after : σ → Prop) : Prop :=
  ∀ n, before (ρ.state n) → ∃ m, n ≤ m ∧ after (ρ.state m)

def shown {σ ε η : Type} {sys : System σ ε} (ρ : Trace sys) (view : σ → ε → Option η) (n : Nat) : Nat → List η
  | 0 => []
  | k+1 => ρ.shown view n k ++ (view (ρ.state (n + k)) (ρ.event (n + k))).toList

section
variable {σ ε η : Type} {sys : System σ ε} {ρ : Trace sys} {before middle after : σ → Prop}
  {view : σ → ε → Option η}

theorem seen (ρ : Trace sys) (view : σ → ε → Option η) (n k : Nat) :
    Seen sys view (ρ.state n) (ρ.shown view n k) (ρ.state (n + k)) := by
  induction k with
  | zero => exact .nil _
  | succ k ih => exact .snoc ih (ρ.step (n + k))

theorem reachable (initial : sys.init (ρ.state 0)) (n : Nat) : Reachable sys (ρ.state n) := by
  induction n with
  | zero => exact .start initial
  | succ n ih => exact ih.step (ρ.step n)

theorem LeadsTo.trans (first : ρ.LeadsTo before middle) (second : ρ.LeadsTo middle after) :
    ρ.LeadsTo before after := by
  intro n start
  obtain ⟨m,later,reached⟩ := first n start
  obtain ⟨k,further,done⟩ := second m reached
  exact ⟨k,later.trans further,done⟩

theorem LeadsTo.of_imp (implied : ∀ s, before s → after s) : ρ.LeadsTo before after := by
  intro n start
  exact ⟨n,Nat.le_refl n,implied _ start⟩

/-- The end may come on the way. -/
theorem LeadsTo.trans_or (first : ρ.LeadsTo before (fun s => middle s ∨ after s))
    (second : ρ.LeadsTo middle after) : ρ.LeadsTo before after := by
  intro n start
  obtain ⟨m,later,reached | done⟩ := first n start
  · obtain ⟨k,further,done⟩ := second m reached
    exact ⟨k,later.trans further,done⟩
  · exact ⟨m,later,done⟩

/-- What a step keeps unless it ends it lasts, until the end comes. -/
theorem lasts_until (ended : Nat → Prop) {kept : Nat → Prop} (steps : ∀ n, kept n → ended n ∨ kept (n + 1))
    {n : Nat} (start : kept n) (m : Nat) (later : n ≤ m) :
    (∃ k, n ≤ k ∧ ended k ∧ ∀ j, n ≤ j → j ≤ k → kept j) ∨ ∀ j, n ≤ j → j ≤ m → kept j := by
  obtain ⟨k,rfl⟩ := Nat.exists_eq_add_of_le later
  clear later
  induction k with
  | zero =>
    right
    intro j after before
    obtain rfl : j = n := by omega
    exact start
  | succ k ih =>
    rcases ih with done | still
    · exact Or.inl done
    · rcases steps (n + k) (still _ (by omega) le_rfl) with done | next
      · exact Or.inl ⟨n + k,by omega,done,still⟩
      · right
        intro j after before
        rcases Nat.lt_or_eq_of_le before with early | rfl
        · exact still j after (by omega)
        · exact next

theorem lasts (ended : Nat → Prop) {kept : Nat → Prop} (steps : ∀ n, kept n → ended n ∨ kept (n + 1)) {n : Nat}
    (start : kept n) (m : Nat) (later : n ≤ m) : (∃ k, n ≤ k ∧ ended k) ∨ kept m := by
  rcases lasts_until ended steps start m later with ⟨k,after,done,_⟩ | still
  · exact Or.inl ⟨k,after,done⟩
  · exact Or.inr (still m later le_rfl)

/-- What lasts until the end comes is still there when something else is reached. -/
theorem LeadsTo.during (leads : ρ.LeadsTo before middle) {kept : σ → Prop}
    (steps : ∀ n, kept (ρ.state n) → after (ρ.state (n + 1)) ∨ kept (ρ.state (n + 1))) :
    ρ.LeadsTo (fun s => before s ∧ kept s) (fun s => middle s ∧ kept s ∨ after s) := by
  rintro n ⟨start,holds⟩
  obtain ⟨m,later,reached⟩ := leads n start
  rcases lasts (fun n => after (ρ.state (n + 1))) steps holds m later with ⟨k,further,done⟩ | still
  · exact ⟨k + 1,by omega,Or.inr done⟩
  · exact ⟨m,later,Or.inl ⟨reached,still⟩⟩

/-- A fair event that lowers a rank which no other event raises brings the end. -/
theorem LeadsTo.of_rank {mine : ε → Prop} {enabled : σ → Prop} (fair : ρ.Fair mine enabled) (rank : σ → Nat)
    (enables : ∀ n, before (ρ.state n) → enabled (ρ.state n))
    (steps : ∀ n, before (ρ.state n) → after (ρ.state (n + 1)) ∨ before (ρ.state (n + 1)) ∧
      rank (ρ.state (n + 1)) ≤ rank (ρ.state n) ∧
      (mine (ρ.event n) → rank (ρ.state (n + 1)) < rank (ρ.state n))) : ρ.LeadsTo before after := by
  intro n start
  induction level : rank (ρ.state n) using Nat.strongRecOn generalizing n with
  | ind bound ih =>
    obtain ⟨m,later,taken⟩ := fair n
    have kept (k : Nat) (now : before (ρ.state k) ∧ rank (ρ.state k) ≤ bound) :
        after (ρ.state (k + 1)) ∨ before (ρ.state (k + 1)) ∧ rank (ρ.state (k + 1)) ≤ bound := by
      rcases steps k now.1 with done | ⟨next,low,_⟩
      · exact Or.inl done
      · exact Or.inr ⟨next,low.trans now.2⟩
    rcases lasts _ kept ⟨start,level.le⟩ m later with ⟨k,further,done⟩ | ⟨still,low⟩
    · exact ⟨k + 1,by omega,done⟩
    · rcases steps m still with done | ⟨next,_,lower⟩
      · exact ⟨m + 1,by omega,done⟩
      · have moved := lower (taken.resolve_right (not_not_intro (enables m still)))
        obtain ⟨k,further,done⟩ := ih _ (by omega) (m + 1) next rfl
        exact ⟨k,by omega,done⟩

/-- Goals that last once they are reached are reached together. -/
theorem LeadsTo.all {ι : Type} {goal : ι → σ → Prop} (items : List ι)
    (each : ∀ i ∈ items, ρ.LeadsTo before (fun s => before s ∧ goal i s ∨ after s))
    (kept : ∀ n i, before (ρ.state n) ∧ goal i (ρ.state n) →
      after (ρ.state (n + 1)) ∨ before (ρ.state (n + 1)) ∧ goal i (ρ.state (n + 1))) :
    ρ.LeadsTo before (fun s => before s ∧ (∀ i ∈ items, goal i s) ∨ after s) := by
  induction items with
  | nil => exact .of_imp (fun s start => Or.inl ⟨start,by simp⟩)
  | cons i items ih =>
    intro n start
    obtain ⟨m,later,⟨still,reached⟩ | done⟩ := ih (fun j member => each j (List.mem_cons_of_mem i member)) n start
    · obtain ⟨k,further,⟨again,own⟩ | done⟩ := each i List.mem_cons_self m still
      · by_cases ended : ∃ k, m ≤ k ∧ after (ρ.state (k + 1))
        · obtain ⟨l,beyond,done⟩ := ended
          exact ⟨l + 1,by omega,Or.inr done⟩
        · refine ⟨k,by omega,Or.inl ⟨again,fun j member => ?_⟩⟩
          rcases List.mem_cons.mp member with rfl | rest
          · exact own
          · have lasting := lasts (fun n => after (ρ.state (n + 1))) (fun n => kept n j)
              ⟨still,reached j rest⟩ k further
            exact (lasting.resolve_left ended).2
      · exact ⟨k,by omega,Or.inr done⟩
    · exact ⟨m,later,Or.inr done⟩

end
end Trace
end Transition
