import Toroni.Library.Transition

/-! Runs seen from outside. Most steps of a concrete system show nothing, and a simulation
has to match only those that do. -/
namespace Transition

inductive Seen {σ ε η : Type} (sys : System σ ε) (view : σ → ε → Option η) : σ → List η → σ → Prop
  | nil (s : σ) : Seen sys view s [] s
  | snoc {s t u : σ} {shown : List η} {event : ε} (before : Seen sys view s shown t)
      (last : sys.step t event u) : Seen sys view s (shown ++ (view t event).toList) u

def observe {σ ε η : Type} (allowed : σ → ε → Bool) (next : σ → ε → Option σ) (view : σ → ε → Option η)
    (s : σ) : List ε → Option (List η × σ)
  | [] => some ([],s)
  | event :: events =>
    if allowed s event then
      (next s event).bind (fun t => (observe allowed next view t events).map
        (fun rest => ((view s event).toList ++ rest.1,rest.2)))
    else none

structure Refines {σ τ ε η : Type} (related : σ → τ → Prop) (view : σ → ε → Option η)
    (sys : System σ ε) (abs : System τ η) : Prop where
  start : ∀ s, sys.init s → ∃ a, abs.init a ∧ related s a
  silent : ∀ s event t a, related s a → sys.step s event t → view s event = none → related t a
  visible : ∀ s event t a shown, related s a → sys.step s event t → view s event = some shown →
    ∃ b, abs.step a shown b ∧ related t b

section
variable {σ τ ε η : Type} {sys : System σ ε} {abs : System τ η} {view : σ → ε → Option η}
  {related : σ → τ → Prop} {s t u : σ} {a : τ} {shown : List η}

theorem Seen.reachable (seen : Seen sys view s shown t) (reached : Reachable sys s) : Reachable sys t := by
  induction seen with
  | nil => exact reached
  | snoc _ last ih => exact ih.step last

theorem Seen.weaken {strong weak : σ → ε → Prop}
    (weaker : ∀ s event t, Reachable (sys.restrict strong) s → sys.step s event t → strong s event →
      weak s event) (seen : Seen (sys.restrict strong) view s shown t)
    (reached : Reachable (sys.restrict strong) s) : Seen (sys.restrict weak) view s shown t := by
  induction seen with
  | nil => exact .nil _
  | snoc before last ih =>
    exact .snoc ih ⟨weaker _ _ _ (before.reachable reached) last.2 last.1,last.2⟩

/-- What no step from a reachable state shows is not seen. -/
theorem Seen.absent {label : η} (never : ∀ s event t, Reachable sys s → sys.step s event t →
    view s event ≠ some label) (seen : Seen sys view s shown t) (reached : Reachable sys s) :
    label ∉ shown := by
  induction seen with
  | nil => simp
  | snoc before last ih =>
    intro member
    rcases List.mem_append.mp member with old | new
    · exact ih old
    · exact never _ _ _ (before.reachable reached) last (Option.mem_toList.mp new)

theorem Seen.cons {event : ε} (first : sys.step s event t) (rest : Seen sys view t shown u) :
    Seen sys view s ((view s event).toList ++ shown) u := by
  induction rest with
  | nil =>
    have one : Seen sys view s ([] ++ (view s event).toList) _ := .snoc (.nil s) first
    rwa [List.nil_append,← List.append_nil (view s event).toList] at one
  | snoc _ last ih =>
    rw [← List.append_assoc]
    exact .snoc ih last

theorem Refines.seen (sim : Refines related view sys abs) (seen : Seen sys view s shown t)
    (start : related s a) : ∃ b, Run abs a shown b ∧ related t b := by
  induction seen with
  | nil => exact ⟨a,.nil a,start⟩
  | @snoc t u shown event before last ih =>
    obtain ⟨b,run,same⟩ := ih
    cases visible : view t event with
    | none =>
      rw [Option.toList_none,List.append_nil]
      exact ⟨b,run,sim.silent _ _ _ _ same last visible⟩
    | some label =>
      obtain ⟨c,matched,after⟩ := sim.visible _ _ _ _ _ same last visible
      exact ⟨c,.snoc run matched,after⟩

theorem Refines.reachable (sim : Refines related view sys abs) (reached : Reachable sys s) :
    ∃ a, Reachable abs a ∧ related s a := by
  refine reached.invariant (fun s => ∃ a, Reachable abs a ∧ related s a) ?_ ?_
  · intro s initial
    obtain ⟨a,first,same⟩ := sim.start s initial
    exact ⟨a,.start first,same⟩
  · rintro s event t ⟨a,before,same⟩ stepped
    cases visible : view s event with
    | none => exact ⟨a,before,sim.silent _ _ _ _ same stepped visible⟩
    | some label =>
      obtain ⟨b,matched,after⟩ := sim.visible _ _ _ _ _ same stepped visible
      exact ⟨b,before.step matched,after⟩

end
end Transition
