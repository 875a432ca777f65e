import Mathlib.Data.List.Basic

/-! Labelled transition systems, their finite runs, and the rules by which an
invariant or a simulation established for one step holds for every run. -/
namespace Transition

structure System (σ ε : Type) where
  init : σ → Prop
  step : σ → ε → σ → Prop

inductive Run {σ ε : Type} (sys : System σ ε) : σ → List ε → σ → Prop
  | nil (s : σ) : Run sys s [] s
  | snoc {s t u : σ} {events : List ε} {event : ε} (before : Run sys s events t)
      (last : sys.step t event u) : Run sys s (events ++ [event]) u

def Reachable {σ ε : Type} (sys : System σ ε) (s : σ) : Prop :=
  ∃ first events, sys.init first ∧ Run sys first events s

def System.restrict {σ ε : Type} (sys : System σ ε) (allowed : σ → ε → Prop) : System σ ε where
  init := sys.init
  step s event t := allowed s event ∧ sys.step s event t

def System.ofNext {σ ε : Type} (init : σ → Prop) (next : σ → ε → Option σ) : System σ ε where
  init := init
  step s event t := next s event = some t

def exec {σ ε : Type} (allowed : σ → ε → Bool) (next : σ → ε → Option σ) (s : σ) :
    List ε → Option σ
  | [] => some s
  | event :: events =>
    if allowed s event then (next s event).bind (fun t => exec allowed next t events) else none

section
variable {σ τ ε : Type} {sys : System σ ε} {abs : System τ ε} {s t u : σ}

theorem Run.cons {event : ε} {events : List ε} (first : sys.step s event t)
    (rest : Run sys t events u) : Run sys s (event :: events) u := by
  induction rest with
  | nil => exact show Run sys s ([] ++ [event]) _ from .snoc (.nil s) first
  | snoc before last ih => exact .snoc ih last

theorem Run.append {before after : List ε} (first : Run sys s before t)
    (rest : Run sys t after u) : Run sys s (before ++ after) u := by
  induction rest with
  | nil => simpa using first
  | snoc middle last ih =>
    rw [← List.append_assoc]
    exact .snoc ih last

theorem Run.split {before after : List ε} (run : Run sys s (before ++ after) u) :
    ∃ t, Run sys s before t ∧ Run sys t after u := by
  generalize whole : before ++ after = events at run
  induction run generalizing after with
  | nil =>
    obtain ⟨rfl,rfl⟩ := List.append_eq_nil_iff.mp whole
    exact ⟨s,.nil s,.nil s⟩
  | @snoc t u events event first last ih =>
    rcases List.eq_nil_or_concat after with rfl | ⟨rest,final,rfl⟩
    · refine ⟨u,?_,.nil u⟩
      simp only [List.append_nil] at whole
      exact whole ▸ .snoc first last
    · rw [List.concat_eq_append] at *
      rw [← List.append_assoc] at whole
      obtain ⟨same,tail⟩ := List.append_inj' whole rfl
      obtain ⟨middle,left,right⟩ := ih same
      simp only [List.cons.injEq,and_true] at tail
      exact ⟨middle,left,tail ▸ .snoc right last⟩

theorem Run.nil_eq (run : Run sys s [] t) : t = s := by
  generalize none : [] = events at run
  cases run with
  | nil => rfl
  | snoc => simp at none

theorem Run.uncons {event : ε} {events : List ε} (run : Run sys s (event :: events) u) :
    ∃ t, sys.step s event t ∧ Run sys t events u := by
  obtain ⟨t,first,rest⟩ := (show Run sys s ([event] ++ events) u from run).split
  generalize one : [event] = head at first
  cases first with
  | nil => simp at one
  | @snoc t _ before last earlier step =>
    obtain ⟨rfl,same⟩ := List.append_inj' (show [] ++ [event] = before ++ [last] from one) rfl
    obtain rfl := earlier.nil_eq
    cases List.singleton_inj.mp same
    exact ⟨_,step,rest⟩

theorem Run.keeps {events : List ε} (inv : σ → Prop)
    (step : ∀ s event t, inv s → sys.step s event t → inv t)
    (run : Run sys s events t) (start : inv s) : inv t := by
  induction run with
  | nil => exact start
  | snoc _ last ih => exact step _ _ _ ih last

/-- A rank that every step lowers bounds the length of a run. -/
theorem Run.length_le {events : List ε} (kept : σ → Prop) (rank : σ → Nat)
    (steps : ∀ s event t, kept s → sys.step s event t → kept t ∧ rank t < rank s)
    (run : Run sys s events t) (start : kept s) : kept t ∧ events.length + rank t ≤ rank s := by
  induction run with
  | nil => exact ⟨start,by simp⟩
  | snoc _ last ih =>
    obtain ⟨still,before⟩ := ih
    obtain ⟨still,lower⟩ := steps _ _ _ still last
    refine ⟨still,?_⟩
    rw [List.length_append,List.length_singleton]
    omega

theorem Reachable.invariant (inv : σ → Prop) (start : ∀ s, sys.init s → inv s)
    (step : ∀ s event t, inv s → sys.step s event t → inv t) (reached : Reachable sys s) :
    inv s := by
  obtain ⟨first,events,initial,run⟩ := reached
  exact run.keeps inv step (start first initial)

theorem Reachable.invariant_with (known inv : σ → Prop) (start : ∀ s, sys.init s → inv s)
    (kept : ∀ s, Reachable sys s → known s)
    (step : ∀ s event t, known s → inv s → sys.step s event t → inv t)
    (reached : Reachable sys s) : inv s := by
  obtain ⟨first,events,initial,run⟩ := reached
  induction run with
  | nil => exact start _ initial
  | snoc before last ih => exact step _ _ _ (kept _ ⟨_,_,initial,before⟩) ih last

theorem Reachable.start (initial : sys.init s) : Reachable sys s := by
  exact ⟨s,[],initial,.nil s⟩

theorem Reachable.step {event : ε} (reached : Reachable sys s) (last : sys.step s event t) :
    Reachable sys t := by
  obtain ⟨first,events,initial,run⟩ := reached
  exact ⟨first,_,initial,.snoc run last⟩

theorem Run.unrestrict {allowed : σ → ε → Prop} {events : List ε}
    (run : Run (sys.restrict allowed) s events t) : Run sys s events t := by
  induction run with
  | nil => exact .nil _
  | snoc _ last ih => exact .snoc ih last.2

theorem Reachable.unrestrict {allowed : σ → ε → Prop}
    (reached : Reachable (sys.restrict allowed) s) : Reachable sys s := by
  obtain ⟨first,events,initial,run⟩ := reached
  exact ⟨first,events,initial,run.unrestrict⟩

/-- A run under a condition is one under each condition that follows from it on the way. -/
theorem Reachable.weaken {strong weak : σ → ε → Prop}
    (weaker : ∀ s event, Reachable (sys.restrict strong) s → strong s event → weak s event)
    (reached : Reachable (sys.restrict strong) s) : Reachable (sys.restrict weak) s := by
  obtain ⟨first,events,initial,run⟩ := reached
  induction run with
  | nil => exact ⟨_,_,initial,.nil _⟩
  | snoc before last ih =>
    exact ih.step ⟨weaker _ _ ⟨_,_,initial,before⟩ last.1,last.2⟩

theorem Run.weaken {strong weak : σ → ε → Prop} {events : List ε}
    (weaker : ∀ s event, strong s event → weak s event) (run : Run (sys.restrict strong) s events t) :
    Run (sys.restrict weak) s events t := by
  induction run with
  | nil => exact .nil _
  | snoc _ last ih => exact .snoc ih ⟨weaker _ _ last.1,last.2⟩

theorem exec_run {allowed : σ → ε → Bool} {next : σ → ε → Option σ} {events : List ε}
    (steps : ∀ s event t, next s event = some t → sys.step s event t)
    (done : exec allowed next s events = some t) :
    Run (sys.restrict (fun s event => allowed s event = true)) s events t := by
  induction events generalizing s with
  | nil => cases Option.some.inj done; exact .nil _
  | cons event events ih =>
    simp only [exec] at done
    split at done
    next checked =>
      obtain ⟨middle,taken,rest⟩ := Option.bind_eq_some_iff.mp done
      exact .cons ⟨checked,steps _ _ _ taken⟩ (ih rest)
    next => contradiction

theorem exec_unrestricted {next : σ → ε → Option σ} {events : List ε}
    (steps : ∀ s event t, next s event = some t → sys.step s event t)
    (done : exec (fun _ _ => true) next s events = some t) : Run sys s events t := by
  exact (exec_run steps done).unrestrict

/-- A schedule checked by evaluating what it shows of the last state. -/
theorem exec_reaches {α : Type} (sys : System σ ε) (allowed : σ → ε → Bool)
    (next : σ → ε → Option σ) (steps : ∀ s event t, next s event = some t → sys.step s event t)
    {s : σ} (initial : sys.init s) (events : List ε) (view : σ → α) (seen : α)
    (done : (exec allowed next s events).map view = some seen) :
    ∃ t, Reachable (sys.restrict (fun s event => allowed s event = true)) t ∧ view t = seen := by
  obtain ⟨t,ran,saw⟩ := Option.map_eq_some_iff.mp done
  exact ⟨t,⟨s,events,initial,exec_run steps ran⟩,saw⟩

theorem exec_append {allowed : σ → ε → Bool} {next : σ → ε → Option σ} (s : σ) (first rest : List ε) :
    exec allowed next s (first ++ rest) =
      (exec allowed next s first).bind (fun t => exec allowed next t rest) := by
  induction first generalizing s with
  | nil => rfl
  | cons event first ih =>
    simp only [List.cons_append,exec]
    split
    · rw [Option.bind_assoc]
      exact congrArg _ (funext ih)
    · rfl

/-- A schedule checked by evaluating what it shows of a state on the way and of the last one. -/
theorem exec_passes {α β : Type} (sys : System σ ε) (allowed : σ → ε → Bool)
    (next : σ → ε → Option σ) (steps : ∀ s event t, next s event = some t → sys.step s event t)
    {s : σ} (initial : sys.init s) (before after : List ε) (view : σ → α) (seen : α) (view' : σ → β)
    (seen' : β) (done : (exec allowed next s before).map view = some seen)
    (done' : (exec allowed next s (before ++ after)).map view' = some seen') :
    ∃ t u, Reachable (sys.restrict (fun s event => allowed s event = true)) t ∧
      Run (sys.restrict (fun s event => allowed s event = true)) t after u ∧
      view t = seen ∧ view' u = seen' := by
  obtain ⟨t,ran,saw⟩ := Option.map_eq_some_iff.mp done
  obtain ⟨u,whole,saw'⟩ := Option.map_eq_some_iff.mp done'
  rw [exec_append,ran] at whole
  exact ⟨t,u,⟨s,before,initial,exec_run steps ran⟩,exec_run steps whole,saw,saw'⟩

structure Simulates (related : σ → τ → Prop) (sys : System σ ε) (abs : System τ ε) : Prop where
  start : ∀ s, sys.init s → ∃ a, abs.init a ∧ related s a
  step : ∀ s event t a, related s a → sys.step s event t →
    ∃ b, abs.step a event b ∧ related t b

theorem Simulates.run {related : σ → τ → Prop} {events : List ε} {a : τ}
    (sim : Simulates related sys abs) (run : Run sys s events t) (start : related s a) :
    ∃ b, Run abs a events b ∧ related t b := by
  induction run with
  | nil => exact ⟨a,.nil a,start⟩
  | snoc _ last ih =>
    obtain ⟨b,before,same⟩ := ih
    obtain ⟨c,matched,after⟩ := sim.step _ _ _ _ same last
    exact ⟨c,.snoc before matched,after⟩

end
end Transition
