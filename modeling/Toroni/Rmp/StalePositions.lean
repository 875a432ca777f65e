import Toroni.Language
import Toroni.Library.Transition
import Toroni.Rmp.ReaderInfo

/-! One slot of the table by the single stores of its successive owners in both languages, among
scans of writers that load its `isActive` and then its `position`. -/
namespace Toroni.Rmp.StalePositions
open Transition Traits

inductive Store
  | position (activation : Nat) (pos : Position)
  | setActive (activation : Nat)
  | clearActive
  | unlock
  deriving DecidableEq

/-- `Activate` stores the position first in C++ and last in Java. -/
def activateStores (activation : Nat) (pos : Position) : Language → List Store
  | .cpp => [.position activation pos,.setActive activation]
  | .java => [.setActive activation,.position activation pos]

def allocStores : List Store := [.clearActive]

def deactivateStores : List Store := [.clearActive]

def freeStores : List Store := [.clearActive,.unlock]

/-- A scan that has found the slot active as set by some activation, and one that has read a position
then. `early` is a history variable: the flag had been set ahead of its position, and no position has
been stored since. -/
inductive Scan
  | seen (activation : Nat) (early : Bool)
  | judged (activation : Nat) (pos : Position) (storedBy : Nat)
  deriving DecidableEq

/-- The stores left of a process's call, and the activation that it is in. History variables are the
number of activations so far, those that stored the flag and the position last, and whether the flag
has been set ahead of its position and no position has been stored since. -/
structure State where
  info : Info
  stores : Owner → List Store
  activated : Owner → Option Nat
  activations : Nat
  setBy : Nat
  storedBy : Nat
  ahead : Bool
  scans : Nat → Option Scan

inductive Action
  | alloc (p : Owner)
  | activate (p : Owner) (language : Language) (pos : Position)
  | deactivate (p : Owner)
  | free (p : Owner)
  | publish (p : Owner) (pos : Position)
  | step (p : Owner)
  | die (p : Owner)
  | loadActive (k : Nat)
  | loadPosition (k : Nat)

def Scan.stored : Scan → Scan
  | .seen activation _ => .seen activation false
  | scan => scan

namespace State

def store (s : State) (rest : List Store) : Store → State
  | .position activation pos =>
    { s with info := { s.info with position := pos }, storedBy := activation, ahead := false
             scans := fun k => (s.scans k).map Scan.stored }
  | .setActive activation =>
    { s with info := { s.info with isActive := true }, setBy := activation
             ahead := s.ahead || !rest.isEmpty }
  | .clearActive => { s with info := { s.info with isActive := false } }
  | .unlock => { s with info := { s.info with lock := s.info.lock.unlock } }

def call (s : State) (p : Owner) (stores : List Store) (activated : Option Nat) : State :=
  { s with stores := Function.update s.stores p stores
           activated := Function.update s.activated p activated }

def scan (s : State) (k : Nat) (scan : Scan) : State :=
  { s with scans := Function.update s.scans k (some scan) }

end State

def Idle (s : State) (p : Owner) : Prop := s.stores p = [] ∧ s.info.lock = .locked p

instance (s : State) (p : Owner) : Decidable (Idle s p) := inferInstanceAs (Decidable (_ ∧ _))

def next (s : State) : Action → Option State
  | .alloc p =>
    if s.stores p = [] then (s.info.lock.tryLock p).map (fun lock =>
      { s with info := { s.info with lock := lock } }.call p allocStores none)
    else none
  | .activate p language pos =>
    if Idle s p then
      some ({ s with activations := s.activations + 1 }.call p
        (activateStores (s.activations + 1) pos language) (some (s.activations + 1)))
    else none
  | .deactivate p => if Idle s p then some (s.call p deactivateStores none) else none
  | .free p => if Idle s p then some (s.call p freeStores none) else none
  | .publish p pos =>
    if Idle s p then (s.activated p).map (fun activation => s.store [] (.position activation pos)) else none
  | .step p =>
    match s.stores p with
    | store :: rest => some ({ s with stores := Function.update s.stores p rest }.store rest store)
    | [] => none
  | .die p => some ({ s with info := { s.info with lock := s.info.lock.ownerDies p } }.call p [] none)
  | .loadActive k =>
    match s.scans k with
    | none => some (if s.info.isActive then s.scan k (.seen s.setBy s.ahead) else s)
    | some _ => none
  | .loadPosition k =>
    match s.scans k with
    | some (.seen activation _) => some (s.scan k (.judged activation s.info.position s.storedBy))
    | _ => none

def start : State where
  info := ⟨.unlocked,0,false⟩
  stores _ := []
  activated _ := none
  activations := 0
  setBy := 0
  storedBy := 0
  ahead := false
  scans _ := none

def sys : System State Action := .ofNext (fun s => s = start) next

/-- No scan makes both its loads between the two stores of one Java `Activate`. -/
def allowed (s : State) : Action → Bool
  | .loadPosition k =>
    match s.scans k with
    | some (.seen _ early) => !early
    | _ => true
  | _ => true

def cppOnly (_ : State) : Action → Bool
  | .activate _ language _ => language == .cpp
  | _ => true

def Current (s : State) : Prop :=
  ∀ k activation pos storedBy, s.scans k = some (.judged activation pos storedBy) → activation ≤ storedBy

def CallOk (s : State) : List Store → Prop
  | [.position n _,.setActive m] => n = s.activations ∧ m = n
  | [.setActive n,.position m _] => n = s.activations ∧ m = n ∧ s.storedBy < n
  | [.setActive n] => n = s.activations ∧ s.storedBy = n
  | [.position n _] => n = s.activations
  | [.clearActive,.unlock] | [.clearActive] | [.unlock] | [] => True
  | _ => False

structure Inv (s : State) : Prop where
  storing : ∀ p, s.stores p ≠ [] → s.info.lock = .locked p
  activated : ∀ p n, s.activated p = some n → s.info.lock = .locked p ∧ n = s.activations
  freeing : ∀ p, .unlock ∈ s.stores p → s.activated p = none
  calls : ∀ p, CallOk s (s.stores p)
  bounds : s.setBy ≤ s.activations ∧ s.storedBy ≤ s.activations
  order : s.storedBy < s.setBy ↔ s.ahead = true
  scans : ∀ k n early, s.scans k = some (.seen n early) →
    n ≤ s.activations ∧ (s.storedBy < n ↔ early = true)

section
variable {s t : State} {p q : Owner} {first : Store} {stores rest : List Store} {action : Action}

theorem Inv.alone (inv : Inv s) (others : ∀ o, s.info.lock = .locked o → o = p) (other : q ≠ p) :
    s.stores q = [] ∧ s.activated q = none := by
  constructor
  · by_contra storing
    exact other (others q (inv.storing q storing))
  · rw [Option.eq_none_iff_forall_not_mem]
    intro n inside
    exact other (others q (inv.activated q n inside).1)

theorem others_of_own (own : s.info.lock = .locked p) (o : Owner) (locked : s.info.lock = .locked o) : o = p := by
  rw [own] at locked
  exact (RobustProcMutex.locked.inj locked).symm

theorem Inv.call (inv : Inv s) (others : ∀ o, s.info.lock = .locked o → o = p) {lock : RobustProcMutex}
    {n : Nat} (more : s.activations ≤ n) (own : lock = .locked p) {activated : Option Nat}
    (ok : CallOk { s with activations := n } stores) (its : ∀ m, activated = some m → m = n)
    (freeing : .unlock ∈ stores → activated = none) :
    Inv (({ s with info := { s.info with lock := lock }, activations := n } : State).call p stores activated) where
  storing q storing := by
    rcases eq_or_ne q p with rfl | other
    · exact own
    · simp only [State.call,Function.update_of_ne other] at storing
      exact absurd (inv.alone others other).1 storing
  activated q m inside := by
    rcases eq_or_ne q p with rfl | other
    · simp only [State.call,Function.update_self] at inside
      exact ⟨own,its m inside⟩
    · simp only [State.call,Function.update_of_ne other,(inv.alone others other).2] at inside
      contradiction
  freeing q unlock := by
    rcases eq_or_ne q p with rfl | other
    · simp only [State.call,Function.update_self] at unlock ⊢
      exact freeing unlock
    · simp only [State.call,Function.update_of_ne other]
      exact (inv.alone others other).2
  calls q := by
    rcases eq_or_ne q p with rfl | other
    · simp only [State.call,Function.update_self]
      exact ok
    · simp only [State.call,Function.update_of_ne other,(inv.alone others other).1]
      trivial
  bounds := ⟨inv.bounds.1.trans more,inv.bounds.2.trans more⟩
  order := inv.order
  scans k m early seen := by
    obtain ⟨bound,iff⟩ := inv.scans k m early seen
    exact ⟨bound.trans more,iff⟩

theorem callOk_position {n : Nat} {pos : Position} (ok : CallOk s (.position n pos :: rest)) :
    n = s.activations ∧ (rest = [.setActive n] ∨ rest = []) := by
  match rest, ok with
  | [.setActive m], ok => exact ⟨ok.1,Or.inl (ok.2 ▸ rfl)⟩
  | [], ok => exact ⟨ok,Or.inr rfl⟩

theorem callOk_setActive {n : Nat} (ok : CallOk s (.setActive n :: rest)) :
    n = s.activations ∧ ((∃ pos, rest = [.position n pos]) ∧ s.storedBy < n ∨ rest = [] ∧ s.storedBy = n) := by
  match rest, ok with
  | [.position m pos], ok => exact ⟨ok.1,Or.inl ⟨⟨pos,ok.2.1 ▸ rfl⟩,ok.2.2⟩⟩
  | [], ok => exact ⟨ok.1,Or.inr ⟨rfl,ok.2⟩⟩

theorem callOk_unlock (ok : CallOk s (.unlock :: rest)) : rest = [] := by
  match rest, ok with
  | [], _ => rfl

theorem callOk_tail (ok : CallOk s (.clearActive :: rest)) : CallOk t rest := by
  match rest, ok with
  | [.unlock], _ => trivial
  | [], _ => trivial

theorem Inv.store (inv : Inv s) (own : s.info.lock = .locked p) (ok : CallOk s (first :: rest))
    (freeing : .unlock ∈ first :: rest → s.activated p = none) :
    Inv (({ s with stores := Function.update s.stores p rest } : State).store rest first) := by
  have alone (q : Owner) (other : q ≠ p) := inv.alone (others_of_own own) other
  have quiet (t : State) (mine : CallOk t rest) (q : Owner) :
      CallOk t (Function.update s.stores p rest q) := by
    rcases eq_or_ne q p with rfl | other
    · rw [Function.update_self]
      exact mine
    · rw [Function.update_of_ne other,(alone q other).1]
      trivial
  have storing (q : Owner) (more : Function.update s.stores p rest q ≠ []) : s.info.lock = .locked q := by
    rcases eq_or_ne q p with rfl | other
    · exact own
    · rw [Function.update_of_ne other] at more
      exact inv.storing q more
  have released (q : Owner) (unlock : .unlock ∈ Function.update s.stores p rest q) : s.activated q = none := by
    rcases eq_or_ne q p with rfl | other
    · rw [Function.update_self] at unlock
      exact freeing (List.mem_cons_of_mem _ unlock)
    · exact (alone q other).2
  cases first with
  | position n pos =>
    obtain ⟨rfl,more⟩ := callOk_position ok
    refine ⟨storing,inv.activated,released,quiet _ ?_,⟨inv.bounds.1,le_rfl⟩,?_,?_⟩
    · rcases more with rfl | rfl
      · exact ⟨rfl,rfl⟩
      · trivial
    · exact iff_of_false (Nat.not_lt.mpr inv.bounds.1) Bool.false_ne_true
    · intro k m early seen
      simp only [State.store,Option.map_eq_some_iff] at seen
      obtain ⟨scan,there,stored⟩ := seen
      cases scan with
      | judged => exact nomatch stored
      | seen a before =>
        obtain ⟨rfl,rfl⟩ := Scan.seen.inj stored
        have bound := (inv.scans k a before there).1
        exact ⟨bound,iff_of_false (Nat.not_lt.mpr bound) Bool.false_ne_true⟩
  | setActive n =>
    obtain ⟨rfl,⟨⟨pos,rfl⟩,behind⟩ | ⟨rfl,stored⟩⟩ := callOk_setActive ok
    · refine ⟨storing,inv.activated,released,quiet _ rfl,⟨le_rfl,inv.bounds.2⟩,?_,inv.scans⟩
      simp only [State.store,List.isEmpty_cons,Bool.not_false,Bool.or_true]
      exact iff_of_true behind trivial
    · refine ⟨storing,inv.activated,released,quiet _ trivial,⟨le_rfl,inv.bounds.2⟩,?_,inv.scans⟩
      have placed : ¬ s.ahead = true := by
        rw [← inv.order,stored]
        exact Nat.not_lt.mpr inv.bounds.1
      simp only [State.store,List.isEmpty_nil,Bool.not_true,Bool.or_false]
      exact iff_of_false (Nat.not_lt.mpr stored.ge) placed
  | clearActive => exact ⟨storing,inv.activated,released,quiet _ (callOk_tail ok),inv.bounds,inv.order,inv.scans⟩
  | unlock =>
    obtain rfl := callOk_unlock ok
    refine ⟨?_,?_,released,quiet _ trivial,inv.bounds,inv.order,inv.scans⟩
    · intro q more
      rcases eq_or_ne q p with rfl | other
      · simp [State.store] at more
      · simp only [State.store,Function.update_of_ne other] at more
        exact absurd (alone q other).1 more
    · intro q m activated
      rcases eq_or_ne q p with rfl | other
      · rw [State.store,freeing List.mem_cons_self] at activated
        contradiction
      · simp only [State.store,(alone q other).2] at activated
        contradiction

/-- A store behind the last of a call: a publication. -/
theorem Inv.publish (inv : Inv s) (own : s.info.lock = .locked p) (idle : s.stores p = []) {n : Nat}
    (inside : s.activated p = some n) (pos : Position) : Inv (s.store [] (.position n pos)) := by
  have ok : CallOk s [.position n pos] := (inv.activated p n inside).2
  have stored := inv.store own ok (by simp)
  rw [← idle,Function.update_eq_self] at stored
  rw [← idle]
  exact stored

theorem Inv.die (inv : Inv s) (p : Owner) :
    Inv (({ s with info := { s.info with lock := s.info.lock.ownerDies p } } : State).call p [] none) where
  storing q storing := by
    rcases eq_or_ne q p with rfl | other
    · simp [State.call] at storing
    · simp only [State.call,Function.update_of_ne other] at storing
      exact RobustProcMutex.ownerDies_eq_locked.mpr ⟨inv.storing q storing,other⟩
  activated q n inside := by
    rcases eq_or_ne q p with rfl | other
    · simp [State.call] at inside
    · simp only [State.call,Function.update_of_ne other] at inside
      obtain ⟨own,latest⟩ := inv.activated q n inside
      exact ⟨RobustProcMutex.ownerDies_eq_locked.mpr ⟨own,other⟩,latest⟩
  freeing q unlock := by
    rcases eq_or_ne q p with rfl | other
    · simp [State.call]
    · simp only [State.call,Function.update_of_ne other] at unlock ⊢
      exact inv.freeing q unlock
  calls q := by
    rcases eq_or_ne q p with rfl | other
    · simp only [State.call,Function.update_self]
      trivial
    · simp only [State.call,Function.update_of_ne other]
      exact inv.calls q
  bounds := inv.bounds
  order := inv.order
  scans := inv.scans

theorem Inv.scan (inv : Inv s) (k : Nat) {scan : Scan}
    (ok : ∀ n early, scan = .seen n early → n ≤ s.activations ∧ (s.storedBy < n ↔ early = true)) :
    Inv (s.scan k scan) := by
  refine ⟨inv.storing,inv.activated,inv.freeing,inv.calls,inv.bounds,inv.order,?_⟩
  intro j n early seen
  rcases eq_or_ne j k with rfl | other
  · simp only [State.scan,Function.update_self,Option.some.injEq] at seen
    exact ok n early seen
  · simp only [State.scan,Function.update_of_ne other] at seen
    exact inv.scans j n early seen

theorem Inv.step (inv : Inv s) (stepped : next s action = some t) : Inv t := by
  cases action with
  | alloc p =>
    obtain ⟨_,called⟩ := Option.ite_none_right_eq_some.mp stepped
    obtain ⟨lock,taken,rfl⟩ := Option.map_eq_some_iff.mp called
    obtain ⟨free,own⟩ := RobustProcMutex.tryLock_eq_some.mp taken
    exact inv.call (fun o locked => absurd locked (free o)) le_rfl own trivial nofun (by simp)
  | activate p language pos =>
    obtain ⟨⟨_,own⟩,called⟩ := Option.ite_none_right_eq_some.mp stepped
    obtain rfl := Option.some.inj called
    refine inv.call (others_of_own own) (Nat.le_succ _) own ?_ ?_ ?_
    · cases language with
      | cpp => exact ⟨rfl,rfl⟩
      | java => exact ⟨rfl,rfl,Nat.lt_succ_of_le inv.bounds.2⟩
    · exact fun m same => (Option.some.inj same).symm
    · cases language <;> simp [activateStores]
  | deactivate p | free p =>
    obtain ⟨⟨_,own⟩,called⟩ := Option.ite_none_right_eq_some.mp stepped
    obtain rfl := Option.some.inj called
    exact inv.call (others_of_own own) le_rfl own trivial nofun fun _ => rfl
  | publish p pos =>
    obtain ⟨⟨idle,own⟩,called⟩ := Option.ite_none_right_eq_some.mp stepped
    obtain ⟨n,inside,rfl⟩ := Option.map_eq_some_iff.mp called
    exact inv.publish own idle inside pos
  | step p =>
    simp only [next] at stepped
    split at stepped
    next first rest left =>
      obtain rfl := Option.some.inj stepped
      have ok := inv.calls p
      have freeing := inv.freeing p
      rw [left] at ok freeing
      exact inv.store (inv.storing p (by rw [left]; exact List.cons_ne_nil _ _)) ok freeing
    next => contradiction
  | die p =>
    obtain rfl := Option.some.inj stepped
    exact inv.die p
  | loadActive k =>
    simp only [next] at stepped
    split at stepped
    next =>
      obtain rfl := Option.some.inj stepped
      split
      next =>
        apply inv.scan
        intro n early same
        obtain ⟨rfl,rfl⟩ := Scan.seen.inj same
        exact ⟨inv.bounds.1,inv.order⟩
      next => exact inv
    next => contradiction
  | loadPosition k =>
    simp only [next] at stepped
    split at stepped
    next n early seen =>
      obtain rfl := Option.some.inj stepped
      exact inv.scan k nofun
    next => contradiction

theorem inv_start : Inv start where
  storing := nofun
  activated := nofun
  freeing := nofun
  calls _ := trivial
  bounds := ⟨le_rfl,le_rfl⟩
  order := iff_of_false (Nat.lt_irrefl _) Bool.false_ne_true
  scans := nofun

theorem reachable_inv (reached : Reachable sys s) : Inv s := by
  refine reached.invariant Inv ?_ ?_
  · intro s new
    obtain rfl : s = start := new
    exact inv_start
  · exact fun s action t inv stepped => inv.step stepped

theorem store_judged {k n stamp : Nat} {pos : Position}
    (judged : (s.store rest first).scans k = some (.judged n pos stamp)) :
    s.scans k = some (.judged n pos stamp) := by
  cases first with
  | position =>
    simp only [State.store,Option.map_eq_some_iff] at judged
    obtain ⟨scan,there,same⟩ := judged
    cases scan with
    | seen => exact nomatch same
    | judged => exact there.trans (congrArg some same)
  | setActive | clearActive | unlock => exact judged

theorem next_cases (stepped : next s action = some t) :
    (∃ p info n stores activated,
      t = ({ s with info := info, activations := n } : State).call p stores activated ∧
        ∀ n rest, stores = .setActive n :: rest → ∃ pos, action = .activate p .java pos) ∨
    (∃ p first rest, t = ({ s with stores := Function.update s.stores p rest } : State).store rest first ∧
      (s.stores p = first :: rest ∨ rest = [] ∧ ∃ n pos, first = .position n pos)) ∨
    (∃ k, action = .loadActive k ∧ (t = s ∨ t = s.scan k (.seen s.setBy s.ahead))) ∨
    ∃ k n early, action = .loadPosition k ∧ s.scans k = some (.seen n early) ∧
      t = s.scan k (.judged n s.info.position s.storedBy) := by
  cases action with
  | alloc p =>
    obtain ⟨_,called⟩ := Option.ite_none_right_eq_some.mp stepped
    obtain ⟨lock,_,rfl⟩ := Option.map_eq_some_iff.mp called
    exact Or.inl ⟨p,_,_,_,_,rfl,nofun⟩
  | activate p language pos =>
    obtain ⟨_,called⟩ := Option.ite_none_right_eq_some.mp stepped
    refine Or.inl ⟨p,_,_,_,_,(Option.some.inj called).symm,?_⟩
    intro n rest left
    cases language with
    | cpp => exact nomatch left
    | java => exact ⟨pos,rfl⟩
  | deactivate p | free p =>
    obtain ⟨_,called⟩ := Option.ite_none_right_eq_some.mp stepped
    exact Or.inl ⟨p,s.info,s.activations,_,_,(Option.some.inj called).symm,nofun⟩
  | publish p pos =>
    obtain ⟨⟨idle,_⟩,called⟩ := Option.ite_none_right_eq_some.mp stepped
    obtain ⟨n,_,rfl⟩ := Option.map_eq_some_iff.mp called
    refine Or.inr (Or.inl ⟨p,_,[],?_,Or.inr ⟨rfl,n,pos,rfl⟩⟩)
    rw [← idle,Function.update_eq_self]
  | step p =>
    simp only [next] at stepped
    split at stepped
    next left => exact Or.inr (Or.inl ⟨p,_,_,(Option.some.inj stepped).symm,Or.inl left⟩)
    next => contradiction
  | die p => exact Or.inl ⟨p,_,s.activations,_,_,(Option.some.inj stepped).symm,nofun⟩
  | loadActive k =>
    simp only [next] at stepped
    split at stepped
    next =>
      obtain rfl := Option.some.inj stepped
      refine Or.inr (Or.inr (Or.inl ⟨k,rfl,?_⟩))
      split
      next => exact Or.inr rfl
      next => exact Or.inl rfl
    next => contradiction
  | loadPosition k =>
    simp only [next] at stepped
    split at stepped
    next n early seen =>
      exact Or.inr (Or.inr (Or.inr ⟨k,n,early,rfl,seen,(Option.some.inj stepped).symm⟩))
    next => contradiction

theorem scan_judged {j k n stamp : Nat} {pos : Position} {scan : Scan}
    (judged : (s.scan j scan).scans k = some (.judged n pos stamp)) :
    k = j ∧ scan = .judged n pos stamp ∨ s.scans k = some (.judged n pos stamp) := by
  rcases eq_or_ne k j with rfl | other
  · simp only [State.scan,Function.update_self,Option.some.injEq] at judged
    exact Or.inl ⟨rfl,judged⟩
  · simp only [State.scan,Function.update_of_ne other] at judged
    exact Or.inr judged

/-- What a scan judges by is read in its second load. -/
theorem judged_of_next (stepped : next s action = some t) {k n stamp : Nat} {pos : Position}
    (judged : t.scans k = some (.judged n pos stamp)) : s.scans k = some (.judged n pos stamp) ∨
      ∃ early, action = .loadPosition k ∧ s.scans k = some (.seen n early) ∧ stamp = s.storedBy := by
  rcases next_cases stepped with ⟨p,_,_,_,_,rfl,_⟩ | ⟨p,_,_,rfl,_⟩ | ⟨j,rfl,rfl | rfl⟩ | ⟨j,m,early,rfl,seen,rfl⟩
  · exact Or.inl judged
  · have before := store_judged judged
    exact Or.inl before
  · exact Or.inl judged
  · rcases scan_judged judged with ⟨_,same⟩ | before
    · exact nomatch same
    · exact Or.inl before
  · rcases scan_judged judged with ⟨rfl,same⟩ | before
    · obtain ⟨rfl,_,rfl⟩ := Scan.judged.inj same
      exact Or.inr ⟨early,rfl,seen,rfl⟩
    · exact Or.inl before

theorem Current.step (current : Current s) (inv : Inv s) (ok : allowed s action = true)
    (stepped : next s action = some t) : Current t := by
  intro k n pos stamp judged
  rcases judged_of_next stepped judged with before | ⟨early,rfl,seen,rfl⟩
  · exact current k n pos stamp before
  · apply Nat.le_of_not_lt
    rw [(inv.scans k n early seen).2]
    simpa [allowed,seen] using ok

theorem reachable_current (reached : Reachable (sys.restrict (fun s action => allowed s action = true)) s) :
    Current s := by
  refine reached.invariant_with Inv Current ?_ ?_ ?_
  · intro s new
    obtain rfl : s = start := new
    exact nofun
  · exact fun s reached => reachable_inv reached.unrestrict
  · exact fun s action t inv current stepped => current.step inv stepped.1 stepped.2

structure Plain (s : State) : Prop where
  placed : s.ahead = false
  calls : ∀ p n rest, s.stores p = .setActive n :: rest → rest = []
  scans : ∀ k n early, s.scans k = some (.seen n early) → early = false

theorem callOk_second {n : Nat} {more : List Store} (ok : CallOk s (first :: .setActive n :: more)) :
    more = [] := by
  cases first with
  | position =>
    rcases (callOk_position ok).2 with two | one
    · exact (List.cons.inj two).2
    · contradiction
  | setActive =>
    rcases (callOk_setActive ok).2 with ⟨⟨_,two⟩,_⟩ | ⟨one,_⟩
    · contradiction
    · contradiction
  | clearActive => exact ok.elim
  | unlock => exact nomatch callOk_unlock ok

theorem Plain.store (plain : Plain s) (inv : Inv s)
    (left : s.stores p = first :: rest ∨ rest = [] ∧ ∃ n pos, first = .position n pos) :
    Plain (({ s with stores := Function.update s.stores p rest } : State).store rest first) := by
  have calls (q : Owner) (n : Nat) (more : List Store)
      (two : Function.update s.stores p rest q = .setActive n :: more) : more = [] := by
    rcases eq_or_ne q p with rfl | other
    · rw [Function.update_self] at two
      rcases left with left | ⟨none,_⟩
      · have ok := inv.calls q
        rw [left,two] at ok
        exact callOk_second ok
      · rw [none] at two
        contradiction
    · rw [Function.update_of_ne other] at two
      exact plain.calls q n more two
  cases first with
  | position n pos =>
    refine ⟨rfl,calls,?_⟩
    intro k n early seen
    simp only [State.store,Option.map_eq_some_iff] at seen
    obtain ⟨scan,there,same⟩ := seen
    cases scan with
    | seen => exact (Scan.seen.inj same).2.symm
    | judged => exact nomatch same
  | setActive n =>
    refine ⟨?_,calls,plain.scans⟩
    rcases left with left | ⟨_,_,_,other⟩
    · rw [State.store,plain.calls p n rest left,plain.placed]
      rfl
    · contradiction
  | clearActive | unlock => exact ⟨plain.placed,calls,plain.scans⟩

theorem Plain.step (plain : Plain s) (inv : Inv s) (ok : cppOnly s action = true)
    (stepped : next s action = some t) : Plain t := by
  rcases next_cases stepped with ⟨p,_,_,stores,_,rfl,java⟩ | ⟨p,first,rest,rfl,left⟩ | ⟨j,rfl,rfl | rfl⟩ |
    ⟨j,m,early,rfl,seen,rfl⟩
  · refine ⟨plain.placed,?_,plain.scans⟩
    intro q n rest left
    rcases eq_or_ne q p with rfl | other
    · simp only [State.call,Function.update_self] at left
      obtain ⟨pos,rfl⟩ := java n rest left
      contradiction
    · simp only [State.call,Function.update_of_ne other] at left
      exact plain.calls q n rest left
  · exact plain.store inv left
  · exact plain
  · refine ⟨plain.placed,plain.calls,?_⟩
    intro k n early seen
    rcases eq_or_ne k j with rfl | other
    · simp only [State.scan,Function.update_self,Option.some.injEq] at seen
      obtain ⟨_,rfl⟩ := Scan.seen.inj seen
      exact plain.placed
    · simp only [State.scan,Function.update_of_ne other] at seen
      exact plain.scans k n early seen
  · refine ⟨plain.placed,plain.calls,?_⟩
    intro k n early seen
    rcases eq_or_ne k j with rfl | other
    · simp [State.scan] at seen
    · simp only [State.scan,Function.update_of_ne other] at seen
      exact plain.scans k n early seen

theorem reachable_plain (reached : Reachable (sys.restrict (fun s action => cppOnly s action = true)) s) :
    Plain s := by
  refine reached.invariant_with Inv Plain ?_ ?_ ?_
  · intro s new
    obtain rfl : s = start := new
    exact ⟨rfl,nofun,nofun⟩
  · exact fun s reached => reachable_inv reached.unrestrict
  · exact fun s action t inv plain stepped => plain.step inv stepped.1 stepped.2

theorem Plain.allowed (plain : Plain s) (action : Action) : allowed s action = true := by
  unfold StalePositions.allowed
  split
  next k =>
    split
    next n early seen => rw [plain.scans k n early seen]; rfl
    next => rfl
  next => rfl

/-- No scan judges by a stale position in a run in which none makes both its loads between the two
stores of a Java `Activate`, and so in every run of C++ owners. In any run it is exactly such a scan
that finds a position from before the activation it has seen. -/
theorem positions_current (s : State) :
    (Reachable (sys.restrict (fun s action => allowed s action = true)) s → Current s) ∧
    (Reachable (sys.restrict (fun s action => cppOnly s action = true)) s → Current s) ∧
    (Reachable sys s → ∀ k n early, s.scans k = some (.seen n early) → (n ≤ s.storedBy ↔ early = false)) := by
  refine ⟨fun reached => reachable_current reached,?_,?_⟩
  · intro reached
    apply reachable_current
    apply reached.weaken
    exact fun s action reached _ => (reachable_plain reached).allowed action
  · intro reached k n early seen
    have order := ((reachable_inv reached).scans k n early seen).2
    rw [← Nat.not_lt,order,Bool.not_eq_true]

end

/-- A Java owner dies in its activation, a C++ one takes the slot, and a scan that has seen the
former's flag reads what the latter has published. -/
theorem positions_current_successor :
    ∃ s : State, s.scans 0 = some (.judged 1 24 2) ∧ Current s := by
  obtain ⟨s,reached,seen⟩ := exec_reaches sys allowed next (fun _ _ _ taken => taken) (s := start) rfl
    [.alloc 0,.step 0,.activate 0 .java 8,.step 0,.step 0,.loadActive 0,.die 0,.alloc 1,.step 1,
      .activate 1 .cpp 16,.step 1,.step 1,.publish 1 24,.loadPosition 0]
    (fun s => s.scans 0) (some (.judged 1 24 2)) rfl
  exact ⟨s,seen,(positions_current s).1 reached⟩

/-- A Java reader is activated for the second time, and a scan finds the flag of this activation with
the position of the first. -/
theorem not_positions_current : ¬ ∀ s, Reachable sys s → Current s := by
  intro current
  obtain ⟨s,reached,seen⟩ := exec_reaches sys (fun _ _ => true) next (fun _ _ _ taken => taken)
    (s := start) rfl
    [.alloc 0,.step 0,.activate 0 .java 8,.step 0,.step 0,.deactivate 0,.step 0,.activate 0 .java 16,
      .step 0,.loadActive 0,.loadPosition 0]
    (fun s => s.scans 0) (some (.judged 2 8 1)) rfl
  have ordered := current s reached.unrestrict 0 2 8 1 seen
  omega

end Toroni.Rmp.StalePositions
