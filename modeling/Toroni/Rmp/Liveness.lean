import Toroni.Library.Fairness
import Toroni.Rmp.Progress

/-! What happens in the end when every party goes on: writers that wait for readers get through,
and every message that is published arrives at every active reader. -/
namespace Toroni.Rmp
open CircularMemory Reader Traits Writer

theorem ReaderState.reading_or_done {rb : ByteRingBuffer} {r r' : ReaderState} (stepped : r.step rb = some r') :
    r'.reading = true ∨ ∃ result, r'.pc = .done result := by
  have kept := (ReaderState.step_ends stepped).2.2.2
  cases pc : r'.pc with
  | idle => exact absurd pc kept
  | done result => exact Or.inr ⟨result,rfl⟩
  | _ => simp [ReaderState.reading,pc]

namespace Interleaved
open Transition

def Action.on (i : Nat) : Action → Bool
  | .activate j | .deactivate j | .call j | .read j => j == i
  | _ => false

section
variable {size : RingSize} {s t : State} {i x : Nat} {action : Action}

theorem Action.on_cases (on : action.on i = true) :
    action = .activate i ∨ action = .deactivate i ∨ action = .call i ∨ action = .read i := by
  cases action <;> simp_all [Action.on]

theorem on_frame (stepped : next size s action = some t) (off : action.on i = false) :
    t.isActive i = s.isActive i ∧ (t.ri.info i).position = (s.ri.info i).position ∧ t.reader i = s.reader i := by
  cases action with
  | begin | finish | die =>
    obtain ⟨w,_,rfl⟩ := Option.map_eq_some_iff.mp stepped
    exact ⟨rfl,rfl,rfl⟩
  | store =>
    simp only [next] at stepped
    split at stepped
    next =>
      obtain ⟨w,_,rfl⟩ := Option.map_eq_some_iff.mp stepped
      exact ⟨rfl,rfl,rfl⟩
    next => contradiction
  | check =>
    obtain ⟨check,rfl⟩ := State.detect_cases stepped
    exact ⟨rfl,rfl,rfl⟩
  | answer answer =>
    obtain ⟨v,check,rfl,_,_⟩ := State.answer_cases stepped
    exact ⟨rfl,rfl,rfl⟩
  | activate j =>
    have away : i ≠ j := fun same => by simp [Action.on,same] at off
    simp only [next] at stepped
    split at stepped
    next =>
      obtain rfl := Option.some.inj stepped
      refine ⟨?_,?_,?_⟩
      · simp [State.isActive,ReaderInfo.isActive_activate,away]
      · simp [position_activate,away]
      · simp [away]
    next => contradiction
  | deactivate j =>
    have away : i ≠ j := fun same => by simp [Action.on,same] at off
    simp only [next] at stepped
    split at stepped
    next =>
      obtain rfl := Option.some.inj stepped
      refine ⟨?_,?_,rfl⟩
      · simp [State.isActive,ReaderInfo.isActive_deactivate,away]
      · simp [ReaderInfo.deactivate,ReaderInfo.updateActiveRange,ReaderInfo.setActive,away]
    next => contradiction
  | call j =>
    have away : i ≠ j := fun same => by simp [Action.on,same] at off
    simp only [next] at stepped
    split at stepped
    next =>
      obtain rfl := Option.some.inj stepped
      exact ⟨rfl,rfl,by simp [away]⟩
    next => contradiction
  | read j =>
    have away : i ≠ j := fun same => by simp [Action.on,same] at off
    obtain ⟨r,_,rfl⟩ := Option.map_eq_some_iff.mp stepped
    refine ⟨?_,?_,?_⟩
    · simp [State.isActive,ReaderInfo.isActive_setPosition]
    · simp [ReaderInfo.setPosition,away]
    · simp [away]

theorem ledger_grows (stepped : next size s action = some t) :
    t.shared.ledger.base = s.shared.ledger.base ∧ ∃ more, t.shared.ledger.log = s.shared.ledger.log ++ more := by
  rcases (next_frame (i := 0) stepped).1 with same | rfl
  · rw [same]
    exact ⟨rfl,[],(List.append_nil _).symm⟩
  · simp only [next] at stepped
    split at stepped
    next =>
      obtain ⟨w,stored,rfl⟩ := Option.map_eq_some_iff.mp stepped
      obtain ⟨_,_,_,⟨_,_,_,_,ledger⟩ | ⟨_,_,_,_,ledger⟩⟩ := Shared.store_cases stored
      · dsimp only
        rw [ledger]
        exact ⟨rfl,[],(List.append_nil _).symm⟩
      · dsimp only
        rw [ledger]
        exact ⟨rfl,_,rfl⟩
    next => contradiction

structure Owes (i x : Nat) (s : State) : Prop where
  active : s.isActive i = true
  before : (s.reader i).at_ < x
  target : ∃ more, s.shared.ledger.Boundary x more

def Passed (i x : Nat) (s : State) : Prop := s.isActive i = false ∨ x ≤ (s.reader i).at_

inductive Way (i : Nat) (s t : State) (action : Action) : Prop
  | other (same : t.reader i = s.reader i) (position : (t.ri.info i).position = (s.ri.info i).position)
      (notRead : action.reads i = false) (notCall : action.calls i = false)
  | call (idle : (s.reader i).reading = false) (called : t.reader i = { s.reader i with pc := .entry })
      (position : (t.ri.info i).position = (s.ri.info i).position)
  | read (stepped : (s.reader i).step s.shared.rb = some (t.reader i))
      (position : (t.ri.info i).position = (t.reader i).bpos)

theorem way_cases (stepped : next size s action = some t) :
    Way i s t action ∧ t.isActive i = s.isActive i ∨
      t.isActive i = false ∧ (t.ri.info i).position = (s.ri.info i).position ∨
      (t.reader i).at_ = t.shared.ledger.free ∧ (t.ri.info i).position = t.shared.rb.freePos := by
  by_cases on : action.on i = true
  · rcases Action.on_cases on with rfl | rfl | rfl | rfl
    · simp only [next] at stepped
      split at stepped
      next =>
        obtain rfl := Option.some.inj stepped
        exact Or.inr (Or.inr ⟨by simp,by simp [position_activate]⟩)
      next => contradiction
    · simp only [next] at stepped
      split at stepped
      next =>
        obtain rfl := Option.some.inj stepped
        refine Or.inr (Or.inl ⟨?_,?_⟩)
        · simp [State.isActive,ReaderInfo.isActive_deactivate]
        · simp [ReaderInfo.deactivate,ReaderInfo.updateActiveRange,ReaderInfo.setActive]
      next => contradiction
    · simp only [next] at stepped
      split at stepped
      next ready =>
        obtain rfl := Option.some.inj stepped
        exact Or.inl ⟨.call ready.2 (by simp) rfl,rfl⟩
      next => contradiction
    · obtain ⟨r,read,rfl⟩ := Option.map_eq_some_iff.mp stepped
      exact Or.inl ⟨.read (by simpa using read) (by simp [ReaderInfo.setPosition]),
        by simp [State.isActive,ReaderInfo.isActive_setPosition]⟩
  · have off : action.on i = false := by simpa using on
    obtain ⟨active,position,reader⟩ := on_frame stepped off
    refine Or.inl ⟨.other reader position ?_ ?_,active⟩
    · cases action <;> simp_all [Action.on,Action.reads]
    · cases action <;> simp_all [Action.on,Action.calls]

theorem Owes.step (owes : Owes i x s) (stepped : next size s action = some t) :
    Passed i x t ∨ Owes i x t ∧ Way i s t action := by
  obtain ⟨base,more,log⟩ := ledger_grows stepped
  obtain ⟨rest,target⟩ := owes.target
  have kept := target.grow base log
  by_cases passed : Passed i x t
  · exact Or.inl passed
  · simp only [Passed,not_or,Nat.not_le,Bool.not_eq_false] at passed
    refine Or.inr ⟨⟨passed.1,passed.2,_,kept⟩,?_⟩
    rcases way_cases stepped with ⟨way,_⟩ | ⟨idle,_⟩ | ⟨there,_⟩
    · exact way
    · rw [passed.1] at idle
      contradiction
    · have := kept.le
      omega

end

def Action.checks : Action → Bool
  | .check => true
  | _ => false

def Action.answers : Action → Bool
  | .answer _ => true
  | _ => false

def Action.stores : Action → Bool
  | .store => true
  | _ => false

abbrev waiting (size : RingSize) : System State Action :=
  (sys size).restrict (fun s action => waits size s action = true)

/-- An infinite run in which every party goes on. An active reader calls `ReadEx` again and again
and does not stop inside it; a writer takes its steps, and its handler answers. No writer dies
and no handler throws. -/
structure Alive {size : RingSize} (ρ : Trace (waiting size)) : Prop where
  initial : (sys size).init (ρ.state 0)
  calls : ∀ i, ρ.Fair (fun action => action.calls i = true)
    (fun s => s.isActive i = true ∧ (s.reader i).reading = false)
  reads : ∀ i, ρ.Fair (fun action => action.reads i = true) (fun s => (s.reader i).reading = true)
  checks : ρ.Fair (fun action => action.checks = true)
    (fun s => ∃ pc data, s.check = some (pc,data) ∧ pc ≠ .backpressure)
  answers : ρ.Fair (fun action => action.answers = true) (fun s => ∃ data, s.check = some (.backpressure,data))
  stores : ρ.Fair (fun action => action.stores = true)
    (fun s => s.check = none ∧ ∃ self op ops, s.shared.writer = some (self,op :: ops))
  survive : ∀ n, ρ.event n ≠ .die ∧ ρ.event n ≠ .answer .throws

section
variable {size : RingSize} {ρ : Trace (waiting size)}
  {i x : Nat} {data : List UInt8}

theorem Alive.coop (alive : Alive ρ) (n : Nat) : Cooperates size (ρ.state n) := by
  exact reachable_cooperates (ρ.reachable alive.initial n)

theorem next_of (ρ : Trace (waiting size)) (n : Nat) :
    next size (ρ.state n) (ρ.event n) = some (ρ.state (n + 1)) := by
  exact (ρ.step n).2

/-- A reader that is not inside a call begins one. -/
theorem Alive.leads_call (alive : Alive ρ) :
    ρ.LeadsTo (fun s => Owes i x s ∧ (s.reader i).reading = false)
      (fun s => Passed i x s ∨ Owes i x s ∧ (s.reader i).reading = true ∧ (s.reader i).pc ≠ .last) := by
  apply Trace.LeadsTo.of_rank (alive.calls i) (fun _ => 0)
  · rintro n ⟨owes,idle⟩
    exact ⟨owes.active,idle⟩
  · rintro n ⟨owes,idle⟩
    rcases owes.step (next_of ρ n) with passed | ⟨later,way⟩
    · exact Or.inl (Or.inl passed)
    · cases way with
      | other same _ _ notCall =>
        refine Or.inr ⟨⟨later,by rw [same]; exact idle⟩,le_rfl,fun mine => ?_⟩
        rw [notCall] at mine
        contradiction
      | call _ called _ => exact Or.inl (Or.inr ⟨later,by rw [called]; rfl,by rw [called]; simp⟩)
      | read stepped _ =>
        rw [ReaderState.reading_of_step stepped] at idle
        contradiction

/-- A call that is about to return does so. -/
theorem Alive.leads_return (alive : Alive ρ) :
    ρ.LeadsTo (fun s => Owes i x s ∧ (s.reader i).pc = .last)
      (fun s => Owes i x s ∧ (s.reader i).reading = false ∨ Passed i x s) := by
  apply Trace.LeadsTo.of_rank (alive.reads i) (fun _ => 0)
  · rintro n ⟨_,pc⟩
    simp [ReaderState.reading,pc]
  · rintro n ⟨owes,pc⟩
    rcases owes.step (next_of ρ n) with passed | ⟨later,way⟩
    · exact Or.inl (Or.inr passed)
    · cases way with
      | other same _ notRead _ =>
        refine Or.inr ⟨⟨later,by rw [same]; exact pc⟩,le_rfl,fun mine => ?_⟩
        rw [notRead] at mine
        contradiction
      | call idle _ _ => simp [ReaderState.reading,pc] at idle
      | read stepped _ =>
        simp only [ReaderState.step,pc] at stepped
        exact Or.inl (Or.inl ⟨later,by rw [← Option.some.inj stepped]; rfl⟩)

/-- A call goes as far as the stream was when it began. -/
theorem Alive.leads_through (alive : Alive ρ) :
    ρ.LeadsTo (fun s => Owes i x s ∧ (s.reader i).reading = true ∧ (s.reader i).pc ≠ .last) (Passed i x) := by
  apply Trace.LeadsTo.of_rank (alive.reads i) (fun s => (s.reader i).togo x)
  · rintro n ⟨_,busy,_⟩
    exact busy
  · rintro n ⟨owes,busy,away⟩
    have coop := alive.coop n
    obtain ⟨pending,shared⟩ := coop.shared
    obtain ⟨_,p,guarded⟩ := coop.guarded i owes.active
    have near := guarded.near
    have behind := guarded.behind
    have bounds := size.bounds
    obtain ⟨more,target⟩ := owes.target
    have within := target.le
    rcases owes.step (next_of ρ n) with passed | ⟨later,way⟩
    · exact Or.inl passed
    · cases way with
      | other same _ notRead _ =>
        refine Or.inr ⟨⟨later,by rw [same]; exact busy,by rw [same]; exact away⟩,by rw [same],fun mine => ?_⟩
        rw [notRead] at mine
        contradiction
      | call idle _ _ =>
        rw [idle] at busy
        contradiction
      | read stepped _ =>
        have lower := guarded.inv.togo_step shared.rep guarded.inTime
          (Ledger.before_boundary target owes.before) stepped
        refine Or.inr ⟨⟨later,?_,?_⟩,lower.le,fun _ => lower⟩
        · rcases ReaderState.reading_or_done stepped with reading | ⟨result,done⟩
          · exact reading
          · obtain rfl := coop.ends stepped done
            exact absurd ((ReaderState.step_ends stepped).2.2.1 done) away
        · intro last
          obtain ⟨_,same,_⟩ := (ReaderState.step_ends stepped).1 last
          have ended := guarded.inv.caught shared.rep (by omega) same
          have short := owes.before
          omega

theorem Alive.passes (alive : Alive ρ) : ρ.LeadsTo (Owes i x) (Passed i x) := by
  have through : ρ.LeadsTo (fun s => Owes i x s ∧ (s.reader i).reading = false) (Passed i x) := by
    intro n start
    obtain ⟨m,later,passed | called⟩ := alive.leads_call n start
    · exact ⟨m,later,passed⟩
    · obtain ⟨k,further,passed⟩ := alive.leads_through m called
      exact ⟨k,later.trans further,passed⟩
  intro n owes
  by_cases busy : ((ρ.state n).reader i).reading = true
  · by_cases last : ((ρ.state n).reader i).pc = .last
    · exact alive.leads_return.trans_or through n ⟨owes,last⟩
    · exact alive.leads_through n ⟨owes,busy,last⟩
  · exact through n ⟨owes,by simpa using busy⟩

/-- What a stretch of the run shows, matched by the abstract broadcast. -/
theorem Alive.matched (alive : Alive ρ) {n : Nat} {a : LogBroadcast.State Nat (List UInt8)}
    (related : Related size (ρ.state n) a) (k : Nat) :
    ∃ b, Run LogBroadcast.sys a (ρ.shown view n k) b ∧ Related size (ρ.state (n + k)) b := by
  have seen := seen_allowed (ρ.seen view n k) (ρ.reachable alive.initial n)
  exact (refines size).seen seen related

theorem Alive.related (alive : Alive ρ) (n : Nat) : ∃ a, Related size (ρ.state n) a := by
  obtain ⟨a,_,start⟩ := (refines size).start _ alive.initial
  obtain ⟨b,_,related⟩ := alive.matched start n
  rw [Nat.zero_add] at related
  exact ⟨b,related⟩

end

def lead : List Action :=
  .activate 0 :: .begin 0 [7] :: List.replicate 5 .check ++ List.replicate 4 .store ++
    .finish :: .call 0 :: List.replicate 16 (.read 0)

def again (n : Nat) : Action := if n % 4 = 0 then .call 0 else .read 0

def stage (n : Nat) (r : ReaderState) : Prop :=
  match n % 4 with
  | 0 => r.reading = false
  | 1 => r.pc = .entry
  | 2 => r.pc = .head
  | _ => r.pc = .last

structure Round (n : Nat) (s : State) : Prop where
  check : s.check = none
  writer : s.shared.writer = none
  slots : s.ri.configMaxReaders = 1
  active : s.isActive 0 = true
  here : (s.reader 0).pos = s.shared.rb.freePos
  stage : stage n (s.reader 0)

theorem Round.read {n : Nat} {s : State} {r : ReaderState} (round : Round n s) (late : n % 4 ≠ 0)
    (stepped : (s.reader 0).step s.shared.rb = some r) (pos : r.pos = (s.reader 0).pos)
    (pc : Interleaved.stage (n + 1) r) :
    ∃ t, (waits ring16 s (again n) = true ∧ next ring16 s (again n) = some t) ∧ Round (n + 1) t := by
  refine ⟨{ s with
    ri := s.ri.setPosition 0 r.bpos
    reader := Function.update s.reader 0 r },⟨by simp [again,late,waits],by simp [again,late,next,stepped]⟩,?_⟩
  refine ⟨round.check,round.writer,round.slots,?_,?_,?_⟩
  · rw [State.isActive,ReaderInfo.isActive_setPosition]
    exact round.active
  · simp only [Function.update_self,pos,round.here]
  · simpa using pc

theorem Round.step {n : Nat} {s : State} (round : Round n s) :
    ∃ t, (waits ring16 s (again n) = true ∧ next ring16 s (again n) = some t) ∧ Round (n + 1) t := by
  have stage := round.stage
  have here := round.here
  rcases (by omega : n % 4 = 0 ∨ n % 4 = 1 ∨ n % 4 = 2 ∨ n % 4 = 3) with now | now | now | now
  · have later : (n + 1) % 4 = 1 := by omega
    have idle : (s.reader 0).reading = false := by simpa [Interleaved.stage,now] using stage
    refine ⟨{ s with
      reader := Function.update s.reader 0 { s.reader 0 with pc := .entry } },⟨by simp [again,now,waits],?_⟩,?_⟩
    · simp [again,now,next,round.active,idle]
    · exact ⟨round.check,round.writer,round.slots,round.active,by simpa using here,by simp [Interleaved.stage,later]⟩
  · have later : (n + 1) % 4 = 2 := by omega
    have pc : (s.reader 0).pc = .entry := by simpa [Interleaved.stage,now] using stage
    have ahead : greaterThan s.shared.rb.freePos s.shared.rb.freePos = false := by simp [greaterThan]
    apply round.read (r := { s.reader 0 with pc := .head }) (by omega)
    · simp [ReaderState.step,pc,here,ahead]
    · rfl
    · simp [Interleaved.stage,later]
  · have later : (n + 1) % 4 = 3 := by omega
    have pc : (s.reader 0).pc = .head := by simpa [Interleaved.stage,now] using stage
    apply round.read (r := { s.reader 0 with pc := .last }) (by omega)
    · simp [ReaderState.step,pc,here]
    · rfl
    · simp [Interleaved.stage,later]
  · have later : (n + 1) % 4 = 0 := by omega
    have pc : (s.reader 0).pc = .last := by simpa [Interleaved.stage,now] using stage
    apply round.read (r := { s.reader 0 with
      pc := .done (some .success)
      bpos := (s.reader 0).pos }) (by omega)
    · simp [ReaderState.step,pc]
    · rfl
    · simp [Interleaved.stage,later,ReaderState.reading]

end Interleaved
end Toroni.Rmp
