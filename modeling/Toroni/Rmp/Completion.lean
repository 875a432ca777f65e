import Toroni.Rmp.Liveness

/-! A writer that waits for readers gets through once each of them has read what there is: nothing
is published under its mutex that they would have to follow. -/
namespace Toroni.Rmp
open CircularMemory LittleEndian Reader Traits Writer

theorem recordStores_msg (index : Nat) (data : List UInt8) :
    ∃ ops n, recordStores index (.msg data) = ops ++ [.freePos n (.msg data)] := by
  refine ⟨.bytes index [MsgHeader.MSG] :: .bytes (index + 1) (toBytes 4 data.length) ::
    payloadStores (index + MsgHeader.size) data,BitVec.ofNat 64 (MsgHeader.size + data.length),?_⟩
  simp [recordStores]

/-- The last store of a write publishes its message. -/
theorem stores_ends (rb : ByteRingBuffer) (data : List UInt8) :
    ∃ ops n, stores rb data = ops ++ [.freePos n (.msg data)] := by
  unfold stores
  dsimp only
  split
  · obtain ⟨ops,n,ends⟩ := recordStores_msg 0 data
    exact ⟨_,n,by rw [ends,← List.append_assoc]⟩
  · split
    · obtain ⟨ops,n,ends⟩ := recordStores_msg 0 data
      exact ⟨_,n,by rw [ends,← List.append_assoc]⟩
    · exact recordStores_msg _ data

namespace Interleaved
open Transition

structure Writing (owner : Owner) (data : List UInt8) (s : State) : Prop where
  writer : ∃ ops n, s.shared.writer = some (owner,ops ++ [.freePos n (.msg data)])
  check : ∀ pc other, s.check = some (pc,other) → other = data

structure Attempt (owner : Owner) (data : List UInt8) (x : Nat) (s : State) : Prop where
  writing : Writing owner data s
  checks : s.check ≠ none
  ends : s.shared.ledger.free = x

def Storing (owner : Owner) (data : List UInt8) (s : State) : Prop := Writing owner data s ∧ s.check = none

def Ready (i x : Nat) (s : State) : Prop :=
  s.isActive i = true → (s.reader i).at_ = x ∧ (s.ri.info i).position = BitVec.ofNat 64 x

structure Late (i x : Nat) (s : State) : Prop where
  active : s.isActive i = true
  here : (s.reader i).at_ = x

def State.undone (s : State) : Nat :=
  match s.shared.writer with
  | some (_,ops) => ops.length
  | none => 0

section
variable {size : RingSize} {s t : State} {i x : Nat} {action : Action} {owner : Owner} {data : List UInt8}
  {pending : List UInt8}

/-- Under the mutex nobody begins a write or ends one, and what is stored last is published. -/
theorem Writing.step (writing : Writing owner data s) (inv : s.shared.Inv size pending)
    (stepped : next size s action = some t) (survives : action ≠ .die ∧ action ≠ .answer .throws) :
    (view s action = some (.publish data) ∧ t.shared.writer = some (owner,[])) ∨
      Writing owner data t ∧ (s.check = none → t.check = none) ∧
        (s.check ≠ none → t.shared.ledger = s.shared.ledger) ∧
        t.undone ≤ s.undone ∧ (action.stores = true → t.undone < s.undone) := by
  obtain ⟨ops,n,running⟩ := writing.writer
  cases action with
  | begin other more =>
    obtain ⟨w,begun,_⟩ := Option.map_eq_some_iff.mp stepped
    have idle := (inv.begin_idle begun).1
    rw [running] at idle
    contradiction
  | check =>
    have same (pc : Check) (other : List UInt8) (now : t.check = some (pc,other)) :
        ∃ before, s.check = some (before,other) := State.detect_data stepped now
    have busy : s.check ≠ none := by
      intro none
      simp [next,State.detect,none] at stepped
    obtain ⟨check,rfl⟩ := State.detect_cases stepped
    refine Or.inr ⟨⟨⟨ops,n,running⟩,?_⟩,fun none => absurd none busy,fun _ => rfl,le_rfl,by simp [Action.stores]⟩
    intro pc other now
    obtain ⟨before,found⟩ := same pc other now
    exact writing.check before other found
  | answer answer =>
    simp only [next,State.answer] at stepped
    split at stepped
    next other found =>
      have busy : s.check ≠ none := by
        rw [found]
        simp
      split at stepped
      next =>
        obtain rfl := Option.some.inj stepped
        refine Or.inr ⟨⟨⟨ops,n,running⟩,?_⟩,fun none => absurd none busy,fun _ => rfl,le_rfl,by simp [Action.stores]⟩
        intro pc last now
        obtain ⟨_,rfl⟩ := Prod.mk.inj (Option.some.inj now)
        exact writing.check _ _ found
      next =>
        obtain rfl := Option.some.inj stepped
        exact Or.inr ⟨⟨⟨ops,n,running⟩,by simp⟩,fun _ => rfl,fun _ => rfl,le_rfl,by simp [Action.stores]⟩
      next => exact absurd rfl survives.2
    next => contradiction
  | store =>
    simp only [next] at stepped
    split at stepped
    next passed =>
      obtain ⟨w,stored,rfl⟩ := Option.map_eq_some_iff.mp stepped
      cases ops with
      | nil =>
        left
        simp only [Shared.store,running,List.nil_append] at stored
        refine ⟨?_,by rw [← Option.some.inj stored]⟩
        simp only [view,running,List.nil_append]
      | cons op ops =>
        have left : w.writer = some (owner,ops ++ [.freePos n (.msg data)]) := by
          simp only [Shared.store,running,List.cons_append] at stored
          rw [← Option.some.inj stored]
        have lower : State.undone { s with shared := w } < s.undone := by
          simp [State.undone,left,running]
        refine Or.inr ⟨⟨⟨ops,n,left⟩,?_⟩,fun _ => passed,fun busy => absurd passed busy,lower.le,fun _ => lower⟩
        rw [passed]
        simp
    next => contradiction
  | finish =>
    obtain ⟨w,finished,_⟩ := Option.map_eq_some_iff.mp stepped
    obtain ⟨_,ended,_⟩ := Shared.finish_eq finished
    rw [running] at ended
    simp at ended
  | die => exact absurd rfl survives.1
  | activate | deactivate | call =>
    simp only [next] at stepped
    split at stepped
    next =>
      obtain rfl := Option.some.inj stepped
      exact Or.inr ⟨⟨⟨ops,n,running⟩,writing.check⟩,id,fun _ => rfl,le_rfl,by simp [Action.stores]⟩
    next => contradiction
  | read =>
    obtain ⟨r,_,rfl⟩ := Option.map_eq_some_iff.mp stepped
    exact Or.inr ⟨⟨⟨ops,n,running⟩,writing.check⟩,id,fun _ => rfl,le_rfl,by simp [Action.stores]⟩

theorem Writing.begun (stepped : next size s (.begin owner data) = some t) :
    Attempt owner data s.shared.ledger.free t := by
  obtain ⟨w,begun,rfl⟩ := Option.map_eq_some_iff.mp stepped
  obtain ⟨_,mtx,_,rfl⟩ := Shared.begin_eq begun
  obtain ⟨ops,n,ends⟩ := stores_ends s.shared.rb data
  refine ⟨⟨⟨ops,n,by rw [← ends]⟩,?_⟩,by simp,rfl⟩
  intro pc other now
  obtain ⟨_,rfl⟩ := Prod.mk.inj (Option.some.inj now)
  rfl

theorem Attempt.step (attempt : Attempt owner data x s) (inv : s.shared.Inv size pending)
    (stepped : next size s action = some t) (survives : action ≠ .die ∧ action ≠ .answer .throws) :
    Storing owner data t ∨ Attempt owner data x t := by
  rcases attempt.writing.step inv stepped survives with ⟨published,_⟩ | ⟨writing,_,kept,_⟩
  · cases action with
    | store =>
      simp only [next] at stepped
      split at stepped
      next passed => exact absurd passed attempt.checks
      next => contradiction
    | read j =>
      simp only [view] at published
      split at published
      next => simp at published
      next => simp at published
      next => simp at published
    | _ => simp [view] at published
  · by_cases passed : t.check = none
    · exact Or.inl ⟨writing,passed⟩
    · exact Or.inr ⟨writing,passed,by rw [kept attempt.checks,attempt.ends]⟩

/-- A reader that is where the stream ends stays there. -/
theorem Late.step (late : Late i x s) (later : Cooperates size t) (ends : t.shared.ledger.free = x)
    (stepped : next size s action = some t) : Ready i x t ∨ Late i x t ∧ Way i s t action := by
  obtain ⟨pending,shared⟩ := later.shared
  rcases way_cases stepped with ⟨way,same⟩ | ⟨idle,_⟩ | ⟨here,position⟩
  · have active := same.trans late.active
    refine Or.inr ⟨⟨active,?_⟩,way⟩
    cases way with
    | other same _ _ _ => rw [same,late.here]
    | call _ called _ => rw [called,late.here]
    | read stepped _ =>
      have onward := (step_bpos stepped).2
      obtain ⟨_,_,guarded⟩ := later.guarded i active
      have inside := guarded.le_free
      rw [late.here] at onward
      omega
  · left
    intro active
    rw [active] at idle
    contradiction
  · exact Or.inl (fun _ => ⟨here.trans ends,by rw [position,shared.rep.freePos,ends]⟩)

/-- What it has published about that stays too. -/
theorem Ready.step (ready : Ready i x s) (coop : Cooperates size s) (later : Cooperates size t)
    (ends : t.shared.ledger.free = x) (stepped : next size s action = some t) : Ready i x t := by
  intro active
  by_cases before : s.isActive i = true
  · obtain ⟨here,position⟩ := ready before
    rcases Late.step ⟨before,here⟩ later ends stepped with ready | ⟨late,way⟩
    · exact ready active
    · refine ⟨late.here,?_⟩
      obtain ⟨_,p,guarded⟩ := coop.guarded i before
      cases way with
      | other _ same _ _ => rw [same,position]
      | call _ _ same => rw [same,position]
      | read stepped moved =>
        rcases (step_bpos stepped).1 with same | same
        · rw [moved,same,guarded.published.2,← guarded.published.1,position]
        · rw [moved,same,guarded.inv.pos,here]
  · rcases way_cases stepped with ⟨_,same⟩ | ⟨idle,_⟩ | ⟨here,position⟩
    · exact absurd (same.symm.trans active) before
    · rw [active] at idle
      contradiction
    · obtain ⟨pending,shared⟩ := later.shared
      exact ⟨here.trans ends,by rw [position,shared.rep.freePos,ends]⟩

structure Clear (owner : Owner) (data : List UInt8) (x : Nat) (s : State) : Prop where
  attempt : Attempt owner data x s
  ready : ∀ i ∈ List.range (2^16), Ready i x s
  look : ∀ i max other, s.check = some (.look i max,other) → (s.ri.info i).position = BitVec.ofNat 64 x

def Check.left : Check → Nat
  | .loadMax => 2 * 2^16 + 4
  | .loadMin max => 2 * max + 3
  | .scan i max => 2 * (max - i) + 2
  | .look i max => 2 * (max - (i + 1)) + 3
  | .backpressure => 0

theorem Cooperates.inside (coop : Cooperates size s) (active : s.isActive i = true) : i ∈ List.range (2^16) := by
  have slot := List.mem_range.mp (coop.guarded i active).1
  have := s.ri.configMaxReaders.isLt
  exact List.mem_range.mpr (by omega)

theorem Ready.position (ready : Ready i x t) (coop : Cooperates size s) (later : Cooperates size t)
    (ends : t.shared.ledger.free = x) (here : (s.ri.info i).position = BitVec.ofNat 64 x)
    (stepped : next size s action = some t) : (t.ri.info i).position = BitVec.ofNat 64 x := by
  rcases way_cases stepped with ⟨way,same⟩ | ⟨_,same⟩ | ⟨_,position⟩
  · cases way with
    | other _ position _ _ => rw [position,here]
    | call _ _ position => rw [position,here]
    | read stepped _ => exact (ready (same.trans (coop.active stepped))).2
  · rw [same,here]
  · obtain ⟨pending,shared⟩ := later.shared
    rw [position,shared.rep.freePos,ends]

/-- The writer's own steps apart, nothing moves its scan. -/
theorem Attempt.check_frame (attempt : Attempt owner data x s) (inv : s.shared.Inv size pending)
    (stepped : next size s action = some t) (survives : action ≠ .die ∧ action ≠ .answer .throws) :
    action = .check ∨ (t.check = s.check ∧ action.checks = false ∧ action.answers = false) ∨ t.check = none ∨
      ∃ other, s.check = some (.backpressure,other) ∧ t.check = some (.loadMax,other) := by
  cases action with
  | begin other more =>
    obtain ⟨ops,n,running⟩ := attempt.writing.writer
    obtain ⟨w,begun,_⟩ := Option.map_eq_some_iff.mp stepped
    have idle := (inv.begin_idle begun).1
    rw [running] at idle
    contradiction
  | check => exact Or.inl rfl
  | answer answer =>
    simp only [next,State.answer] at stepped
    split at stepped
    next found =>
      split at stepped
      next =>
        obtain rfl := Option.some.inj stepped
        exact Or.inr (Or.inr (Or.inr ⟨_,found,rfl⟩))
      next =>
        obtain rfl := Option.some.inj stepped
        exact Or.inr (Or.inr (Or.inl rfl))
      next => exact absurd rfl survives.2
    next => contradiction
  | finish | read =>
    obtain ⟨_,_,rfl⟩ := Option.map_eq_some_iff.mp stepped
    exact Or.inr (Or.inl ⟨rfl,rfl,rfl⟩)
  | die => exact absurd rfl survives.1
  | store =>
    simp only [next] at stepped
    split at stepped
    next passed => exact absurd passed attempt.checks
    next => contradiction
  | activate | deactivate | call =>
    simp only [next] at stepped
    split at stepped
    next =>
      obtain rfl := Option.some.inj stepped
      exact Or.inr (Or.inl ⟨rfl,rfl,rfl⟩)
    next => contradiction

theorem unpackRange_snd (packed : BitVec 32) : (unpackRange packed).2 < 2^16 := by
  exact Nat.mod_lt _ (by decide)

/-- No reader that has published that it is at the end is in the way, and each load of the scan
brings its end nearer. -/
theorem Clear.detect {pc : Check} {other : List UInt8} (clear : Clear owner data x s) (coop : Cooperates size s)
    (found : s.check = some (pc,other)) (scans : pc ≠ .backpressure) (stepped : s.detect = some t) :
    t.check = none ∨ ∃ pc', t.check = some (pc',other) ∧ pc' ≠ .backpressure ∧ pc'.left < pc.left := by
  cases pc with
  | backpressure => exact absurd rfl scans
  | loadMax =>
    simp only [State.detect,found] at stepped
    obtain rfl := Option.some.inj stepped
    have small := unpackRange_snd s.ri.readersMinMax
    refine Or.inr ⟨_,rfl,by simp,?_⟩
    simp only [Check.left,ReaderInfo.getActiveRange]
    omega
  | loadMin max =>
    simp only [State.detect,found] at stepped
    obtain rfl := Option.some.inj stepped
    refine Or.inr ⟨_,rfl,by simp,?_⟩
    simp only [Check.left]
    omega
  | scan i max =>
    simp only [State.detect,found] at stepped
    split at stepped
    next more =>
      obtain rfl := Option.some.inj stepped
      dsimp only
      split
      · refine Or.inr ⟨_,rfl,by simp,?_⟩
        simp only [Check.left]
        omega
      · refine Or.inr ⟨_,rfl,by simp,?_⟩
        simp only [Check.left]
        omega
    next =>
      obtain rfl := Option.some.inj stepped
      exact Or.inl rfl
  | look i max =>
    obtain ⟨pending,shared⟩ := coop.shared
    obtain ⟨legal,ends⟩ := coop.checking _ _ found
    have fits := coop.fits
    have small := sizeOf_appended_lt s.shared.ledger.free legal
    have here := clear.look i max other found
    simp only [State.detect,found] at stepped
    obtain rfl := Option.some.inj stepped
    have passed : slotBackpressure s.shared.rb
        (layout s.shared.rb (BitVec.ofNat 64 other.length)).bytesToWrite none true (s.ri.info i).position = false := by
      rw [← Bool.not_eq_true,layout_eq shared.rep.config shared.rep.freePos legal.2,here,← clear.attempt.ends,
        slotBackpressure_iff shared.rep.config shared.rep.freePos le_rfl (by omega) small.2 (by omega)]
      omega
    refine Or.inr ⟨.scan (i + 1) max,?_,by simp,?_⟩
    · simp [passed]
    · simp only [Check.left]
      omega

theorem State.detect_looks {max : Nat} {other : List UInt8} (stepped : s.detect = some t)
    (looks : t.check = some (.look i max,other)) : s.isActive i = true ∧ s.check = some (.scan i max,other) := by
  unfold State.detect at stepped
  split at stepped
  next =>
    obtain rfl := Option.some.inj stepped
    simp at looks
  next =>
    obtain rfl := Option.some.inj stepped
    simp at looks
  next found =>
    split at stepped
    next =>
      obtain rfl := Option.some.inj stepped
      dsimp only at looks
      split at looks
      next active =>
        simp only [Option.some.injEq,Prod.mk.injEq,Check.look.injEq] at looks
        obtain ⟨⟨rfl,rfl⟩,rfl⟩ := looks
        exact ⟨active,found⟩
      next => simp at looks
    next =>
      obtain rfl := Option.some.inj stepped
      contradiction
  next =>
    obtain rfl := Option.some.inj stepped
    dsimp only at looks
    split at looks
    next => simp at looks
    next => simp at looks
  next => contradiction
  next => contradiction

theorem Clear.step (clear : Clear owner data x s) (coop : Cooperates size s) (later : Cooperates size t)
    (stepped : next size s action = some t) (survives : action ≠ .die ∧ action ≠ .answer .throws) :
    Storing owner data t ∨ Clear owner data x t := by
  obtain ⟨pending,shared⟩ := coop.shared
  rcases clear.attempt.step shared stepped survives with storing | attempt
  · exact Or.inl storing
  · have ready (i : Nat) (member : i ∈ List.range (2^16)) : Ready i x t :=
      (clear.ready i member).step coop later attempt.ends stepped
    refine Or.inr ⟨attempt,ready,?_⟩
    intro i max other looks
    have there : Ready i x t := fun active => ready i (later.inside active) active
    rcases clear.attempt.check_frame shared stepped survives with rfl | ⟨same,_⟩ | none | ⟨other,_,first⟩
    · have active := (State.detect_looks stepped looks).1
      have here := (clear.ready i (coop.inside active) active).2
      exact there.position coop later attempt.ends here stepped
    · exact there.position coop later attempt.ends (clear.look i max other (same ▸ looks)) stepped
    · rw [none] at looks
      contradiction
    · simp [first] at looks

end

section
variable {size : RingSize} {ρ : Trace (waiting size)}
  {i x : Nat} {owner : Owner} {data : List UInt8}

theorem Alive.attempt (alive : Alive ρ) (n : Nat) (attempt : Attempt owner data x (ρ.state n)) :
    Storing owner data (ρ.state (n + 1)) ∨ Attempt owner data x (ρ.state (n + 1)) := by
  obtain ⟨pending,shared⟩ := (alive.coop n).shared
  exact attempt.step shared (next_of ρ n) (alive.survive n)

theorem Alive.late (alive : Alive ρ) (n : Nat) (attempt : Attempt owner data x (ρ.state n))
    (late : Late i x (ρ.state n)) :
    ((Attempt owner data x (ρ.state (n + 1)) ∧ Ready i x (ρ.state (n + 1))) ∨ Storing owner data (ρ.state (n + 1))) ∨
      Attempt owner data x (ρ.state (n + 1)) ∧ Late i x (ρ.state (n + 1)) ∧
        Way i (ρ.state n) (ρ.state (n + 1)) (ρ.event n) := by
  rcases alive.attempt n attempt with storing | attempt
  · exact Or.inl (Or.inr storing)
  · rcases late.step (alive.coop (n + 1)) attempt.ends (next_of ρ n) with ready | ⟨late,way⟩
    · exact Or.inl (Or.inl ⟨attempt,ready⟩)
    · exact Or.inr ⟨attempt,late,way⟩

theorem Alive.clear (alive : Alive ρ) (n : Nat) (clear : Clear owner data x (ρ.state n)) :
    Storing owner data (ρ.state (n + 1)) ∨ Clear owner data x (ρ.state (n + 1)) := by
  have before := alive.coop n
  have after := alive.coop (n + 1)
  exact clear.step before after (next_of ρ n) (alive.survive n)

end

end Interleaved
end Toroni.Rmp
