import Toroni.Rmp.Cooperation

/-! `ReadEx` waits for nobody: a rank that every step of a reader lowers, and the number of steps
of a call among writers that go on publishing. -/
namespace Toroni.Rmp
open CircularMemory Reader

def ReaderPc.cost : ReaderPc → Nat
  | .idle | .done _ => 0
  | .entry | .publish => 0
  | .head => 1
  | .early | .last => 2
  | .header copied => 3 + copied.length
  | .check _ => 8
  | .payload _ copied => 9 + copied.length
  | .final hdrCopy _ => 10 + hdrCopy.length
  | .confirm hdrCopy _ => 11 + hdrCopy.length
  | .advance hdrCopy => 12 + hdrCopy.length

def ReaderState.togo (x : Nat) (r : ReaderState) : Nat :=
  if r.reading then 16 * (x - r.at_) + 20 - r.pc.cost else 0

def Ledger.Before (g : Ledger) (p x : Nat) : Prop :=
  ∀ record rest, g.Boundary p (record :: rest) → p + record.size ≤ x

section
variable {size : RingSize} {g g' : Ledger} {rb : ByteRingBuffer} {pending : List UInt8}
  {r r' : ReaderState} {p x : Nat} {record : Record} {rest more : List Record}

theorem Ledger.before_free (g : Ledger) (p : Nat) : g.Before p g.free := by
  intro record rest boundary
  have behind := boundary.le
  rw [sizeOf_cons] at behind
  omega

/-- Two record boundaries have a whole record between them. -/
theorem Ledger.before_boundary (target : g.Boundary x more) (less : p < x) :
    g.Before p x := by
  rintro record rest ⟨before,split,rfl⟩
  obtain ⟨before',split',rfl⟩ := target
  rcases List.append_eq_append_iff.mp (split.symm.trans split') with ⟨between,rfl,tail⟩ | ⟨between,rfl,_⟩
  · cases between with
    | nil => simp at less
    | cons other between =>
      obtain ⟨rfl,_⟩ := List.cons.inj tail
      simp only [sizeOf_append,sizeOf_cons]
      omega
  · simp only [sizeOf_append] at less
    omega

theorem ReaderState.togo_of_pc (reading : r.reading = true) :
    r.togo x = 16 * (x - r.at_) + 20 - r.pc.cost := by
  exact if_pos reading

theorem ReaderState.Inv.togo_early (inv : r.Inv size g) (rep : Represents size rb g pending)
    (before : g.Before r.at_ x) (pc : r.pc = .early) (stepped : r.step rb = some r') : r'.togo x < r.togo x := by
  have size_eq : MsgHeader.size = 5 := rfl
  have sound := inv.sound
  rw [pc] at sound
  obtain ⟨record,rest,boundary⟩ := sound
  have room := before record rest boundary
  rw [ReaderState.togo_of_pc (ReaderState.reading_of_step stepped),pc]
  simp only [ReaderState.step,pc,rep.config,inv.pos,bufEnd_lt size r.at_ MsgHeader.size (by decide),toNat_bufEnd] at stepped
  split at stepped
  next blank =>
    obtain rfl := Option.some.inj stepped
    have inside := size.mod_lt r.at_
    rw [rep.tail_of_blank boundary blank,Record.size] at room
    simp only [togo,reading,ReaderPc.cost,if_true]
    omega
  next =>
    obtain rfl := Option.some.inj stepped
    split
    · simp only [togo,reading,ReaderPc.cost,Bool.false_eq_true,if_false]
      omega
    · simp only [togo,reading,ReaderPc.cost,if_true,List.length_nil]
      omega

theorem ReaderState.Inv.togo_header {copied : List UInt8} (inv : r.Inv size g) (pc : r.pc = .header copied)
    (stepped : r.step rb = some r') : r'.togo x < r.togo x := by
  have size_eq : MsgHeader.size = 5 := rfl
  have sound := inv.sound
  rw [pc] at sound
  obtain ⟨_,_,_,_,_,short,_⟩ := sound
  rw [ReaderState.togo_of_pc (ReaderState.reading_of_step stepped),pc]
  simp only [ReaderState.step,pc] at stepped
  obtain rfl := Option.some.inj stepped
  split
  · simp only [togo,reading,ReaderPc.cost,if_true]
    omega
  · simp only [togo,reading,ReaderPc.cost,if_true,List.length_append,List.length_singleton]
    omega

/-- A padding that is passed lies in front of `x` as a whole. -/
theorem ReaderState.Inv.togo_check {hdrCopy : MsgHeader} (after : r'.Inv size g) (before : g.Before r.at_ x)
    (pc : r.pc = .check hdrCopy) (stepped : r.step rb = some r') : r'.togo x < r.togo x := by
  have size_eq : MsgHeader.size = 5 := rfl
  have sound := after.sound
  rw [ReaderState.togo_of_pc (ReaderState.reading_of_step stepped),pc]
  simp only [ReaderState.step,pc] at stepped
  split at stepped
  next =>
    obtain rfl := Option.some.inj stepped
    simp only [togo,reading,ReaderPc.cost,Bool.false_eq_true,if_false]
    omega
  next =>
    split at stepped
    next =>
      obtain rfl := Option.some.inj stepped
      simp only [togo,reading,ReaderPc.cost,Bool.false_eq_true,if_false]
      omega
    next =>
      split at stepped
      next =>
        obtain rfl := Option.some.inj stepped
        simp only [togo,reading,ReaderPc.cost,if_true,List.length_nil]
        omega
      next =>
        obtain rfl := Option.some.inj stepped
        obtain ⟨record,rest,boundary,length⟩ := sound
        have room := before record rest boundary
        simp only [togo,reading,ReaderPc.cost,if_true]
        omega

theorem ReaderState.Inv.togo_payload {hdrCopy : MsgHeader} {copied : List UInt8} (inv : r.Inv size g)
    (before : g.Before r.at_ x) (pc : r.pc = .payload hdrCopy copied) (stepped : r.step rb = some r') :
    r'.togo x < r.togo x := by
  have size_eq : MsgHeader.size = 5 := rfl
  have sound := inv.sound
  rw [pc] at sound
  obtain ⟨data,rest,boundary,length,short,_⟩ := sound
  have room := before _ rest boundary
  rw [Record.size] at room
  rw [ReaderState.togo_of_pc (ReaderState.reading_of_step stepped),pc]
  simp only [ReaderState.step,pc] at stepped
  obtain rfl := Option.some.inj stepped
  split
  next full =>
    simp only [List.length_append,List.length_singleton] at full
    simp only [togo,reading,ReaderPc.cost,if_true]
    omega
  next =>
    simp only [togo,reading,ReaderPc.cost,if_true,List.length_append,List.length_singleton]
    omega

/-- Behind the copies the whole record lies in front of `x`. -/
theorem ReaderState.Inv.togo_copied (inv : r.Inv size g) (before : g.Before r.at_ x)
    (pc : (∃ hdrCopy data, r.pc = .final hdrCopy data ∨ r.pc = .confirm hdrCopy data) ∨
      ∃ hdrCopy, r.pc = .advance hdrCopy) (stepped : r.step rb = some r') : r'.togo x < r.togo x := by
  have size_eq : MsgHeader.size = 5 := rfl
  have sound := inv.sound
  rw [ReaderState.togo_of_pc (ReaderState.reading_of_step stepped)]
  rcases pc with ⟨hdrCopy,data,pc | pc⟩ | ⟨hdrCopy,pc⟩
  · rw [pc] at sound
    obtain ⟨real,rest,boundary,length,_⟩ := sound
    have room := before _ rest boundary
    rw [Record.size] at room
    simp only [ReaderState.step,pc] at stepped
    obtain rfl := Option.some.inj stepped
    rw [pc]
    split
    · simp only [togo,reading,ReaderPc.cost,Bool.false_eq_true,if_false]
      omega
    · simp only [togo,reading,ReaderPc.cost,if_true]
      omega
  · rw [pc] at sound
    obtain ⟨rest,boundary,length⟩ := sound
    have room := before _ rest boundary
    rw [Record.size] at room
    simp only [ReaderState.step,pc] at stepped
    obtain rfl := Option.some.inj stepped
    rw [pc]
    simp only [togo,reading,ReaderPc.cost,if_true]
    omega
  · rw [pc] at sound
    obtain ⟨record,rest,boundary,length⟩ := sound
    have room := before _ rest boundary
    simp only [ReaderState.step,pc] at stepped
    obtain rfl := Option.some.inj stepped
    rw [pc]
    simp only [togo,reading,ReaderPc.cost,if_true]
    omega

/-- Every step of a call brings its end nearer. -/
theorem ReaderState.Inv.togo_step (inv : r.Inv size g) (rep : Represents size rb g pending)
    (inTime : r.inTime size g = true) (before : g.Before r.at_ x) (stepped : r.step rb = some r') :
    r'.togo x < r.togo x := by
  cases pc : r.pc with
  | idle | done => simp [ReaderState.step,pc] at stepped
  | entry | head =>
    rw [ReaderState.togo_of_pc (ReaderState.reading_of_step stepped),pc]
    simp only [ReaderState.step,pc] at stepped
    obtain rfl := Option.some.inj stepped
    split
    · simp only [togo,reading,ReaderPc.cost,if_true,Bool.false_eq_true,if_false]
      omega
    · simp only [togo,reading,ReaderPc.cost,if_true]
      omega
  | publish | last =>
    rw [ReaderState.togo_of_pc (ReaderState.reading_of_step stepped),pc]
    simp only [ReaderState.step,pc] at stepped
    obtain rfl := Option.some.inj stepped
    simp only [togo,reading,ReaderPc.cost,if_true,Bool.false_eq_true,if_false]
    omega
  | early => exact inv.togo_early rep before pc stepped
  | header copied => exact inv.togo_header pc stepped
  | check hdrCopy => exact (inv.step rep inTime stepped).togo_check before pc stepped
  | payload hdrCopy copied => exact inv.togo_payload before pc stepped
  | final hdrCopy data => exact inv.togo_copied before (Or.inl ⟨hdrCopy,data,Or.inl pc⟩) stepped
  | confirm hdrCopy data => exact inv.togo_copied before (Or.inl ⟨hdrCopy,data,Or.inr pc⟩) stepped
  | advance hdrCopy => exact inv.togo_copied before (Or.inr ⟨hdrCopy,pc⟩) stepped

end

namespace Interleaved
open Transition Traits Writer

def Action.reads (i : Nat) : Action → Bool
  | .read j => j == i
  | _ => false

def Action.calls (i : Nat) : Action → Bool
  | .call j => j == i
  | _ => false

section
variable {size : RingSize} {s t : State} {a : LogBroadcast.State Nat (List UInt8)} {i : Nat} {action : Action}

theorem Related.next (related : Related size s a) (allowed : allowed size s action = true)
    (stepped : Interleaved.next size s action = some t) : ∃ b, Related size t b := by
  have matched := related.step allowed stepped
  split at matched
  · exact ⟨a,matched⟩
  · obtain ⟨b,_,related⟩ := matched
    exact ⟨b,related⟩

theorem Related.reader_inv (related : Related size s a) (active : s.isActive i = true) :
    (s.reader i).Inv size s.shared.ledger := by
  obtain ⟨_,_,_,place⟩ := related.place i active
  exact place.inv

/-- Only a store changes the ledger, and only a reader's own steps take it through a call. -/
theorem next_frame (stepped : Interleaved.next size s action = some t) :
    (t.shared.ledger = s.shared.ledger ∨ action = .store) ∧
      (t.reader i = s.reader i ∨ (t.reader i).reading = false ∨ action.reads i = true ∨ action.calls i = true) := by
  cases action with
  | begin self data =>
    obtain ⟨w,begun,rfl⟩ := Option.map_eq_some_iff.mp stepped
    obtain ⟨_,_,_,rfl⟩ := Shared.begin_eq begun
    exact ⟨Or.inl rfl,Or.inl rfl⟩
  | check =>
    obtain ⟨check,rfl⟩ := State.detect_cases stepped
    exact ⟨Or.inl rfl,Or.inl rfl⟩
  | answer answer =>
    obtain ⟨v,check,rfl,ledger,_⟩ := State.answer_cases stepped
    exact ⟨Or.inl ledger,Or.inl rfl⟩
  | store =>
    simp only [Interleaved.next] at stepped
    split at stepped
    next =>
      obtain ⟨w,_,rfl⟩ := Option.map_eq_some_iff.mp stepped
      exact ⟨Or.inr rfl,Or.inl rfl⟩
    next => contradiction
  | finish =>
    obtain ⟨w,finished,rfl⟩ := Option.map_eq_some_iff.mp stepped
    obtain ⟨_,_,rfl⟩ := Shared.finish_eq finished
    exact ⟨Or.inl rfl,Or.inl rfl⟩
  | die =>
    obtain ⟨w,died,rfl⟩ := Option.map_eq_some_iff.mp stepped
    obtain ⟨_,_,_,rfl⟩ := Shared.die_eq died
    exact ⟨Or.inl rfl,Or.inl rfl⟩
  | activate j =>
    simp only [Interleaved.next] at stepped
    split at stepped
    next =>
      obtain rfl := Option.some.inj stepped
      refine ⟨Or.inl rfl,?_⟩
      rcases eq_or_ne i j with rfl | away
      · exact Or.inr (Or.inl (by simp [ReaderState.reading]))
      · exact Or.inl (by simp [away])
    next => contradiction
  | deactivate j =>
    simp only [Interleaved.next] at stepped
    split at stepped
    next =>
      obtain rfl := Option.some.inj stepped
      exact ⟨Or.inl rfl,Or.inl rfl⟩
    next => contradiction
  | call j =>
    simp only [Interleaved.next] at stepped
    split at stepped
    next =>
      obtain rfl := Option.some.inj stepped
      refine ⟨Or.inl rfl,?_⟩
      rcases eq_or_ne i j with rfl | away
      · exact Or.inr (Or.inr (Or.inr (by simp [Action.calls])))
      · exact Or.inl (by simp [away])
    next => contradiction
  | read j =>
    obtain ⟨r,_,rfl⟩ := Option.map_eq_some_iff.mp stepped
    refine ⟨Or.inl rfl,?_⟩
    rcases eq_or_ne i j with rfl | away
    · exact Or.inr (Or.inr (Or.inl (by simp [Action.reads])))
    · exact Or.inl (by simp [away])

theorem free_mono (stepped : Interleaved.next size s action = some t) :
    s.shared.ledger.free ≤ t.shared.ledger.free := by
  rcases (next_frame (i := 0) stepped).1 with same | rfl
  · rw [same]
  · simp only [Interleaved.next] at stepped
    split at stepped
    next =>
      obtain ⟨w,stored,rfl⟩ := Option.map_eq_some_iff.mp stepped
      obtain ⟨_,_,_,⟨_,_,_,_,ledger⟩ | ⟨_,_,_,_,ledger⟩⟩ := Shared.store_cases stored
      · exact le_of_eq (by dsimp only; rw [ledger]; rfl)
      · dsimp only
        rw [ledger]
        simp only [Ledger.free,sizeOf_append]
        omega
    next => contradiction

/-- Every step of the reader in slot `i` lowers its rank; other steps raise it by what they publish. -/
theorem Related.togo_step (related : Related size s a) (allowed : allowed size s action = true)
    (stepped : Interleaved.next size s action = some t) (uncalled : action.calls i = false) :
    (if action.reads i then 1 else 0) + (t.reader i).togo t.shared.ledger.free ≤
      (s.reader i).togo s.shared.ledger.free + 16 * (t.shared.ledger.free - s.shared.ledger.free) := by
  have onward := free_mono stepped
  by_cases mine : action.reads i = true
  · cases action with
    | read j =>
      obtain rfl : j = i := by simpa [Action.reads] using mine
      obtain ⟨pending,shared⟩ := related.shared
      obtain ⟨r,read,rfl⟩ := Option.map_eq_some_iff.mp stepped
      have active : s.isActive j = true := by
        by_contra idle
        have quiet := (related.idle j (by simpa using idle)).2
        rw [ReaderState.reading_of_step read] at quiet
        contradiction
      obtain ⟨_,inTime⟩ : s.shared.ledger.free < (s.reader j).at_ + 2^63 ∧
          (s.reader j).inTime size s.shared.ledger = true := by simpa [Interleaved.allowed] using allowed
      have lower := (related.reader_inv active).togo_step shared.rep inTime (s.shared.ledger.before_free _) read
      simp only [mine,if_true,Function.update_self]
      omega
    | _ => simp [Action.reads] at mine
  · simp only [mine,Bool.false_eq_true,if_false]
    rcases (next_frame (i := i) stepped).2 with same | done | reads | calls
    · rw [same]
      unfold ReaderState.togo
      split
      · omega
      · omega
    · simp [ReaderState.togo,done]
    · exact absurd reads mine
    · rw [calls] at uncalled
      contradiction

end

def meanwhile : List Action := .read 0 :: .store :: .finish :: List.replicate 15 (.read 0)

end Interleaved
end Toroni.Rmp
