import Toroni.Rmp.ReaderSteps

/-! What the steps of one call of `ReadEx` hand over: how far the reader has come in the log of
records, and what is left for it once it has been told that its position is expired. -/
namespace Toroni.Rmp
open CircularMemory Reader

def ReaderState.front (r : ReaderState) : Nat :=
  match r.pc with
  | .advance hdrCopy => r.at_ + (MsgHeader.size + hdrCopy.length)
  | _ => r.at_

structure ReaderState.Lost (B : Nat) (g : Ledger) (r : ReaderState) : Prop where
  pc : r.pc = .idle ∨ r.pc = .done (some .expiredPosition) ∨ r.pc = .entry ∨ r.pc = .head ∨ r.pc = .early ∨
    (∃ copied, r.pc = .header copied) ∨ ∃ hdrCopy, r.pc = .check hdrCopy
  stopped : ∃ record rest, g.Boundary r.at_ (record :: rest) ∧ Stops B g.free r.at_ record

section
variable {size : RingSize} {g g' : Ledger} {rb : ByteRingBuffer} {pending : List UInt8}
  {r r' : ReaderState} {p : Nat} {record : Record} {rest rest' more : List Record}

theorem Represents.size_pos (rep : Represents size rb g pending) (member : record ∈ g.log) :
    0 < record.size := by
  obtain ⟨before,after,split⟩ := List.append_of_mem member
  exact (rep.laid before record after split).1.size_pos size.positive

theorem Represents.nil_of_sizeOf (rep : Represents size rb g pending) (inside : ∀ r ∈ rest, r ∈ g.log)
    (none : sizeOf rest = 0) : rest = [] := by
  cases rest with
  | nil => rfl
  | cons record rest =>
    have positive := rep.size_pos (inside record List.mem_cons_self)
    rw [sizeOf_cons] at none
    omega

/-- One stream position is the place of one record only. -/
theorem Ledger.Boundary.unique (rep : Represents size rb g pending) (here : g.Boundary p rest)
    (there : g.Boundary p rest') : rest = rest' := by
  obtain ⟨before,split,rfl⟩ := here
  obtain ⟨before',split',place⟩ := there
  have same : sizeOf before = sizeOf before' := Nat.add_left_cancel place
  rcases List.append_eq_append_iff.mp (split.symm.trans split') with ⟨more,rfl,rfl⟩ | ⟨more,rfl,rfl⟩
  · rw [sizeOf_append] at same
    obtain rfl : more = [] := rep.nil_of_sizeOf (fun r member => by rw [split]; simp [member]) (by omega)
    rfl
  · rw [sizeOf_append] at same
    obtain rfl : more = [] := rep.nil_of_sizeOf (fun r member => by rw [split']; simp [member]) (by omega)
    rfl

/-- The `Confirm` of a message takes the reader behind it. -/
theorem ReaderState.Inv.hands {hdrCopy : MsgHeader} {data : List UInt8} (inv : r.Inv size g)
    (rep : Represents size rb g pending) (pc : r.pc = .confirm hdrCopy data) (stepped : r.step rb = some r')
    (boundary : g.Boundary r.front rest) : ∃ tail, rest = .msg data :: tail ∧ g.Boundary r'.front tail := by
  have sound := inv.sound
  rw [pc] at sound
  obtain ⟨tail,here,length⟩ := sound
  simp only [front,pc] at boundary
  simp only [ReaderState.step,pc] at stepped
  obtain rfl := Option.some.inj stepped
  refine ⟨tail,boundary.unique rep here,?_⟩
  have next := here.next
  rw [Record.size,← length] at next
  exact next

theorem Represents.tail_of_blank (rep : Represents size rb g pending)
    (boundary : g.Boundary p (record :: rest)) (short : size.bytes - p % size.bytes < MsgHeader.size) :
    record = .blank (size.bytes - p % size.bytes) := by
  obtain ⟨fits,_⟩ := boundary.holds rep
  have inside := size.mod_lt p
  cases record with
  | blank n => rw [show n = size.bytes - p % size.bytes by have := fits.1; omega]
  | msg data => have := fits.1; omega
  | padding n => have := fits.1; omega

theorem Represents.not_blank (rep : Represents size rb g pending)
    (boundary : g.Boundary p (record :: rest)) (whole : ¬ size.bytes - p % size.bytes < MsgHeader.size) :
    ∃ hdr, record.header = some hdr := by
  obtain ⟨fits,_⟩ := boundary.holds rep
  cases record with
  | blank n => have := fits.1; have := fits.2; omega
  | msg data => exact ⟨_,rfl⟩
  | padding n => exact ⟨_,rfl⟩

/-- A step that is not a `Confirm` skips at most what holds no message. -/
theorem ReaderState.Inv.skips (inv : r.Inv size g) (rep : Represents size rb g pending)
    (inTime : r.inTime size g = true) (silent : ∀ hdrCopy data, r.pc ≠ .confirm hdrCopy data)
    (stepped : r.step rb = some r') (boundary : g.Boundary r.front rest) :
    ∃ skipped tail, rest = skipped ++ tail ∧ messages skipped = [] ∧ g.Boundary r'.front tail := by
  have stays (same : r'.front = r.front) :
      ∃ skipped tail, rest = skipped ++ tail ∧ messages skipped = [] ∧ g.Boundary r'.front tail :=
    ⟨[],rest,rfl,rfl,same ▸ boundary⟩
  have sound := inv.sound
  cases pc : r.pc with
  | idle | done => simp [ReaderState.step,pc] at stepped
  | confirm hdrCopy data => exact absurd pc (silent hdrCopy data)
  | entry | head | header | payload | final =>
    simp only [ReaderState.step,pc] at stepped
    obtain rfl := Option.some.inj stepped
    apply stays
    split <;> simp [front,pc]
  | advance | publish | last =>
    simp only [ReaderState.step,pc] at stepped
    obtain rfl := Option.some.inj stepped
    exact stays (by simp [front,pc])
  | early =>
    rw [pc] at sound
    obtain ⟨record,tail,here⟩ := sound
    simp only [front,pc] at boundary
    obtain rfl := boundary.unique rep here
    simp only [ReaderState.step,pc,rep.config,inv.pos,bufEnd_lt size r.at_ MsgHeader.size (by decide),toNat_bufEnd] at stepped
    split at stepped
    next blank =>
      obtain rfl := Option.some.inj stepped
      obtain rfl := rep.tail_of_blank here blank
      exact ⟨[_],tail,rfl,rfl,here.next⟩
    next =>
      obtain rfl := Option.some.inj stepped
      apply stays
      split <;> simp [front,pc]
  | check hdrCopy =>
    rw [pc] at sound
    obtain ⟨record,tail,hdr,here,known,read⟩ := sound
    simp only [front,pc] at boundary
    obtain rfl := boundary.unique rep here
    simp only [ReaderState.step,pc,rep.config,inv.pos] at stepped
    split at stepped
    next =>
      obtain rfl := Option.some.inj stepped
      exact stays (by simp [front,pc])
    next passed =>
      obtain ⟨_,kept⟩ : hdrCopy.valid = true ∧
          ¬ expired (BitVec.ofNat 64 r.at_) rb.freePos size.position = true := by
        simpa using passed
      obtain rfl := read (here.intact rep inTime (Or.inl ⟨_,pc⟩) kept)
      split at stepped
      next =>
        obtain rfl := Option.some.inj stepped
        exact stays (by simp [front,pc])
      next =>
        split at stepped
        next =>
          obtain rfl := Option.some.inj stepped
          exact stays (by simp [front,pc])
        next other =>
          obtain rfl := Option.some.inj stepped
          refine ⟨[record],tail,rfl,?_,?_⟩
          · cases record with
            | msg data => exact absurd (Option.some.inj known ▸ rfl) other
            | padding n => rfl
            | blank n => rfl
          · obtain ⟨_,_,length⟩ := record.header_bytes known
            have next := here.next
            rw [length] at next
            exact next

theorem Record.stops_of_old {B free : Nat} {hdr : MsgHeader} (known : record.header = some hdr)
    (old : p + B ≤ free) : Stops B free p record := by
  cases record with
  | msg data => exact Or.inl old
  | padding n => exact Or.inl old
  | blank n => contradiction

theorem Record.stops_of_invalid {B free : Nat} {hdr : MsgHeader} (known : record.header = some hdr)
    (invalid : hdr.valid = false) : Stops B free p record := by
  cases record with
  | msg data =>
    obtain rfl := Option.some.inj known
    right
    simpa [MsgHeader.valid] using invalid
  | padding n =>
    obtain rfl := Option.some.inj known
    right
    simpa [MsgHeader.valid,MsgHeader.MSG,MsgHeader.PADDING] using invalid
  | blank n => contradiction

theorem Record.invalid_of_stops {B free : Nat} {hdr : MsgHeader} (known : record.header = some hdr)
    (young : ¬ p + B ≤ free) (stops : Stops B free p record) : hdr.valid = false := by
  cases record with
  | msg data =>
    obtain rfl := Option.some.inj known
    obtain rfl : data = [] := stops.resolve_left young
    rfl
  | padding n =>
    obtain rfl := Option.some.inj known
    obtain rfl : n = 0 := stops.resolve_left young
    rfl
  | blank n => contradiction

theorem ReaderState.Inv.old (inv : r.Inv size g) (rep : Represents size rb g pending)
    (near : g.free < r.at_ + 2^63) (here : g.Boundary r.at_ (record :: rest)) :
    expired r.pos rb.freePos size.position = true ↔ r.at_ + size.bytes ≤ g.free := by
  have positive := (here.holds rep).1.size_pos size.positive
  have behind := here.le
  rw [sizeOf_cons] at behind
  rw [inv.pos,rep.freePos,expired_behind size (by omega) (by omega)]

/-- A call that ends with `EXPIRED_POSITION` stands in front of a record that stops it. -/
theorem ReaderState.Inv.lost (inv : r.Inv size g) (rep : Represents size rb g pending)
    (near : g.free < r.at_ + 2^63) (inTime : r.inTime size g = true) (stepped : r.step rb = some r')
    (told : r'.pc = .done (some .expiredPosition)) : r'.Lost size.bytes g := by
  refine ⟨Or.inr (Or.inl told),?_⟩
  have sound := inv.sound
  cases pc : r.pc with
  | idle | done => simp [ReaderState.step,pc] at stepped
  | entry | head | header | payload =>
    simp only [ReaderState.step,pc] at stepped
    obtain rfl := Option.some.inj stepped
    dsimp only at told
    split at told <;> simp at told
  | confirm | advance | publish | last =>
    simp only [ReaderState.step,pc] at stepped
    obtain rfl := Option.some.inj stepped
    simp at told
  | early =>
    rw [pc] at sound
    obtain ⟨record,rest,here⟩ := sound
    simp only [ReaderState.step,pc,rep.config] at stepped
    split at stepped
    next =>
      obtain rfl := Option.some.inj stepped
      simp at told
    next whole =>
      obtain rfl := Option.some.inj stepped
      rw [inv.pos,bufEnd_lt size _ _ (by decide)] at whole
      obtain ⟨hdr,known⟩ := rep.not_blank here whole
      dsimp only at told
      split at told
      next old => exact ⟨record,rest,here,record.stops_of_old known ((inv.old rep near here).mp old)⟩
      next => simp at told
  | check hdrCopy =>
    rw [pc] at sound
    obtain ⟨record,rest,hdr,here,known,read⟩ := sound
    simp only [ReaderState.step,pc,rep.config] at stepped
    obtain rfl := Option.some.inj stepped
    refine ⟨record,rest,here,?_⟩
    dsimp only at told ⊢
    by_cases old : r.at_ + size.bytes ≤ g.free
    · exact record.stops_of_old known old
    · have intact := (r.clear_of_inTime inTime (Or.inl ⟨_,pc⟩)).1.resolve_right old
      rw [read intact] at told
      have kept := mt (inv.old rep near here).mp old
      by_cases valid : hdr.valid = true
      · simp only [valid,kept,Bool.not_true,Bool.or_false,Bool.false_eq_true,if_false] at told
        split at told
        · simp at told
        · split at told <;> simp at told
      · exact record.stops_of_invalid known (by simpa using valid)
  | final hdrCopy data =>
    rw [pc] at sound
    obtain ⟨data,rest,here,_⟩ := sound
    simp only [ReaderState.step,pc,rep.config] at stepped
    obtain rfl := Option.some.inj stepped
    dsimp only at told
    split at told
    next old => exact ⟨_,rest,here,Or.inl ((inv.old rep near here).mp old)⟩
    next => simp at told

theorem ReaderState.Inv.not_ahead (inv : r.Inv size g) (rep : Represents size rb g pending)
    (near : g.free < r.at_ + 2^63) : greaterThan r.pos rb.freePos = false := by
  obtain ⟨rest,boundary⟩ := inv.sound.boundary
  have behind := boundary.le
  rw [Bool.eq_false_iff,inv.pos,rep.freePos]
  intro ahead
  have := (greaterThan_iff (by omega) near).mp ahead
  omega

theorem ReaderState.Inv.caught (inv : r.Inv size g) (rep : Represents size rb g pending)
    (near : g.free < r.at_ + 2^63) (same : r.pos = rb.freePos) : r.at_ = g.free := by
  obtain ⟨rest,boundary⟩ := inv.sound.boundary
  have behind := boundary.le
  rw [inv.pos,rep.freePos] at same
  exact (SerialNumber.ofNat_inj_of_near (by omega) (by omega)).mp same

theorem ReaderState.reading_of_step (stepped : r.step rb = some r') : r.reading = true := by
  cases pc : r.pc <;> simp [ReaderState.step,pc] at stepped <;> simp [ReaderState.reading,pc]

/-- The comparisons with `freePos` that make a call end, and what it ends with. -/
theorem ReaderState.step_ends (stepped : r.step rb = some r') :
    (r'.pc = .last → r.pc = .head ∧ r.pos = rb.freePos ∧ r'.at_ = r.at_) ∧
      (r'.pc = .done (some .invalidPosition) → greaterThan r.pos rb.freePos = true) ∧
      (r'.pc = .done (some .success) → r.pc = .last) ∧ r'.pc ≠ .idle := by
  cases pc : r.pc with
  | idle | done => simp [ReaderState.step,pc] at stepped
  | entry | head | header | payload | final =>
    simp only [ReaderState.step,pc] at stepped
    obtain rfl := Option.some.inj stepped
    dsimp only
    split <;> simp_all
  | confirm | advance | publish | last =>
    simp only [ReaderState.step,pc] at stepped
    obtain rfl := Option.some.inj stepped
    simp
  | early =>
    simp only [ReaderState.step,pc] at stepped
    split at stepped
    next =>
      obtain rfl := Option.some.inj stepped
      simp
    next =>
      obtain rfl := Option.some.inj stepped
      dsimp only
      split <;> simp
  | check hdrCopy =>
    simp only [ReaderState.step,pc] at stepped
    obtain rfl := Option.some.inj stepped
    dsimp only
    split
    · simp
    · split
      · simp
      · split <;> simp

/-- Such a reader learns it again in every later call, and nothing else. -/
theorem ReaderState.Lost.step (lost : r.Lost size.bytes g) (inv : r.Inv size g)
    (rep : Represents size rb g pending) (near : g.free < r.at_ + 2^63) (inTime : r.inTime size g = true)
    (stepped : r.step rb = some r') : r'.Lost size.bytes g ∧ r'.front = r.front := by
  obtain ⟨pc,record,rest,here,stops⟩ := lost
  have behind := here.le
  have positive := (here.holds rep).1.size_pos size.positive
  rw [sizeOf_cons] at behind
  have sound := inv.sound
  rcases pc with pc | pc | pc | pc | pc | ⟨copied,pc⟩ | ⟨hdrCopy,pc⟩
  · simp [ReaderState.step,pc] at stepped
  · simp [ReaderState.step,pc] at stepped
  · simp only [ReaderState.step,pc,inv.not_ahead rep near] at stepped
    obtain rfl := Option.some.inj stepped
    exact ⟨⟨by simp,record,rest,here,stops⟩,by simp [front,pc]⟩
  · have away : r.pos ≠ rb.freePos := fun same => by
      have := inv.caught rep near same
      omega
    simp only [ReaderState.step,pc,if_neg away] at stepped
    obtain rfl := Option.some.inj stepped
    exact ⟨⟨by simp,record,rest,here,stops⟩,by simp [front,pc]⟩
  · simp only [ReaderState.step,pc,rep.config,inv.pos,bufEnd_lt size r.at_ MsgHeader.size (by decide)] at stepped
    split at stepped
    next blank =>
      obtain rfl := rep.tail_of_blank here blank
      exact stops.elim
    next =>
      obtain rfl := Option.some.inj stepped
      refine ⟨⟨?_,record,rest,here,stops⟩,?_⟩
      · dsimp only
        split <;> simp
      · split <;> simp [front,pc]
  · simp only [ReaderState.step,pc] at stepped
    obtain rfl := Option.some.inj stepped
    refine ⟨⟨?_,record,rest,here,stops⟩,?_⟩
    · dsimp only
      split <;> simp
    · split <;> simp [front,pc]
  · rw [pc] at sound
    obtain ⟨other,tail,hdr,there,known,read⟩ := sound
    obtain ⟨rfl,rfl⟩ := List.cons.inj (here.unique rep there)
    have ends : r'.pc = .done (some .expiredPosition) ∧ r'.at_ = r.at_ := by
      simp only [ReaderState.step,pc,rep.config] at stepped
      obtain rfl := Option.some.inj stepped
      by_cases old : r.at_ + size.bytes ≤ g.free
      · simp [(inv.old rep near here).mpr old]
      · obtain rfl := read ((r.clear_of_inTime inTime (Or.inl ⟨_,pc⟩)).1.resolve_right old)
        simp [record.invalid_of_stops known old stops]
    refine ⟨⟨Or.inr (Or.inl ends.1),record,rest,ends.2 ▸ here,ends.2 ▸ stops⟩,?_⟩
    simp only [front,pc,ends.1,ends.2]

theorem ReaderState.Lost.grow (lost : r.Lost size.bytes g) (base : g'.base = g.base)
    (log : g'.log = g.log ++ more) : r.Lost size.bytes g' := by
  obtain ⟨pc,record,rest,here,stops⟩ := lost
  refine ⟨pc,record,rest ++ more,here.grow base log,stops.mono ?_⟩
  rw [Ledger.free,Ledger.free,base,log,sizeOf_append]
  omega

end
end Toroni.Rmp
