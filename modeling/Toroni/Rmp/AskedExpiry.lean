import Toroni.Library.Transition
import Toroni.Rmp.Reader
import Toroni.Rmp.Writer

/-! Whole calls of `WriteEx` between single passes of the loops of readers, whose published
positions lag behind their own. -/
namespace Toroni.Rmp.AskedExpiry
open Transition Traits Writer Reader

/-- `own` and `reading` are the in-process position of the reader in each slot and whether it is
inside `ReadEx`. `unasked` is a history variable: the slots whose reader was active and not
expired before a call of `WriteEx` that never called the handler, and expired after it. -/
structure State where
  rb : ByteRingBuffer
  ri : ReaderInfo
  own : Nat → Position
  reading : Nat → Bool
  unasked : List Nat

def State.slots (s : State) : List Nat := List.range s.ri.configMaxReaders.toNat

def State.isActive (s : State) (i : Nat) : Bool := (s.ri.info i).isActive

def State.expires (s : State) (freePos : Position) (i : Nat) : Bool :=
  s.isActive i && !expired (s.own i) s.rb.freePos s.rb.configBufSizeBytes &&
    expired (s.own i) freePos s.rb.configBufSizeBytes

inductive Action
  | write (self : Owner) (data : List UInt8) (answers : List BpAnswer)
  | activate (i : Nat)
  | deactivate (i : Nat)
  | startRead (i : Nat)
  | pass (i : Nat) (copy : List UInt8 → Bool)

def write (size : RingSize) (s : State) (self : Owner) (data : List UInt8) (answers : List BpAnswer) :
    Option State :=
  if Legal size.bytes data then
    (writeEx self s.rb (fun _ => s.ri) data answers).bind (fun out =>
      if out.result = .running then none
      else some { s with
        rb := out.rb
        unasked := s.unasked ++
          if out.handlerCalls = [] then s.slots.filter (s.expires out.rb.freePos) else [] })
  else none

def pass (s : State) (i : Nat) (copy : List UInt8 → Bool) : Option State :=
  let stop := Function.update s.reading i false
  match iterate copy s.rb (s.own i) (s.ri.info i).position with
  | .finished => some { s with ri := s.ri.setPosition i (s.own i), reading := stop }
  | .continues pos bpos _ =>
    some { s with ri := s.ri.setPosition i bpos, own := Function.update s.own i pos }
  | .expired => some { s with ri := { s.ri with expiredReaders := s.ri.expiredReaders + 1 }, reading := stop }
  | .assertionFailed => none

def next (size : RingSize) (s : State) : Action → Option State
  | .write self data answers => write size s self data answers
  | .activate i =>
    if i < s.ri.configMaxReaders.toNat then
      some { s with ri := s.ri.activate (some i) s.rb.freePos
                    own := Function.update s.own i s.rb.freePos }
    else none
  | .deactivate i => some { s with ri := s.ri.deactivate (some i) }
  | .startRead i =>
    if s.isActive i && !s.reading i && !greaterThan (s.own i) s.rb.freePos then
      some { s with reading := Function.update s.reading i true }
    else none
  | .pass i copy => if s.reading i then pass s i copy else none

def sys (size : RingSize) : System State Action :=
  .ofNext (fun s => s.rb.configBufSizeBytes = size.position ∧ s.ri.Covers ∧ s.unasked = []) (next size)

/-- At a call of `WriteEx`, the published position of every active reader that the bytes of the
call would expire is not expired itself, and is at or behind the reader's own position. -/
def allowed (s : State) : Action → Bool
  | .write _ data _ =>
    let n := (layout s.rb (BitVec.ofNat 64 data.length)).bytesToWrite
    s.slots.all (fun i => !s.expires (s.rb.freePos + n) i ||
      !expired (s.ri.info i).position s.rb.freePos s.rb.configBufSizeBytes &&
        greaterOrEqualThan (s.own i) (s.ri.info i).position)
  | _ => true

structure Inv (size : RingSize) (s : State) : Prop where
  config : s.rb.configBufSizeBytes = size.position
  covers : s.ri.Covers
  asked : s.unasked = []

section
variable {size : RingSize} {s t : State} {action : Action}

/-- Where no backpressure is detected, a call that is allowed expires no live reader. -/
theorem expires_nothing {n : Position} {data : List UInt8} {answers : List BpAnswer} {self : Owner}
    (inv : Inv size s) (few : n.toNat < 2^62)
    (bytes : (layout s.rb (BitVec.ofNat 64 data.length)).bytesToWrite = n)
    (allowed : allowed s (.write self data answers) = true)
    (quiet : detectReaderBackpressure s.rb s.ri n none = none) :
    s.slots.filter (s.expires (s.rb.freePos + n)) = [] := by
  rw [List.filter_eq_nil_iff]
  intro i inside expires
  simp only [AskedExpiry.allowed,bytes,List.all_eq_true] at allowed
  have checked := allowed i inside
  simp only [expires,Bool.not_true,Bool.false_or,Bool.and_eq_true,Bool.not_eq_true'] at checked
  simp only [State.expires,Bool.and_eq_true,Bool.not_eq_true'] at expires
  obtain ⟨⟨active,ownLive⟩,ownGone⟩ := expires
  have gone := expired_of_behind few checked.1 checked.2 ownLive ownGone
  obtain ⟨low,high⟩ := inv.covers i (List.mem_range.mp inside) active
  have passed := (detectReaderBackpressure_eq_none.mp quiet) i low high
  rw [State.isActive] at active
  simp [slotBackpressure,active,checked.1,gone] at passed

theorem Inv.write {self : Owner} {data : List UInt8} {answers : List BpAnswer} (inv : Inv size s)
    (allowed : allowed s (.write self data answers) = true)
    (stepped : write size s self data answers = some t) : Inv size t := by
  simp only [AskedExpiry.write] at stepped
  split at stepped
  next legal =>
    obtain ⟨out,called,ended⟩ := Option.bind_eq_some_iff.mp stepped
    split at ended
    next => contradiction
    next ends =>
      obtain rfl := Option.some.inj ended
      have rep := Represents.fresh s.rb inv.config
      have free : s.rb.freePos = BitVec.ofNat 64 s.rb.freePos.toNat := by simp
      have small := sizeOf_appended_lt s.rb.freePos.toNat legal
      have wrote := writeEx_wrote inv.config free legal called
      by_cases returned : out.result = .returned
      · refine ⟨(represents_writeEx rep (by simp [Ledger.free]) legal called returned).config,inv.covers,?_⟩
        by_cases silent : out.handlerCalls = []
        · have passed := (writeEx_quiet inv.config free legal called).1 ends silent
          have moved := writeEx_freePos rep (by simp [Ledger.free]) legal called returned
          simp only [Ledger.free,sizeOf_nil,Nat.add_zero] at moved
          have few : (BitVec.ofNat 64 (sizeOf (appended size.bytes s.rb.freePos.toNat data))).toNat < 2^62 := by
            rw [BitVec.toNat_ofNat]
            omega
          dsimp only
          rw [if_pos silent,inv.asked,moved,expires_nothing inv few
            (by rw [layout_eq inv.config free legal.2]) allowed passed]
          rfl
        · dsimp only
          rw [if_neg silent,inv.asked]
          rfl
      · have loud : out.handlerCalls ≠ [] := fun silent => returned
          ((writeEx_quiet inv.config free legal called).2
            ((writeEx_quiet inv.config free legal called).1 ends silent)).1
        refine ⟨(wrote.otherwise returned).config.trans inv.config,inv.covers,?_⟩
        dsimp only
        rw [if_neg loud,inv.asked]
        rfl
  next => contradiction

theorem Inv.pass {i : Nat} {copy : List UInt8 → Bool} (inv : Inv size s)
    (stepped : pass s i copy = some t) : Inv size t := by
  unfold AskedExpiry.pass at stepped
  dsimp only at stepped
  split at stepped
  next => exact Option.some.inj stepped ▸ ⟨inv.config,inv.covers.setPosition i _,inv.asked⟩
  next => exact Option.some.inj stepped ▸ ⟨inv.config,inv.covers.setPosition i _,inv.asked⟩
  next => exact Option.some.inj stepped ▸ ⟨inv.config,inv.covers,inv.asked⟩
  next => contradiction

theorem Inv.step (inv : Inv size s) (allowed : allowed s action = true)
    (stepped : next size s action = some t) : Inv size t := by
  cases action with
  | write self data answers => exact inv.write allowed stepped
  | activate i =>
    simp only [next] at stepped
    split at stepped
    next => exact Option.some.inj stepped ▸ ⟨inv.config,ReaderInfo.updateActiveRange_covers _,inv.asked⟩
    next => contradiction
  | deactivate i =>
    exact Option.some.inj stepped ▸ ⟨inv.config,ReaderInfo.updateActiveRange_covers _,inv.asked⟩
  | startRead i =>
    simp only [next] at stepped
    split at stepped
    next => exact Option.some.inj stepped ▸ ⟨inv.config,inv.covers,inv.asked⟩
    next => contradiction
  | pass i copy =>
    simp only [next] at stepped
    split at stepped
    next => exact inv.pass stepped
    next => contradiction

/-- In every run whose calls of `WriteEx` are allowed, no call has expired a live reader without
asking. -/
theorem no_expiry_unasked
    (reached : Reachable ((sys size).restrict (fun s action => allowed s action = true)) s) :
    s.unasked = [] := by
  refine (reached.invariant (Inv size) ?_ ?_).asked
  · rintro s ⟨config,covers,none⟩
    exact ⟨config,covers,none⟩
  · rintro s action t inv ⟨allowed,stepped⟩
    exact inv.step allowed stepped

end

def start16 : State :=
  ⟨ByteRingBuffer.create ring16.position (fun _ => 0),ReaderInfo.create 1,fun _ => 0,fun _ => false,[]⟩

theorem start16_init : (sys ring16).init start16 := by
  exact ⟨rfl,ReaderInfo.create_covers 1,rfl⟩

/-- A reader that has read the first of two messages is expired by a forced write. -/
theorem no_expiry_unasked_forced :
    ∃ s : State, expired (s.own 0) s.rb.freePos ring16.position = true ∧ s.unasked = [] := by
  obtain ⟨s,reached,gone⟩ := exec_reaches (sys ring16) allowed (next ring16)
    (fun _ _ _ taken => taken) start16_init
    [.activate 0,.write 0 [1,1] [],.write 0 [2] [],.startRead 0,.pass 0 (fun _ => true),
      .write 0 [3,3] [.returns false]]
    (fun s => expired (s.own 0) s.rb.freePos ring16.position) true (by decide +kernel)
  exact ⟨s,gone,no_expiry_unasked reached⟩

/-- A reader has read the first of two messages without publishing this. A forced write expires
the published position but not the reader, and the next write expires the reader unasked. -/
theorem lagging_reader_expires_unasked : ∃ s, Reachable (sys ring16) s ∧ s.unasked = [0] := by
  obtain ⟨s,reached,unasked⟩ := exec_reaches (sys ring16) (fun _ _ => true) (next ring16)
    (fun _ _ _ taken => taken) start16_init
    [.activate 0,.write 0 [1,1] [],.write 0 [2] [],.startRead 0,.pass 0 (fun _ => true),
      .write 0 [3] [.returns false],.write 0 [4] []]
    (fun s => s.unasked) [0] (by decide +kernel)
  exact ⟨s,reached.unrestrict,unasked⟩

end Toroni.Rmp.AskedExpiry
