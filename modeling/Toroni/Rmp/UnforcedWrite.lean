import Toroni.Library.Transition
import Toroni.Rmp.Writer

/-! One attempt of `Write` that takes backpressure into account, load by load and store by
store, beside a reader that goes on reading and whatever happens in the other slots. -/
namespace Toroni.Rmp.UnforcedWrite
open CircularMemory SerialNumber Transition Traits Writer

inductive WriterPc
  | loadMax
  | loadMin (max : Nat)
  | scan (i max : Nat)
  | look (i max : Nat)
  | storing (ops : List Store)
  | backpressure (pos : Position)
  | returned
  | dead
  deriving DecidableEq

/-- `own` is the in-process position of the reader in one chosen slot. `seen` is a history
variable: the scan has found this slot active and not expired. -/
structure State where
  rb : ByteRingBuffer
  ri : ReaderInfo
  pc : WriterPc
  own : Position
  seen : Bool

def State.published (s : State) (r : Nat) : Position := (s.ri.info r).position

inductive Action
  | write
  | die
  | advance (n : Nat)
  | publish
  | others (ri : ReaderInfo)

def write (data : List UInt8) (r : Nat) (s : State) : Option State :=
  match s.pc with
  | .loadMax => some { s with pc := .loadMin s.ri.getActiveRange.2 }
  | .loadMin max => some { s with pc := .scan s.ri.getActiveRange.1 max }
  | .scan i max =>
    if i < max then
      some { s with pc := if (s.ri.info i).isActive then .look i max else .scan (i + 1) max }
    else some { s with pc := .storing (stores s.rb data) }
  | .look i max =>
    let pos := s.published i
    let n := (layout s.rb (BitVec.ofNat 64 data.length)).bytesToWrite
    if slotBackpressure s.rb n none true pos then some { s with pc := .backpressure pos }
    else some { s with pc := .scan (i + 1) max
                       seen := s.seen || i == r && !expired pos s.rb.freePos s.rb.configBufSizeBytes }
  | .storing (op :: ops) => some { s with rb := op.apply s.rb, pc := .storing ops }
  | .storing [] => some { s with rb := s.rb.setWriterMtx s.rb.writerMtx.unlock, pc := .returned }
  | _ => none

/-- The reader moves on as far as `freePos` and publishes where it is; `others` replaces the
table in everything but the slot of the reader. -/
def next (self : Owner) (data : List UInt8) (r : Nat) (s : State) : Action → Option State
  | .write => write data r s
  | .die =>
    if s.pc = .returned ∨ s.pc = .dead then none
    else some { s with rb := s.rb.setWriterMtx (s.rb.writerMtx.ownerDies self), pc := .dead }
  | .advance n =>
    if n ≤ (s.rb.freePos - s.own).toNat then some { s with own := s.own + BitVec.ofNat 64 n } else none
  | .publish => some { s with ri := s.ri.setPosition r s.own }
  | .others ri => some { s with ri := { ri with info := Function.update ri.info r (s.ri.info r) } }

def Between (first last q : Position) : Prop := (q - first).toNat < (last - first).toNat

/-- The attempt begins at any position of any ring. The published position of the reader is at
or before `freePos`, its own position is not before it and not past `freePos`. -/
def sys (size : RingSize) (self : Owner) (data : List UInt8) (r : Nat) : System State Action :=
  .ofNext (fun s => s.rb.configBufSizeBytes = size.position ∧ s.rb.writerMtx = .locked self ∧
      s.pc = .loadMax ∧ s.seen = false ∧ Legal size.bytes data ∧
      greaterOrEqualThan s.rb.freePos (s.published r) = true ∧
      (s.own - s.published r).toNat ≤ (s.rb.freePos - s.published r).toNat)
    (next self data r)

def Touches (a : Nat) : Store → Prop
  | .bytes index cells => index ≤ a ∧ a < index + cells.length
  | .freePos _ _ => False

/-- What a reader is promised while a write that began in `first` is going on: it is less than
a revolution behind, the next store leaves the bytes it has not read alone, and those of
them that were there at the beginning are unchanged. In a ring of `2^63` bytes `Expired` holds
of a reader that has read everything, and `ReadEx` does not ask then. -/
structure Protected (size : RingSize) (r : Nat) (first s : State) : Prop where
  near : (s.rb.freePos - s.published r).toNat < size.bytes
  untouched : ∀ op ops q, s.pc = .storing (op :: ops) → Between (s.published r) s.rb.freePos q →
    ¬ Touches (bufIndex (indexMask size.position) q).toNat op
  forward : (s.own - s.published r).toNat ≤ (s.rb.freePos - s.published r).toNat
  intact : ∀ q, Between (first.published r) first.rb.freePos q → Between s.own s.rb.freePos q →
    s.rb.data (bufIndex (indexMask size.position) q).toNat =
      first.rb.data (bufIndex (indexMask size.position) q).toNat
  live : size.bytes < 2^63 ∨ s.own ≠ s.rb.freePos → expired s.own s.rb.freePos size.position = false

def Progress (B : Nat) (mem : Nat → UInt8) (free fin : Nat) (rb : ByteRingBuffer) (g : Ledger) :
    WriterPc → Prop
  | .storing ops => ∃ pending, Writes B g.free pending ops ∧ (g.run B ops).free = fin
  | .backpressure _ | .returned | .dead => g.free ≤ fin
  | _ => g.free = free ∧ rb.data = mem

structure Inv (size : RingSize) (data : List UInt8) (r : Nat) (mem : Nat → UInt8) (free fin : Nat)
    (s : State) (g : Ledger) (p o : Nat) : Prop where
  config : s.rb.configBufSizeBytes = size.position
  freePos : s.rb.freePos = BitVec.ofNat 64 g.free
  published : s.published r = BitVec.ofNat 64 p
  own : s.own = BitVec.ofNat 64 o
  order : p ≤ o ∧ o ≤ g.free ∧ free ≤ g.free ∧ free ≤ p + 2^63
  ends : fin = free + sizeOf (appended size.bytes free data)
  progress : Progress size.bytes mem free fin s.rb g s.pc
  safe : s.seen = true →
    fin < p + size.bytes ∧ ∀ q, p ≤ q → q < free → s.rb.data (q % size.bytes) = mem (q % size.bytes)

section
variable {size : RingSize} {self : Owner} {data : List UInt8} {r : Nat} {mem : Nat → UInt8}
  {free fin : Nat} {first s t : State} {g : Ledger} {p o : Nat} {action : Action}

theorem Inv.le_fin (inv : Inv size data r mem free fin s g p o) : g.free ≤ fin := by
  have progress := inv.progress
  have scanning (started : g.free = free ∧ s.rb.data = mem) : g.free ≤ fin := by
    rw [inv.ends,started.1]
    exact Nat.le_add_right _ _
  cases pc : s.pc with
  | storing ops =>
    rw [pc] at progress
    obtain ⟨pending,writes,ends⟩ := progress
    have := writes.top_le.1
    omega
  | backpressure | returned | dead => rw [pc] at progress; exact progress
  | loadMax | loadMin | scan | look => rw [pc] at progress; exact scanning progress

theorem not_touched {pending cells : List UInt8} {index : Nat} {ops : List Store} {q : Nat}
    (writes : Writes size.bytes g.free pending (.bytes index cells :: ops))
    (room : (g.run size.bytes (.bytes index cells :: ops)).free < p + size.bytes)
    (low : p ≤ q) (high : q < g.free) : ¬ Touches (q % size.bytes) (.bytes index cells) := by
  obtain ⟨rfl,inside,rest⟩ := writes
  rintro ⟨left,right⟩
  obtain ⟨j,equal⟩ := Nat.exists_eq_add_of_le left
  have covered := (Writes.top_le
    (g := g.apply size.bytes (.bytes (g.free % size.bytes + pending.length) cells)) rest).1
  rw [Ledger.run_cons] at room
  simp only [Ledger.free_bytes,List.length_append] at covered
  have address : (g.free + (pending.length + j)) % size.bytes = g.free % size.bytes + (pending.length + j) :=
    address_add (by omega)
  have same : q % size.bytes = (g.free + (pending.length + j)) % size.bytes := by omega
  exact address_ne (by omega) (by omega) same

theorem Inv.moved (inv : Inv size data r mem free fin s g p o) (pc : WriterPc)
    (progress : Progress size.bytes mem free fin s.rb g pc) :
    Inv size data r mem free fin { s with pc := pc } g p o := by
  exact { inv with progress := progress }

theorem Inv.look {i max : Nat} (inv : Inv size data r mem free fin s g p o)
    (legal : Legal size.bytes data) (pc : s.pc = .look i max)
    (stepped : write data r s = some t) : Inv size data r mem free fin t g p o := by
  have progress := inv.progress
  rw [pc] at progress
  obtain ⟨started,same⟩ := progress
  simp only [write,pc] at stepped
  split at stepped
  next => exact Option.some.inj stepped ▸ inv.moved _ inv.le_fin
  next passed =>
    obtain rfl := Option.some.inj stepped
    refine { inv with progress := ⟨started,same⟩, safe := fun seen => ?_ }
    dsimp only at seen ⊢
    refine ⟨?_,fun q _ _ => by rw [same]⟩
    by_cases before : s.seen = true
    · exact (inv.safe before).1
    · have small := sizeOf_appended_lt free legal
      have order := inv.order
      simp only [before,Bool.false_or,Bool.and_eq_true,beq_iff_eq,Bool.not_eq_true'] at seen
      obtain ⟨rfl,live⟩ := seen
      rw [layout_eq inv.config inv.freePos legal.2,inv.published,started,
        slotBackpressure_iff inv.config (inv.freePos.trans (by rw [started])) (by omega) (by omega) small.2
          (by omega)] at passed
      rw [inv.published,inv.freePos,inv.config,started] at live
      have inside := lt_of_not_expired size (by omega) (by omega) live
      have total := inv.ends
      omega

theorem Inv.store {op : Store} {ops : List Store} (inv : Inv size data r mem free fin s g p o)
    (pc : s.pc = .storing (op :: ops)) :
    Inv size data r mem free fin { s with rb := op.apply s.rb, pc := .storing ops }
      (g.apply size.bytes op) p o := by
  have progress := inv.progress
  have order := inv.order
  rw [pc] at progress
  obtain ⟨pending,writes,ends⟩ := progress
  cases op with
  | bytes index cells =>
    refine { inv with progress := ⟨_,writes.2.2,ends⟩, safe := fun seen => ?_ }
    obtain ⟨room,kept⟩ := inv.safe seen
    refine ⟨room,fun q low high => ?_⟩
    have apart := not_touched writes (ends ▸ room) low (by omega)
    rw [← kept q low high]
    apply store_outside
    simp only [Touches] at apart
    omega
  | freePos n rec =>
    obtain ⟨rfl,_,fits,rest⟩ := writes
    refine { inv with freePos := ?_, order := ?_, progress := ⟨[],?_,ends⟩ }
    · rw [Ledger.free_freePos]
      simp [Store.apply,ByteRingBuffer.addFreePos,inv.freePos]
    · rw [Ledger.free_freePos]
      omega
    · rw [Ledger.free_freePos]
      exact rest

theorem Inv.write (inv : Inv size data r mem free fin s g p o) (legal : Legal size.bytes data)
    (stepped : write data r s = some t) : ∃ g, Inv size data r mem free fin t g p o := by
  have progress := inv.progress
  cases pc : s.pc with
  | loadMax | loadMin max =>
    rw [pc] at progress
    simp only [UnforcedWrite.write,pc] at stepped
    exact ⟨g,Option.some.inj stepped ▸ inv.moved _ progress⟩
  | scan i max =>
    rw [pc] at progress
    simp only [UnforcedWrite.write,pc] at stepped
    split at stepped
    next => exact ⟨g,Option.some.inj stepped ▸ inv.moved _ (by split <;> exact progress)⟩
    next =>
      refine ⟨g,Option.some.inj stepped ▸ inv.moved _ ⟨[],?_,?_⟩⟩
      · rw [stores_eq inv.config inv.freePos legal.2]
        exact writes_logStores (logFits_appended (by have := size.bounds; omega) legal)
      · rw [stores_eq inv.config inv.freePos legal.2,Ledger.free_run_logStores,inv.ends,progress.1]
  | look i max => exact ⟨g,inv.look legal pc stepped⟩
  | storing ops =>
    simp only [UnforcedWrite.write,pc] at stepped
    cases ops with
    | nil => exact ⟨g,Option.some.inj stepped ▸ { inv with progress := inv.le_fin }⟩
    | cons op ops => exact ⟨_,Option.some.inj stepped ▸ inv.store pc⟩
  | backpressure | returned | dead =>
    simp only [UnforcedWrite.write,pc] at stepped
    contradiction

theorem Inv.step (inv : Inv size data r mem free fin s g p o) (legal : Legal size.bytes data)
    (stepped : next self data r s action = some t) :
    ∃ g p' o, p ≤ p' ∧ Inv size data r mem free fin t g p' o := by
  have order := inv.order
  have small := sizeOf_appended_lt free legal
  have total := inv.ends
  have bound := inv.le_fin
  cases action with
  | write =>
    obtain ⟨g,kept⟩ := inv.write legal stepped
    exact ⟨g,p,o,le_rfl,kept⟩
  | die =>
    simp only [next] at stepped
    split at stepped
    next => contradiction
    next => exact ⟨g,p,o,le_rfl,Option.some.inj stepped ▸ { inv with progress := bound }⟩
  | advance n =>
    simp only [next] at stepped
    split at stepped
    next room =>
      rw [inv.freePos,inv.own,toNat_ofNat_sub_ofNat (by omega) (by omega)] at room
      refine ⟨g,p,o + n,le_rfl,Option.some.inj stepped ▸ { inv with own := ?_, order := ?_ }⟩
      · simp only [inv.own,ofNat_add_ofNat]
      · omega
    next => contradiction
  | publish =>
    refine ⟨g,o,o,order.1,Option.some.inj stepped ▸
      { inv with published := ?_, order := ?_, safe := fun seen => ?_ }⟩
    · simp [State.published,ReaderInfo.setPosition,inv.own]
    · omega
    · obtain ⟨room,kept⟩ := inv.safe seen
      exact ⟨by omega,fun q low => kept q (order.1.trans low)⟩
  | others ri =>
    refine ⟨g,p,o,le_rfl,Option.some.inj stepped ▸ { inv with published := ?_ }⟩
    simpa [State.published] using inv.published

theorem exists_inv (initial : (sys size self data r).init first) :
    ∃ free fin g p o, first.rb.freePos = BitVec.ofNat 64 free ∧
      first.published r = BitVec.ofNat 64 p ∧ p ≤ free ∧
      Inv size data r first.rb.data free fin first g p o := by
  obtain ⟨config,_,pc,seen,_,behind,forward⟩ := initial
  have back := distance_le_of_greaterOrEqualThan behind
  have freePos := eq_ofNat_distance (first.published r) first.rb.freePos
  have own := eq_ofNat_distance (first.published r) first.own
  generalize (first.rb.freePos - first.published r).toNat = distance at *
  generalize (first.own - first.published r).toNat = ahead at *
  let free := (first.published r).toNat + distance
  refine ⟨free,free + sizeOf (appended size.bytes free data),⟨free,[],0⟩,(first.published r).toNat,
    (first.published r).toNat + ahead,freePos,by simp,Nat.le_add_right _ _,?_⟩
  refine ⟨config,freePos,by simp,own,?_,rfl,?_,by simp [seen]⟩
  · simp only [Ledger.free,sizeOf_nil,free]
    omega
  · rw [pc]
    exact ⟨rfl,rfl⟩

theorem run_inv {events : List Action} (legal : Legal size.bytes data)
    (run : Run (sys size self data r) first events s) (start : Inv size data r mem free fin first g p o) :
    ∃ g p' o, p ≤ p' ∧ Inv size data r mem free fin s g p' o := by
  refine run.keeps (fun s => ∃ g p' o, p ≤ p' ∧ Inv size data r mem free fin s g p' o) ?_
    ⟨g,p,o,le_rfl,start⟩
  rintro s action t ⟨g,p',o,forward,inv⟩ stepped
  obtain ⟨g,q,o,further,kept⟩ := inv.step legal stepped
  exact ⟨g,q,o,forward.trans further,kept⟩

theorem Between.exists_nat {p f : Nat} {q : Position} (order : p ≤ f) (near : f < p + 2^64)
    (between : Between (BitVec.ofNat 64 p) (BitVec.ofNat 64 f) q) :
    ∃ n, q = BitVec.ofNat 64 n ∧ p ≤ n ∧ n < f := by
  rw [Between,toNat_ofNat_sub_ofNat order near] at between
  refine ⟨p + (q - BitVec.ofNat 64 p).toNat,?_,by omega,by omega⟩
  rw [BitVec.ofNat_add,BitVec.ofNat_toNat,BitVec.setWidth_eq,BitVec.add_comm,BitVec.sub_add_cancel]

/-- After a write has found a reader active and not expired and goes on, and whatever the
reader and the others do meanwhile, at every step and when the writer dies, the reader is protected. -/
theorem unforced_write_protects {events : List Action} (initial : (sys size self data r).init first)
    (run : Run (sys size self data r) first events s) (seen : s.seen = true) :
    Protected size r first s := by
  obtain ⟨free,fin,_,p₀,_,began,published,order₀,start⟩ := exists_inv initial
  have legal := initial.2.2.2.2.1
  obtain ⟨g,p,o,forward,inv⟩ := run_inv legal run start
  obtain ⟨room,kept⟩ := inv.safe seen
  have bounds := size.bounds
  have order := inv.order
  have bound := inv.le_fin
  have small := sizeOf_appended_lt free legal
  have total := inv.ends
  have first_near := start.order
  refine ⟨?_,?_,?_,?_,?_⟩
  · rw [inv.freePos,inv.published,toNat_ofNat_sub_ofNat (by omega) (by omega)]
    omega
  · intro op ops q pc unread
    rw [inv.published,inv.freePos] at unread
    obtain ⟨q,rfl,low,high⟩ := unread.exists_nat (by omega) (by omega)
    rw [bufIndex_ofNat]
    have progress := inv.progress
    rw [pc] at progress
    obtain ⟨pending,writes,ends⟩ := progress
    cases op with
    | bytes index cells => exact not_touched writes (ends ▸ room) low high
    | freePos => exact id
  · rw [inv.own,inv.freePos,inv.published,toNat_ofNat_sub_ofNat (by omega) (by omega),
      toNat_ofNat_sub_ofNat (by omega) (by omega)]
    omega
  · intro q old unread
    rw [inv.own,inv.freePos] at unread
    rw [published,began] at old
    obtain ⟨m,rfl,low,high⟩ := unread.exists_nat (by omega) (by omega)
    obtain ⟨n,same,early,late⟩ := old.exists_nat order₀ (by omega)
    have equal : n = m := by
      rcases Nat.le_total n m with le | le
      · exact (ofNat_inj_of_near le (by omega)).mp same.symm
      · exact ((ofNat_inj_of_near le (by omega)).mp same).symm
    rw [bufIndex_ofNat]
    exact kept m (by omega) (equal ▸ late)
  · rw [inv.own,inv.freePos,Bool.eq_false_iff]
    intro unread gone
    rcases Nat.eq_or_lt_of_le order.2.1 with caught | behind
    · have small := unread.resolve_right (fun apart => apart (by rw [caught]))
      have := (expired_iff size (by omega) (by omega)).mp gone
      omega
    · have := (expired_behind size behind (by omega)).mp gone
      omega

end

def start16 : State where
  rb := ((ByteRingBuffer.create ring16.position (fun _ => 0)).addFreePos 6).setWriterMtx (.locked 0)
  ri := (ReaderInfo.create 1).activate (some 0) 0
  pc := .loadMax
  own := 0
  seen := false

/-- A writer dies in the middle of a message of three bytes while the reader moves on. -/
theorem unforced_write_protects_dying :
    ∃ s, s.pc = .dead ∧ s.own = 6 ∧ Protected ring16 0 start16 s := by
  have done : (exec (fun _ _ => true) (next 0 [1,2,3] 0) start16
      (List.replicate 7 .write ++ [.advance 6,.write,.publish,.write,.die])).map
        (fun s => (s.pc,s.own,s.seen)) = some (.dead,6,true) := by decide +kernel
  obtain ⟨s,ran,seen⟩ := Option.map_eq_some_iff.mp done
  simp only [Prod.mk.injEq] at seen
  have initial : (sys ring16 0 [1,2,3] 0).init start16 :=
    ⟨rfl,rfl,rfl,rfl,by decide,by decide,by decide⟩
  exact ⟨s,seen.1,seen.2.1,unforced_write_protects initial
    (exec_unrestricted (fun _ _ _ taken => taken) ran) seen.2.2⟩

end Toroni.Rmp.UnforcedWrite
