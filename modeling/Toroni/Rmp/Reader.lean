import Toroni.Rmp.Ledger

/-! The stream reader: one pass of its loop over the ring, the whole call, and what
the call does in terms of the records of the log. -/
namespace Toroni.Rmp
open CircularMemory

namespace Reader

inductive Result
  | success
  | invalidPosition
  | expiredPosition
  deriving DecidableEq

inductive Pass
  | finished
  | continues (pos bpos : Position) (confirmed : List (List UInt8))
  | expired
  | assertionFailed
  deriving DecidableEq

def bposMaxLag (rb : ByteRingBuffer) : Position := rb.configBufSizeBytes >>> 1

def advance (rb : ByteRingBuffer) (pos bpos : Position) (length : Nat)
    (confirmed : List (List UInt8)) : Pass :=
  let pos := pos + BitVec.ofNat 64 (MsgHeader.size + length)
  .continues pos (if bpos + bposMaxLag rb ≤ pos then pos else bpos) confirmed

def iterate (copy : List UInt8 → Bool) (rb : ByteRingBuffer) (pos bpos : Position) : Pass :=
  if pos = rb.freePos then .finished
  else
    let bufIndex := Rmp.bufIndex (indexMask rb.configBufSizeBytes) pos
    if rb.configBufSizeBytes - bufIndex < BitVec.ofNat 64 MsgHeader.size then
      .continues (pos + (rb.configBufSizeBytes - bufIndex)) bpos []
    else if Rmp.expired pos rb.freePos rb.configBufSizeBytes then .expired
    else
      let hdrCopy := MsgHeader.read rb.data bufIndex.toNat
      if !hdrCopy.valid || Rmp.expired pos rb.freePos rb.configBufSizeBytes then .expired
      else if rb.configBufSizeBytes < bufIndex + BitVec.ofNat 64 (MsgHeader.size + hdrCopy.length) then
        .assertionFailed
      else if hdrCopy.type = MsgHeader.MSG then
        let data := load rb.data (bufIndex.toNat + MsgHeader.size) hdrCopy.length
        if copy data then
          if Rmp.expired pos rb.freePos rb.configBufSizeBytes then .expired
          else advance rb pos bpos hdrCopy.length [data]
        else advance rb pos bpos hdrCopy.length []
      else advance rb pos bpos hdrCopy.length []

structure Outcome where
  result : Option Result
  pos : Position
  bpos : Position
  confirmed : List (List UInt8)
  deriving DecidableEq

def loop (copy : List UInt8 → Bool) (rb : ByteRingBuffer) :
    Nat → Position → Position → List (List UInt8) → Option Outcome
  | 0, _, _, _ => none
  | passes+1, pos, bpos, confirmed =>
    match iterate copy rb pos bpos with
    | .finished => some ⟨some .success,pos,pos,confirmed⟩
    | .continues pos bpos next => loop copy rb passes pos bpos (confirmed ++ next)
    | .expired => some ⟨some .expiredPosition,pos,bpos,confirmed⟩
    | .assertionFailed => some ⟨none,pos,bpos,confirmed⟩

def readEx (copy : List UInt8 → Bool) (rb : ByteRingBuffer) (passes : Nat) (pos bpos : Position) :
    Option Outcome :=
  if greaterThan pos rb.freePos then some ⟨some .invalidPosition,pos,bpos,[]⟩
  else loop copy rb passes pos bpos []

def NoContent (r : Record) : Prop := r = .msg [] ∨ r = .padding 0

instance (r : Record) : Decidable (NoContent r) := inferInstanceAs (Decidable (_ ∨ _))

/-- A read that reaches the record at stream position `p` ends there with `EXPIRED_POSITION`:
the record is expired, or its header is not valid because it has no content. A blank is
skipped before either is looked at. -/
def Stops (B free p : Nat) : Record → Prop
  | .msg data => p + B ≤ free ∨ data = []
  | .padding length => p + B ≤ free ∨ length = 0
  | .blank _ => False

instance (B free p : Nat) (r : Record) : Decidable (Stops B free p r) := by
  cases r <;> unfold Stops <;> infer_instance

/-- What reading the records of a log from stream position `p` on does when the stream
ends at `free`: the result, the position reached, and the messages confirmed. -/
def readLog (copy : List UInt8 → Bool) (B free : Nat) : Nat → List Record →
    Result × Nat × List (List UInt8)
  | p, [] => (.success,p,[])
  | p, r :: log =>
    if Stops B free p r then (.expiredPosition,p,[])
    else
      let rest := readLog copy B free (p + r.size) log
      (rest.1,rest.2.1,r.message.toList.filter copy ++ rest.2.2)

section
variable {copy : List UInt8 → Bool} {B free p : Nat} {log : List Record}

theorem Stops.mono {free' : Nat} {r : Record} (stops : Stops B free p r)
    (grown : free ≤ free') : Stops B free' p r := by
  cases r with
  | msg data => exact stops.imp_left grown.trans'
  | padding length => exact stops.imp_left grown.trans'
  | blank length => exact stops

theorem readLog_stops {r : Record} (stops : Stops B free p r) :
    readLog copy B free p (r :: log) = (.expiredPosition,p,[]) := by
  rw [readLog,if_pos stops]

/-- A read goes over some of the records, confirms their messages, and stops at the end
of the log or at a record that stops it. -/
theorem readLog_split (copy : List UInt8 → Bool) (B free p : Nat) (log : List Record) :
    ∃ done rest, log = done ++ rest ∧
      (readLog copy B free p log).2 = (p + sizeOf done,(messages done).filter copy) ∧
      ((rest = [] ∧ (readLog copy B free p log).1 = .success) ∨
        ∃ r tail, rest = r :: tail ∧ Stops B free (p + sizeOf done) r ∧
          (readLog copy B free p log).1 = .expiredPosition) := by
  induction log generalizing p with
  | nil => exact ⟨[],[],rfl,rfl,Or.inl ⟨rfl,rfl⟩⟩
  | cons r log ih =>
    by_cases stop : Stops B free p r
    · refine ⟨[],r :: log,rfl,by simp [readLog,stop],Or.inr ⟨r,log,rfl,by simpa using stop,?_⟩⟩
      simp [readLog,stop]
    · obtain ⟨done,rest,split,value,ends⟩ := ih (p + r.size)
      refine ⟨r :: done,rest,by rw [split,List.cons_append],?_,?_⟩
      · simp only [readLog,stop,if_false,value,sizeOf_cons,messages_cons,List.filter_append,
          Nat.add_assoc]
      · simpa only [readLog,stop,if_false,sizeOf_cons,Nat.add_assoc] using ends

theorem readLog_all (B free p : Nat) (log : List Record) :
    ∃ result went left, log = went ++ left ∧
      readLog (fun _ => true) B free p log = (result,p + sizeOf went,messages went) ∧
      ((left = [] ∧ result = .success) ∨
        ∃ r tail, left = r :: tail ∧ Stops B free (p + sizeOf went) r ∧ result = .expiredPosition) := by
  obtain ⟨went,left,split,value,ending⟩ := readLog_split (fun _ => true) B free p log
  rw [List.filter_true] at value
  exact ⟨_,went,left,split,Prod.ext rfl value,ending⟩

theorem readLog_fresh (copy : List UInt8 → Bool) (fresh : free < p + B) :
    (readLog copy B free p log).1 = .success ↔ ∀ r ∈ log, ¬ NoContent r := by
  induction log generalizing p with
  | nil => simp [readLog]
  | cons r log ih =>
    have same : Stops B free p r ↔ NoContent r := by
      have young : ¬ p + B ≤ free := by omega
      cases r <;> simp [Stops,NoContent,young]
    by_cases stop : Stops B free p r
    · simp [readLog,stop,same.mp stop]
    · simpa [readLog,stop,mt same.mpr stop] using ih (show free < p + r.size + B by omega)

end

section
variable {copy : List UInt8 → Bool} {rb : ByteRingBuffer}

theorem loop_mono {passes : Nat} (more : Nat) {pos bpos : Position} {confirmed : List (List UInt8)}
    {out : Outcome} (done : loop copy rb passes pos bpos confirmed = some out) :
    loop copy rb (passes + more) pos bpos confirmed = some out := by
  induction passes generalizing pos bpos confirmed with
  | zero => simp [loop] at done
  | succ passes ih =>
    rw [Nat.add_right_comm]
    simp only [loop] at done ⊢
    cases pass : iterate copy rb pos bpos with
    | finished => simpa only [pass] using done
    | continues pos bpos next =>
      simp only [pass] at done ⊢
      exact ih done
    | expired => simpa only [pass] using done
    | assertionFailed => simpa only [pass] using done

theorem pos_of_finished {pos bpos : Position} (finished : iterate copy rb pos bpos = .finished) :
    pos = rb.freePos := by
  by_contra away
  simp only [iterate,if_neg away] at finished
  repeat' split at finished
  all_goals simp [advance] at finished

theorem loop_success {passes : Nat} {pos bpos : Position} {confirmed : List (List UInt8)}
    {out : Outcome} (done : loop copy rb passes pos bpos confirmed = some out)
    (success : out.result = some .success) : out.pos = rb.freePos := by
  induction passes generalizing pos bpos confirmed with
  | zero => simp [loop] at done
  | succ passes ih =>
    simp only [loop] at done
    split at done
    next finished =>
      obtain rfl := Option.some.inj done
      exact pos_of_finished finished
    next => exact ih done
    next =>
      obtain rfl := Option.some.inj done
      simp at success
    next =>
      obtain rfl := Option.some.inj done
      simp at success

theorem readEx_success {passes : Nat} {pos bpos : Position} {out : Outcome}
    (done : readEx copy rb passes pos bpos = some out) (success : out.result = some .success) :
    out.pos = rb.freePos := by
  unfold readEx at done
  split at done
  · obtain rfl := Option.some.inj done
    simp at success
  · exact loop_success done success

theorem readEx_unique {passes passes' : Nat} {pos bpos : Position} {out out' : Outcome}
    (done : readEx copy rb passes pos bpos = some out)
    (done' : readEx copy rb passes' pos bpos = some out') : out = out' := by
  unfold readEx at done done'
  split at done
  · next invalid =>
    rw [if_pos invalid] at done'
    exact Option.some.inj (done.symm.trans done')
  · next valid =>
    rw [if_neg valid] at done'
    have first := loop_mono passes' done
    have second := loop_mono passes done'
    rw [Nat.add_comm] at second
    exact Option.some.inj (first.symm.trans second)

end

section
variable {size : RingSize} {rb : ByteRingBuffer} {g : Ledger} {pending : List UInt8}
  {before after : List Record} {r : Record} {p : Nat}

def passOver (copy : List UInt8 → Bool) (rb : ByteRingBuffer) (p : Nat) (bpos : Position) :
    Record → Pass
  | .msg data => advance rb (BitVec.ofNat 64 p) bpos data.length ([data].filter copy)
  | .padding n => advance rb (BitVec.ofNat 64 p) bpos n []
  | .blank n => .continues (BitVec.ofNat 64 (p + n)) bpos []

/-- At a record boundary whose bytes are in memory, or which is expired, a pass does what
the record says. -/
theorem iterate_spec (copy : List UInt8 → Bool) (bpos : Position) (rep : Represents size rb g pending) (split : g.log = before ++ r :: after)
    (start : p = g.base + sizeOf before) (near : g.free < p + size.bytes + 2^63)
    (fresh : g.top ≤ p + size.bytes ∨ p + size.bytes ≤ g.free) :
    iterate copy rb (BitVec.ofNat 64 p) bpos =
      if Stops size.bytes g.free p r then .expired else passOver copy rb p bpos r := by
  subst start
  have bounds := size.bounds
  obtain ⟨fits,holds⟩ := rep.laid before r after split
  have positive := fits.size_pos (by omega)
  have behind : g.base + sizeOf before < g.free := by
    rw [Ledger.free,split,sizeOf_append,sizeOf_cons]
    omega
  generalize g.base + sizeOf before = p at *
  have away : BitVec.ofNat 64 p ≠ BitVec.ofNat 64 g.free := fun same =>
    absurd ((SerialNumber.ofNat_inj_of_near (by omega) (by omega)).mp same) (by omega)
  have tooOld := expired_behind size behind (by omega)
  have short := bufEnd_lt size p MsgHeader.size (by decide)
  simp only [iterate,rep.config,rep.freePos,if_neg away,bufIndex_ofNat]
  cases r with
  | blank n =>
    have tail : size.position - bufIndex (indexMask size.position) (BitVec.ofNat 64 p) =
        BitVec.ofNat 64 n := by
      apply BitVec.eq_of_toNat_eq
      rw [toNat_bufEnd,BitVec.toNat_ofNat]
      have := fits.1
      omega
    rw [if_pos (short.mpr (by have := fits.1; have := fits.2; omega)),tail,
      SerialNumber.ofNat_add_ofNat,if_neg (by simp [Stops])]
    rfl
  | padding n =>
    rw [if_neg (by rw [short]; have := fits.1; omega)]
    by_cases old : p + size.bytes ≤ g.free
    · rw [if_pos (tooOld.mpr old)]
      exact (if_pos (Or.inl old)).symm
    · have header : MsgHeader.read rb.data (p % size.bytes) = ⟨MsgHeader.PADDING,n⟩ :=
        MsgHeader.read_of_holds
          (show Holds rb.data size.bytes g.top p ((MsgHeader.mk MsgHeader.PADDING n).bytes ++ []) by
            rw [List.append_nil]; exact holds)
          (fresh.resolve_right old) (by have := fits.1; omega) fits.2
      have kept : ¬ expired (BitVec.ofNat 64 p) (BitVec.ofNat 64 g.free) size.position = true :=
        fun gone => old (tooOld.mp gone)
      rw [if_neg kept,header]
      by_cases empty : n = 0
      · simp [empty,MsgHeader.valid,Stops]
      · have inside := bufIndex_add_le size (p := p) (n := MsgHeader.size + n)
          (by have := fits.1; omega)
        simp [MsgHeader.valid,empty,kept,old,inside,MsgHeader.PADDING,MsgHeader.MSG,Stops,passOver]
  | msg data =>
    have room : p % size.bytes + (MsgHeader.size + data.length) ≤ size.bytes := by
      have := fits.1
      omega
    rw [if_neg (by rw [short]; omega)]
    by_cases old : p + size.bytes ≤ g.free
    · rw [if_pos (tooOld.mpr old)]
      exact (if_pos (Or.inl old)).symm
    · have near := fresh.resolve_right old
      have header : MsgHeader.read rb.data (p % size.bytes) = ⟨MsgHeader.MSG,data.length⟩ :=
        MsgHeader.read_of_holds holds near (by omega) fits.2
      have body : load rb.data (p % size.bytes + MsgHeader.size) data.length = data := by
        have right := holds.right
        rw [MsgHeader.length_bytes] at right
        by_cases empty : data = []
        · simp [empty,load]
        · have := List.length_pos_iff.mpr empty
          have address : (p + MsgHeader.size) % size.bytes = p % size.bytes + MsgHeader.size :=
            address_add (by omega)
          rw [← address]
          exact right.load (by omega) (by omega)
      have kept : ¬ expired (BitVec.ofNat 64 p) (BitVec.ofNat 64 g.free) size.position = true :=
        fun gone => old (tooOld.mp gone)
      have inside := bufIndex_add_le size room
      rw [if_neg kept,header]
      by_cases empty : data = []
      · simp [empty,MsgHeader.valid,Stops]
      · simp only [body]
        by_cases wanted : copy data = true
        · simp [MsgHeader.valid,empty,kept,old,inside,wanted,Stops,passOver]
        · simp [MsgHeader.valid,empty,kept,old,inside,wanted,Stops,passOver]

theorem passOver_continues (copy : List UInt8 → Bool) (rb : ByteRingBuffer) (p : Nat) (bpos : Position)
    (r : Record) : ∃ bpos', passOver copy rb p bpos r =
      .continues (BitVec.ofNat 64 (p + r.size)) bpos' (r.message.toList.filter copy) := by
  cases r with
  | blank n => exact ⟨bpos,rfl⟩
  | msg data =>
    rw [passOver,advance,SerialNumber.ofNat_add_ofNat]
    exact ⟨_,rfl⟩
  | padding n =>
    rw [passOver,advance,SerialNumber.ofNat_add_ofNat]
    exact ⟨_,rfl⟩

/-- Behind a record that does not stop the read the bytes are in memory too, or it is expired. -/
theorem fresh_next (rep : Represents size rb g pending) (fits : r.Fits size.bytes p)
    (fresh : g.top ≤ p + size.bytes ∨ p + size.bytes ≤ g.free) (goes : ¬ Stops size.bytes g.free p r) :
    g.top ≤ p + r.size + size.bytes ∨ p + r.size + size.bytes ≤ g.free := by
  cases r with
  | blank n => exact rep.skip_blank fits.1 fresh
  | msg data => exact Or.inl (by simp only [Stops] at goes; omega)
  | padding n => exact Or.inl (by simp only [Stops] at goes; omega)

/-- What `iterate_spec` needs holds again behind a record that it goes over. -/
theorem next_boundary {rest : List Record} (rep : Represents size rb g pending)
    (split : g.log = before ++ r :: rest) (start : p = g.base + sizeOf before)
    (near : g.free < p + size.bytes + 2^63) (fresh : g.top ≤ p + size.bytes ∨ p + size.bytes ≤ g.free)
    (goes : ¬ Stops size.bytes g.free p r) :
    g.log = (before ++ [r]) ++ rest ∧ p + r.size = g.base + sizeOf (before ++ [r]) ∧
      g.free < p + r.size + size.bytes + 2^63 ∧
      (g.top ≤ p + r.size + size.bytes ∨ p + r.size + size.bytes ≤ g.free) := by
  have fits := (rep.laid before r rest split).1
  rw [← start] at fits
  refine ⟨by rw [split,List.append_cons],?_,by omega,fresh_next rep fits fresh goes⟩
  rw [start,sizeOf_append,sizeOf_cons,sizeOf_nil,Nat.add_zero,Nat.add_assoc]

theorem loop_spec {rest : List Record} (copy : List UInt8 → Bool) (bpos : Position) (rep : Represents size rb g pending)
    (split : g.log = before ++ rest) (start : p = g.base + sizeOf before)
    (near : g.free < p + size.bytes + 2^63)
    (fresh : g.top ≤ p + size.bytes ∨ p + size.bytes ≤ g.free)
    (confirmed : List (List UInt8)) :
    let read := readLog copy size.bytes g.free p rest
    ∃ bpos', loop copy rb (rest.length + 1) (BitVec.ofNat 64 p) bpos confirmed =
        some ⟨some read.1,BitVec.ofNat 64 read.2.1,bpos',confirmed ++ read.2.2⟩ ∧
      (read.1 = .success → bpos' = BitVec.ofNat 64 read.2.1) := by
  induction rest generalizing before p bpos confirmed with
  | nil =>
    have ended : p = g.free := by
      rw [start,Ledger.free,split,List.append_nil]
    refine ⟨BitVec.ofNat 64 p,?_,fun _ => rfl⟩
    simp [loop,iterate,readLog,ended,rep.freePos]
  | cons r rest ih =>
    have pass := iterate_spec copy bpos rep split start near fresh
    rw [List.length_cons,loop,pass]
    by_cases stop : Stops size.bytes g.free p r
    · exact ⟨bpos,by simp [readLog,stop],by simp [readLog,stop]⟩
    · obtain ⟨split,start,near,fresh⟩ := next_boundary rep split start near fresh stop
      have next (bpos' : Position) (found : List (List UInt8)) := ih bpos' split start near fresh found
      simp only [readLog,stop,if_false]
      cases r with
      | msg data =>
        simpa only [passOver,advance,SerialNumber.ofNat_add_ofNat,Record.size,Record.message,
          Option.toList_some,List.append_assoc] using next _ (confirmed ++ [data].filter copy)
      | padding n =>
        simpa only [passOver,advance,SerialNumber.ofNat_add_ofNat,Record.size,Record.message,
          Option.toList_none,List.filter_nil,List.nil_append,List.append_nil] using next _ confirmed
      | blank n =>
        simpa only [passOver,Record.size,Record.message,Option.toList_none,List.filter_nil,
          List.nil_append,List.append_nil] using next bpos confirmed

/-- A call that starts at a record boundary returns, with what the rest of the log says. -/
theorem readEx_spec {rest : List Record} (copy : List UInt8 → Bool) (bpos : Position) (rep : Represents size rb g pending)
    (split : g.log = before ++ rest) (start : p = g.base + sizeOf before)
    (near : g.free < p + 2^63) (fresh : g.top ≤ p + size.bytes ∨ p + size.bytes ≤ g.free) :
    let read := readLog copy size.bytes g.free p rest
    ∃ bpos', readEx copy rb (rest.length + 1) (BitVec.ofNat 64 p) bpos =
        some ⟨some read.1,BitVec.ofNat 64 read.2.1,bpos',read.2.2⟩ ∧
      (read.1 = .success → bpos' = BitVec.ofNat 64 read.2.1) := by
  have behind : p ≤ g.free := by
    rw [start,Ledger.free,split,sizeOf_append]
    omega
  have valid : ¬ greaterThan (BitVec.ofNat 64 p) rb.freePos = true := by
    rw [rep.freePos,greaterThan_iff (by omega) near]
    omega
  rw [readEx,if_neg valid]
  exact loop_spec copy bpos rep split start (by omega) fresh []

/-- Such a call with a handler that copies everything goes over some of the records, and stops
in front of another one only with `EXPIRED_POSITION`. -/
theorem readEx_records {rest : List Record} {passes : Nat} {pos bpos : Position} {out : Outcome}
    (rep : Represents size rb g pending) (split : g.log = before ++ rest)
    (start : pos = BitVec.ofNat 64 (g.base + sizeOf before))
    (near : g.free < g.base + sizeOf before + 2^63)
    (fresh : g.top ≤ g.base + sizeOf before + size.bytes ∨ g.base + sizeOf before + size.bytes ≤ g.free)
    (done : readEx (fun _ => true) rb passes pos bpos = some out) :
    ∃ result went left, rest = went ++ left ∧ out.result = some result ∧
      out.pos = BitVec.ofNat 64 (g.base + sizeOf (before ++ went)) ∧ out.confirmed = messages went ∧
      (left = [] ∧ result = .success ∨
        (∃ r tail, left = r :: tail ∧ Stops size.bytes g.free (g.base + sizeOf (before ++ went)) r) ∧
          result = .expiredPosition) := by
  obtain ⟨bpos',read,_⟩ := readEx_spec (fun _ => true) bpos rep split rfl near fresh
  obtain ⟨result,went,left,divided,value,ending⟩ :=
    readLog_all size.bytes g.free (g.base + sizeOf before) rest
  rw [value,← start] at read
  obtain rfl := readEx_unique read done
  refine ⟨result,went,left,divided,rfl,by rw [sizeOf_append,Nat.add_assoc],rfl,?_⟩
  rw [sizeOf_append,← Nat.add_assoc]
  rcases ending with success | ⟨r,tail,whole,stops,expired⟩
  · exact Or.inl success
  · exact Or.inr ⟨⟨r,tail,whole,stops⟩,expired⟩

end
end Reader
end Toroni.Rmp
