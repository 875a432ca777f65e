import Toroni.Library.Transition
import Toroni.Rmp.ReadBack

/-! Which bytes of the ring a call of `ReadEx` reads and which positions it goes through, in any ring
that whole calls of `WriteEx` have written. -/
namespace Toroni.Rmp
open CircularMemory Traits Transition Writer

namespace Reader

def looksAt (rb : ByteRingBuffer) (pos : Position) : List Nat :=
  if pos = rb.freePos then []
  else
    let bufIndex := Rmp.bufIndex (indexMask rb.configBufSizeBytes) pos
    if rb.configBufSizeBytes - bufIndex < BitVec.ofNat 64 MsgHeader.size then []
    else if Rmp.expired pos rb.freePos rb.configBufSizeBytes then []
    else
      let header := List.range' bufIndex.toNat MsgHeader.size
      let hdrCopy := MsgHeader.read rb.data bufIndex.toNat
      if !hdrCopy.valid || Rmp.expired pos rb.freePos rb.configBufSizeBytes then header
      else if rb.configBufSizeBytes < bufIndex + BitVec.ofNat 64 (MsgHeader.size + hdrCopy.length) then header
      else if hdrCopy.type = MsgHeader.MSG then
        header ++ List.range' (bufIndex.toNat + MsgHeader.size) hdrCopy.length
      else header

def heads (copy : List UInt8 → Bool) (rb : ByteRingBuffer) : Nat → Position → Position → List Position
  | 0, _, _ => []
  | passes+1, pos, bpos =>
    pos :: match iterate copy rb pos bpos with
      | .continues pos bpos _ => heads copy rb passes pos bpos
      | _ => []

def boundaries : Nat → List Record → List Nat
  | p, [] => [p]
  | p, r :: log => p :: boundaries (p + r.size) log

section
variable {copy : List UInt8 → Bool} {size : RingSize} {rb : ByteRingBuffer} {g : Ledger}
  {pending : List UInt8} {before after rest log : List Record} {r : Record} {p : Nat}

theorem load_congr {mem mem' : Nat → UInt8} {start n : Nat}
    (same : ∀ i ∈ List.range' start n, mem' i = mem i) : load mem' start n = load mem start n := by
  apply List.map_congr_left
  intro i inside
  apply same
  rw [List.mem_range'_1]
  have := List.mem_range.mp inside
  omega

/-- A pass depends on no other byte of the ring. -/
theorem iterate_congr (copy : List UInt8 → Bool) (mem : Nat → UInt8) (pos bpos : Position)
    (same : ∀ i ∈ looksAt rb pos, mem i = rb.data i) :
    iterate copy { rb with data := mem } pos bpos = iterate copy rb pos bpos := by
  by_cases ended : pos = rb.freePos
  · simp only [iterate,if_pos ended]
  by_cases tail : rb.configBufSizeBytes - bufIndex (indexMask rb.configBufSizeBytes) pos <
      BitVec.ofNat 64 MsgHeader.size
  · simp only [iterate,if_neg ended,if_pos tail]
  by_cases old : expired pos rb.freePos rb.configBufSizeBytes = true
  · simp only [iterate,if_neg ended,if_neg tail,if_pos old]
  simp only [looksAt,if_neg ended,if_neg tail,if_neg old] at same
  have header : MsgHeader.read mem (bufIndex (indexMask rb.configBufSizeBytes) pos).toNat =
      MsgHeader.read rb.data (bufIndex (indexMask rb.configBufSizeBytes) pos).toNat := by
    refine congrArg MsgHeader.decode (load_congr (fun i inside => same i ?_))
    split
    · exact inside
    split
    · exact inside
    split
    · exact List.mem_append_left _ inside
    · exact inside
  simp only [iterate,if_neg ended,if_neg tail,if_neg old,header]
  split
  · rfl
  split
  · rfl
  split
  case isTrue invalid crosses kind =>
    rw [if_neg invalid,if_neg crosses,if_pos kind] at same
    rw [load_congr (fun i inside => same i (List.mem_append_right _ inside))]
    rfl
  case isFalse => rfl

theorem boundaries_le (p : Nat) (log : List Record) : ∀ q ∈ boundaries p log, p ≤ q ∧ q ≤ p + sizeOf log := by
  induction log generalizing p with
  | nil => simp [boundaries]
  | cons r log ih =>
    intro q member
    rw [sizeOf_cons]
    rcases List.mem_cons.mp member with rfl | inside
    · omega
    · have := ih (p + r.size) q inside
      omega

theorem boundaries_pairwise (p : Nat) (log : List Record) (some_ : ∀ r ∈ log, 0 < r.size) :
    (boundaries p log).Pairwise (· < ·) := by
  induction log generalizing p with
  | nil => simp [boundaries]
  | cons r log ih =>
    obtain ⟨first,others⟩ := List.forall_mem_cons.mp some_
    refine List.pairwise_cons.mpr ⟨fun q inside => ?_,ih _ others⟩
    have := boundaries_le (p + r.size) log q inside
    omega

theorem read_length_lt (mem : Nat → UInt8) (index : Nat) : (MsgHeader.read mem index).length < 2^32 := by
  have bound := LittleEndian.ofBytes_lt (load mem index MsgHeader.size).tail
  rw [List.length_tail,length_load] at bound
  exact bound

theorem looksAt_inside (config : rb.configBufSizeBytes = size.position) (pos : Position) :
    ∀ i ∈ looksAt rb pos, i < size.bytes := by
  have bounds := size.bounds
  obtain ⟨p,rfl⟩ : ∃ p, pos = BitVec.ofNat 64 p := ⟨pos.toNat,by simp⟩
  intro i member
  simp only [looksAt,config,bufEnd_lt size p MsgHeader.size (by decide),bufIndex_ofNat] at member
  have short := read_length_lt rb.data (p % size.bytes)
  by_cases ended : BitVec.ofNat 64 p = rb.freePos
  · rw [if_pos ended] at member
    contradiction
  by_cases tail : size.bytes - p % size.bytes < MsgHeader.size
  · rw [if_neg ended,if_pos tail] at member
    contradiction
  rw [if_neg ended,if_neg tail] at member
  have header : i ∈ List.range' (p % size.bytes) MsgHeader.size → i < size.bytes := by
    rw [List.mem_range'_1]
    omega
  split at member
  · contradiction
  split at member
  · exact header member
  split at member
  · exact header member
  case isFalse within =>
    split at member
    · rcases List.mem_append.mp member with first | payload
      · exact header first
      · rw [BitVec.lt_def,BitVec.toNat_add,bufIndex_ofNat,BitVec.toNat_ofNat,RingSize.toNat_position] at within
        rw [List.mem_range'_1] at payload
        simp only [MsgHeader.size] at within payload tail
        omega
    · exact header member

/-- The loop stays on the boundaries of the records that it goes over. -/
theorem heads_spec (copy : List UInt8 → Bool) (bpos : Position) (rep : Represents size rb g pending)
    (split : g.log = before ++ rest) (start : p = g.base + sizeOf before)
    (near : g.free < p + size.bytes + 2^63)
    (fresh : g.top ≤ p + size.bytes ∨ p + size.bytes ≤ g.free) :
    ∃ went left, rest = went ++ left ∧
      (readLog copy size.bytes g.free p rest).2.1 = p + sizeOf went ∧
      heads copy rb (rest.length + 1) (BitVec.ofNat 64 p) bpos =
        (boundaries p went).map (BitVec.ofNat 64) ∧
      ∀ pos ∈ heads copy rb (rest.length + 1) (BitVec.ofNat 64 p) bpos, ∀ bpos,
        iterate copy rb pos bpos ≠ .assertionFailed := by
  induction rest generalizing before p bpos with
  | nil =>
    have ended : BitVec.ofNat 64 p = rb.freePos := by
      rw [rep.freePos,start,Ledger.free,split,List.append_nil]
    have finished (bpos : Position) : iterate copy rb (BitVec.ofNat 64 p) bpos = .finished := if_pos ended
    refine ⟨[],[],rfl,rfl,?_,?_⟩
    · simp [heads,finished,boundaries]
    · simp [heads,finished]
  | cons r rest ih =>
    have pass (bpos : Position) := iterate_spec copy bpos rep split start near fresh
    rw [List.length_cons,heads]
    by_cases stop : Stops size.bytes g.free p r
    · simp only [if_pos stop] at pass
      refine ⟨[],r :: rest,rfl,by rw [readLog_stops stop]; rfl,?_,?_⟩
      · simp [pass,boundaries]
      · simp [pass]
    · simp only [if_neg stop] at pass
      obtain ⟨split,start,near,fresh⟩ := next_boundary rep split start near fresh stop
      obtain ⟨bpos',moves⟩ := passOver_continues copy rb p bpos r
      obtain ⟨went,left,divided,ends,visited,asserted⟩ := ih bpos' split start near fresh
      rw [pass bpos,moves]
      refine ⟨r :: went,left,by rw [divided,List.cons_append],?_,?_,?_⟩
      · rw [readLog,if_neg stop,sizeOf_cons,← Nat.add_assoc]
        exact ends
      · rw [boundaries,List.map_cons]
        exact congrArg _ visited
      · refine List.forall_mem_cons.mpr ⟨fun bpos failed => ?_,asserted⟩
        obtain ⟨_,goes⟩ := passOver_continues copy rb p bpos r
        rw [pass bpos,goes] at failed
        contradiction

end
end Reader

namespace Termination
open Reader

structure State where
  rb : ByteRingBuffer
  base : Nat
  log : List Record

def next (size : RingSize) (s : State) (call : WriteCall) : Option State :=
  if 1 ≤ call.data.length ∧ Legal size.bytes call.data then
    (writeEx call.self s.rb call.infos call.data call.answers).bind (fun out =>
      if out.result = .running then none
      else
        let records := if out.result = .returned then
          appended size.bytes (s.base + sizeOf s.log) call.data else []
        some ⟨out.rb,s.base,s.log ++ records⟩)
  else none

def sys (size : RingSize) : System State WriteCall :=
  System.ofNext (fun s => s.rb.configBufSizeBytes = size.position ∧ s.base = s.rb.freePos.toNat ∧ s.log = [])
    (next size)

/-- A call at stream position `p`, with the records `rest` ahead, ends after at most one pass for each
of them and another one. Its positions are record boundaries up to the stream end, each ahead of the one
before, it reads within the buffer and depends on no other byte, and no pass fails the assertion. -/
def Terminates (size : RingSize) (rb : ByteRingBuffer) (p : Nat) (rest : List Record)
    (copy : List UInt8 → Bool) (bpos : Position) : Prop :=
  let pos := BitVec.ofNat 64 p
  rb.freePos = BitVec.ofNat 64 (p + sizeOf rest) ∧
    ∃ went left out, rest = went ++ left ∧ readEx copy rb (rest.length + 1) pos bpos = some out ∧
      (out.result = some .success ∨ out.result = some .expiredPosition) ∧
      out.pos = BitVec.ofNat 64 (p + sizeOf went) ∧
      heads copy rb (rest.length + 1) pos bpos = (boundaries p went).map (BitVec.ofNat 64) ∧
      (boundaries p went).Pairwise (· < ·) ∧ (∀ q ∈ boundaries p went, q ≤ p + sizeOf rest) ∧
      ∀ head ∈ heads copy rb (rest.length + 1) pos bpos,
        (∀ i ∈ looksAt rb head, i < size.bytes) ∧ (∀ bpos, iterate copy rb head bpos ≠ .assertionFailed) ∧
          ∀ mem bpos, (∀ i ∈ looksAt rb head, mem i = rb.data i) →
            iterate copy { rb with data := mem } head bpos = iterate copy rb head bpos

section
variable {size : RingSize} {s t : State} {before rest : List Record}

theorem represents (reached : Reachable (sys size) s) :
    Represents size s.rb ⟨s.base,s.log,s.base + sizeOf s.log⟩ [] := by
  refine reached.invariant (fun s => Represents size s.rb ⟨s.base,s.log,s.base + sizeOf s.log⟩ []) ?_ ?_
  · intro s ⟨config,start,empty⟩
    rw [start,empty]
    exact Represents.fresh s.rb config
  · intro s call t rep stepped
    obtain ⟨legal,stepped⟩ := Option.ite_none_right_eq_some.mp stepped
    obtain ⟨out,done,ended⟩ := Option.bind_eq_some_iff.mp stepped
    split at ended
    · contradiction
    · obtain rfl := Option.some.inj ended
      exact represents_ended rep legal.2 done

/-- Reading terminates from any record boundary that is less than half of the counters' range behind. -/
theorem readEx_terminates (reached : Reachable (sys size) s) (split : s.log = before ++ rest)
    (near : sizeOf rest + size.bytes + 1 ≤ 2^63) (copy : List UInt8 → Bool) (bpos : Position) :
    Terminates size s.rb (s.base + sizeOf before) rest copy bpos := by
  have rep := represents reached
  have total : s.base + sizeOf s.log = s.base + sizeOf before + sizeOf rest := by
    rw [split,sizeOf_append,← Nat.add_assoc]
  have fresh : s.base + sizeOf s.log ≤ s.base + sizeOf before + size.bytes ∨
      s.base + sizeOf before + size.bytes ≤ s.base + sizeOf s.log := by
    omega
  obtain ⟨bpos',read,_⟩ := readEx_spec copy bpos rep split rfl (by dsimp only [Ledger.free]; omega) fresh
  obtain ⟨went,left,divided,ends,visited,asserted⟩ := heads_spec copy bpos rep split rfl
    (by dsimp only [Ledger.free]; omega) fresh
  refine ⟨by rw [rep.freePos,← total]; rfl,went,left,_,divided,read,?_,?_,visited,?_,?_,?_⟩
  · obtain ⟨_,_,_,_,⟨_,success⟩ | ⟨_,_,_,_,expired⟩⟩ := readLog_split copy size.bytes
      (s.base + sizeOf s.log) (s.base + sizeOf before) rest
    · exact Or.inl (congrArg some success)
    · exact Or.inr (congrArg some expired)
  · exact congrArg (BitVec.ofNat 64) ends
  · apply boundaries_pairwise
    intro r member
    obtain ⟨first,others,rfl⟩ := List.append_of_mem member
    have bounds := size.bounds
    exact (rep.laid (before ++ first) r (others ++ left) (by rw [split,divided]; simp)).1.size_pos (by omega)
  · intro q inside
    have := boundaries_le (s.base + sizeOf before) went q inside
    rw [divided,sizeOf_append]
    omega
  · intro head member
    exact ⟨looksAt_inside rep.config head,asserted head member,fun mem => iterate_congr copy mem head⟩

end

/-- Two messages, the second one behind a padding record at the start of the buffer. A reader of it
finds it there, and to one of the first message more lies ahead than the ring holds. -/
theorem readEx_terminates_wrapped : ∃ s, Reachable (sys ring16) s ∧
    s.log = [.msg [1,2,3,4,5],.padding 1,.msg [6,7,8]] ∧
    Terminates ring16 s.rb 10 [.padding 1,.msg [6,7,8]] (fun _ => true) 0 ∧
    (readEx (fun _ => true) s.rb 3 10 0).map Outcome.confirmed = some [[6,7,8]] ∧
    Terminates ring16 s.rb 0 s.log (fun _ => true) 0 := by
  obtain ⟨s,reached,seen⟩ := exec_reaches (sys ring16) (fun _ _ => true) (next ring16) (fun _ _ _ => id)
    (s := ⟨ByteRingBuffer.create ring16.position (fun _ => 0),0,[]⟩) ⟨rfl,rfl,rfl⟩
    [⟨0,fun _ => ReaderInfo.create 1,[1,2,3,4,5],[]⟩,⟨0,fun _ => ReaderInfo.create 1,[6,7,8],[]⟩]
    (fun s => (s.base,s.log,(readEx (fun _ => true) s.rb 3 10 0).map Outcome.confirmed))
    (0,[.msg [1,2,3,4,5],.padding 1,.msg [6,7,8]],some [[6,7,8]]) (by decide)
  simp only [Prod.mk.injEq] at seen
  obtain ⟨base,log,confirmed⟩ := seen
  have later := readEx_terminates reached.unrestrict
    (show s.log = [.msg [1,2,3,4,5]] ++ [.padding 1,.msg [6,7,8]] from log) (by decide) (fun _ => true) 0
  have all := readEx_terminates reached.unrestrict (show s.log = [] ++ s.log from rfl) (by rw [log]; decide)
    (fun _ => true) 0
  rw [base] at later all
  exact ⟨s,reached.unrestrict,log,later,confirmed,all⟩

end Termination
end Toroni.Rmp
