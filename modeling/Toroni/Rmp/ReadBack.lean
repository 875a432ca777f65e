import Toroni.Rmp.Reader
import Toroni.Rmp.Writer

/-! A list of messages written one call after the other and read back in one call. -/
namespace Toroni.Rmp
open Traits Writer Reader

/-- One call of `WriteEx`: the calling owner, the reader tables that its attempts see, the
message, and the answers of its backpressure handler. -/
structure WriteCall where
  self : Owner
  infos : Nat → ReaderInfo
  data : List UInt8
  answers : List BpAnswer

def writeAll : ByteRingBuffer → List WriteCall → Option (ByteRingBuffer × Nat)
  | rb, [] => some (rb,0)
  | rb, call :: calls =>
    (writeEx call.self rb call.infos call.data call.answers).bind (fun out =>
      if out.result = .returned then
        (writeAll out.rb calls).map (fun last => (last.1,(out.rb.freePos - rb.freePos).toNat + last.2))
      else none)

def lengthToBufEnd (rb : ByteRingBuffer) : Nat :=
  (rb.configBufSizeBytes - bufIndex (indexMask rb.configBufSizeBytes) rb.freePos).toNat

/-- No call finds exactly as many bytes left in the buffer as a header takes, where the
padding record in front of the message would be empty. -/
def AvoidsHeaderTail (rb : ByteRingBuffer) (calls : List WriteCall) : Prop :=
  ∀ before call after rb' n, calls = before ++ call :: after → writeAll rb before = some (rb',n) →
    lengthToBufEnd rb' ≠ MsgHeader.size

section
variable {size : RingSize} {rb rb' : ByteRingBuffer} {g : Ledger} {calls : List WriteCall} {n : Nat}

theorem empty_appended {B f : Nat} {data : List UInt8} (content : 1 ≤ data.length) :
    (∀ r ∈ appended B f data, ¬ NoContent r) ↔ B - f % B ≠ MsgHeader.size := by
  have message : ¬ NoContent (.msg data) := by
    have := List.length_pos_iff.mp content
    simpa [NoContent] using this
  unfold appended
  dsimp only
  split
  · have blank : ¬ NoContent (.blank (B - f % B)) := by simp [NoContent]
    simp only [List.mem_cons,List.not_mem_nil,or_false,forall_eq_or_imp,forall_eq,blank,message]
    simp
    omega
  · split
    · simp only [List.mem_cons,List.not_mem_nil,or_false,forall_eq_or_imp,forall_eq,message]
      simp [NoContent]
      omega
    · simp [message]
      omega

theorem lengthToBufEnd_eq {f : Nat} (config : rb.configBufSizeBytes = size.position)
    (free : rb.freePos = BitVec.ofNat 64 f) : lengthToBufEnd rb = size.bytes - f % size.bytes := by
  rw [lengthToBufEnd,config,free,toNat_bufEnd]

theorem avoidsHeaderTail_cons {call : WriteCall} {out : WriteExOutcome}
    (called : Writer.writeEx call.self rb call.infos call.data call.answers = some out)
    (returned : out.result = .returned) :
    AvoidsHeaderTail rb (call :: calls) ↔
      lengthToBufEnd rb ≠ MsgHeader.size ∧ AvoidsHeaderTail out.rb calls := by
  constructor
  · intro avoids
    refine ⟨avoids [] call calls rb 0 rfl rfl,?_⟩
    intro before next after rb' n split reached
    refine avoids (call :: before) next after rb' ((out.rb.freePos - rb.freePos).toNat + n)
      (by rw [split]; rfl) ?_
    simp [writeAll,called,returned,reached]
  · rintro ⟨first,later⟩ before next after rb' n split reached
    cases before with
    | nil =>
      obtain ⟨rfl,rfl⟩ := Prod.mk.inj (Option.some.inj reached)
      exact first
    | cons head before =>
      obtain ⟨rfl,shorter⟩ := List.cons.inj split
      simp only [writeAll,called,Option.bind_some,returned,if_true,Option.map_eq_some_iff] at reached
      obtain ⟨last,reached,same⟩ := reached
      obtain ⟨rfl,_⟩ := Prod.mk.inj same
      exact later before next after last.1 last.2 shorter reached

theorem writeAll_spec (rep : Represents size rb g []) (quiet : g.top ≤ g.free)
    (legal : ∀ call ∈ calls, 1 ≤ call.data.length ∧ Legal size.bytes call.data)
    (done : writeAll rb calls = some (rb',n)) :
    ∃ log, Represents size rb' ⟨g.base,g.log ++ log,g.free + n⟩ [] ∧ n = sizeOf log ∧
      messages log = calls.map WriteCall.data ∧
      ((∀ r ∈ log, ¬ NoContent r) ↔ AvoidsHeaderTail rb calls) := by
  induction calls generalizing rb g n with
  | nil =>
    obtain ⟨rfl,rfl⟩ := Prod.mk.inj (Option.some.inj done)
    refine ⟨[],?_,rfl,rfl,?_⟩
    · simpa using rep.later quiet
    · simp [AvoidsHeaderTail]
  | cons call calls ih =>
    obtain ⟨out,called,rest⟩ := Option.bind_eq_some_iff.mp done
    split at rest
    next returned =>
      obtain ⟨⟨last,m⟩,written,same⟩ := Option.map_eq_some_iff.mp rest
      obtain ⟨rfl,rfl⟩ := Prod.mk.inj same
      obtain ⟨content,short,narrow⟩ := legal call (by simp)
      have grown := represents_writeEx rep quiet ⟨short,narrow⟩ called returned
      have moved := writeEx_moved rep quiet ⟨short,narrow⟩ called returned
      obtain ⟨log,final,count,read,avoids⟩ := ih grown
        (by simp only [Ledger.free,sizeOf_append]; omega)
        (fun call member => legal call (List.mem_cons_of_mem _ member)) written
      refine ⟨appended size.bytes g.free call.data ++ log,?_,?_,?_,?_⟩
      · have total (k : Nat) : g.free + (sizeOf (appended size.bytes g.free call.data) + k) =
            g.base + sizeOf (g.log ++ appended size.bytes g.free call.data) + k := by
          rw [sizeOf_append,Ledger.free]
          omega
        dsimp only
        rw [moved,← List.append_assoc,total]
        exact final
      · rw [moved,count,sizeOf_append]
      · rw [messages_append,messages_appended,read]
        rfl
      · simp only [List.mem_append,or_imp,forall_and,avoids,empty_appended content,
          avoidsHeaderTail_cons called returned,lengthToBufEnd_eq rep.config rep.freePos]
    next => contradiction

/-- Messages that fill less than one revolution are read back from where the first call
found the stream end, all of them and in order, if and only if no call found exactly a
header's length left in the buffer. -/
theorem readEx_all_written_iff (size : RingSize) (rb : ByteRingBuffer) (calls : List WriteCall)
    (config : rb.configBufSizeBytes = size.position)
    (legal : ∀ call ∈ calls, 1 ≤ call.data.length ∧ Legal size.bytes call.data)
    (done : writeAll rb calls = some (rb',n)) (near : n < size.bytes) :
    (∃ passes, readEx (fun _ => true) rb' passes rb.freePos rb.freePos =
      some ⟨some .success,rb'.freePos,rb'.freePos,calls.map WriteCall.data⟩) ↔
        AvoidsHeaderTail rb calls := by
  have bounds := size.bounds
  obtain ⟨log,rep,count,written,avoids⟩ := writeAll_spec (Represents.fresh rb config)
    (by simp [Ledger.free]) legal done
  set g : Ledger := ⟨rb.freePos.toNat,[] ++ log,_⟩ with ledger
  have ends : g.free = rb.freePos.toNat + n := by simp [ledger,Ledger.free,count]
  obtain ⟨bpos,read,published⟩ := readEx_spec (fun _ => true) rb.freePos rep
    (show g.log = [] ++ log from rfl) (show rb.freePos.toNat = g.base + sizeOf [] from rfl) (by omega)
    (by simp [ledger,Ledger.free] at ends ⊢; omega)
  have start : BitVec.ofNat 64 rb.freePos.toNat = rb.freePos := by simp
  rw [start] at read
  rw [← avoids,← readLog_fresh (fun _ => true)
    (show g.free < rb.freePos.toNat + size.bytes by omega)]
  constructor
  · rintro ⟨passes,success⟩
    have same := readEx_unique read success
    simpa using congrArg Outcome.result same
  · intro success
    obtain ⟨went,rest,split,value,ending⟩ := readLog_split (fun _ => true) size.bytes g.free
      rb.freePos.toNat log
    have whole : rest = [] := by
      rcases ending with ⟨none,_⟩ | ⟨r,tail,_,_,expired⟩
      · exact none
      · rw [success] at expired
        contradiction
    subst whole
    rw [List.append_nil] at split
    have reached : BitVec.ofNat 64 (rb.freePos.toNat + sizeOf went) = rb'.freePos := by
      rw [rep.freePos,ends,count,split]
    refine ⟨_,read.trans ?_⟩
    rw [published success,success,value,reached,← split,written]
    simp

end

/-- From position 9 a message waits for the reader that its first attempt finds at 0, and is stored
behind a padding record at the start of the buffer. -/
theorem readEx_all_written_iff_wrapped :
    ∃ rb', writeAll ((ByteRingBuffer.create ring16.position (fun _ => 0)).addFreePos 9)
        [⟨0,fun k => if k = 0 then (ReaderInfo.create 1).activate (some 0) 0 else ReaderInfo.create 1,
          [1,2,3],[.returns true]⟩] = some (rb',15) ∧
      AvoidsHeaderTail ((ByteRingBuffer.create ring16.position (fun _ => 0)).addFreePos 9)
        [⟨0,fun k => if k = 0 then (ReaderInfo.create 1).activate (some 0) 0 else ReaderInfo.create 1,
          [1,2,3],[.returns true]⟩] := by
  have done : writeAll ((ByteRingBuffer.create ring16.position (fun _ => 0)).addFreePos 9)
      [⟨0,fun k => if k = 0 then (ReaderInfo.create 1).activate (some 0) 0 else ReaderInfo.create 1,
        [1,2,3],[.returns true]⟩] = some (_,15) := rfl
  have read := readEx_all_written_iff ring16 _ _ rfl (by simp; decide) done (by decide)
  exact ⟨_,done,read.mp ⟨3,rfl⟩⟩

/-- Six bytes of content leave five bytes in a buffer of sixteen; the next message then has
an empty padding record in front of it, and the reader waiting there reports expiry. -/
theorem header_tail_expires :
    ∃ rb rb', writeAll (ByteRingBuffer.create ring16.position (fun _ => 0))
        [⟨0,fun _ => ReaderInfo.create 1,[1,2,3,4,5,6],[]⟩] = some (rb,11) ∧
      writeAll rb [⟨0,fun _ => (ReaderInfo.create 1).activate (some 0) rb.freePos,[7],[]⟩] =
        some (rb',11) ∧ 11 < ring16.bytes ∧
      ¬ ∃ passes, readEx (fun _ => true) rb' passes rb.freePos rb.freePos =
        some ⟨some .success,rb'.freePos,rb'.freePos,[[7]]⟩ := by
  refine ⟨_,_,rfl,rfl,by decide,?_⟩
  rintro ⟨passes,success⟩
  have same := readEx_unique
    (show readEx (fun _ => true) _ 1 _ _ = some ⟨some .expiredPosition,11,11,[]⟩ by rfl) success
  simp at same

end Toroni.Rmp
