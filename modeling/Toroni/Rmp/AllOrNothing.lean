import Toroni.Rmp.Writer

/-! A call of `WriteEx` appends its message once and as a whole, or it leaves the ring as it was. -/
namespace Toroni.Rmp
open CircularMemory Traits

namespace Writer

def Detects (rb : ByteRingBuffer) (data : List UInt8) (info : ReaderInfo) : Prop :=
  ∃ pos, write rb info data true none = .backpressure pos

/-- A message has been appended at stream position `f`, with `front` between it and the old end. Of
what is in front of it the message itself may replace bytes that lie a revolution earlier. -/
structure AppendedOnce (B f : Nat) (data : List UInt8) (rb rb' : ByteRingBuffer) (front : List Record) :
    Prop where
  kind : front = [] ∨ ∃ n, (front = [.padding n] ∧ f % B + MsgHeader.size + n = B) ∨
    (front = [.blank n] ∧ f % B + n = B)
  freePos : rb'.freePos = rb.freePos + BitVec.ofNat 64 (sizeOf (front ++ [.msg data]))
  inside : (f + sizeOf front) % B + (Record.msg data).size ≤ B
  message : load rb'.data ((f + sizeOf front) % B) (Record.msg data).size = (Record.msg data).bytes
  padding : ∀ r ∈ front, Holds rb'.data B (f + sizeOf (front ++ [.msg data])) f r.bytes
  unchanged : ∀ i, (∀ p, f ≤ p → p < f + sizeOf (front ++ [.msg data]) → p % B ≠ i) → rb'.data i = rb.data i

section
variable {size : RingSize} {rb : ByteRingBuffer} {B f : Nat} {data : List UInt8} {log : List Record}

@[simp] theorem run_backPressureCount (ops : List Store) :
    (Store.run rb ops).backPressureCount = rb.backPressureCount := by
  induction ops generalizing rb with
  | nil => rfl
  | cons op ops ih =>
    rw [Store.run_cons,ih]
    cases op <;> rfl

theorem run_logStores_frame (fits : LogFits B f log) {i : Nat}
    (outside : ∀ p, f ≤ p → p < f + sizeOf log → p % B ≠ i) :
    (Store.run rb (logStores B f log)).data i = rb.data i := by
  induction log generalizing rb f with
  | nil => rfl
  | cons r log ih =>
    obtain ⟨place,rest⟩ := fits
    rw [sizeOf_cons] at outside
    rw [logStores,Store.run_append,ih rest (fun p low high => outside p (by omega) (by omega)),
      run_recordStores]
    have stored := place.stored
    have short := r.length_bytes_le
    apply store_outside
    by_contra within
    push Not at within
    obtain ⟨j,rfl⟩ := Nat.exists_eq_add_of_le within.1
    exact outside (f + j) (Nat.le_add_right _ _) (by omega) (address_add (by omega))

theorem detects_iff (config : rb.configBufSizeBytes = size.position)
    (free : rb.freePos = BitVec.ofNat 64 f) (legal : Legal size.bytes data) (info : ReaderInfo) :
    Detects rb data info ↔
      detectReaderBackpressure rb info (BitVec.ofNat 64 (sizeOf (appended size.bytes f data))) none ≠ none := by
  unfold Detects
  rw [write_eq config free legal,if_pos rfl]
  cases detectReaderBackpressure rb info _ none with
  | none => simp
  | some pos => simp

theorem retry_undetected (config : rb.configBufSizeBytes = size.position)
    (free : rb.freePos = BitVec.ofNat 64 f) (legal : Legal size.bytes data) {infos : Nat → ReaderInfo}
    (quiet : ¬ Detects rb data (infos 0)) (answers : List BpAnswer) (calls : List Position) :
    retry rb infos data answers calls =
      ⟨.returned,Store.run rb (logStores size.bytes f (appended size.bytes f data)),calls⟩ := by
  rw [detects_iff config free legal,not_not] at quiet
  rw [retry.eq_def,write_eq config free legal,if_pos rfl,quiet]

structure Retried (rb : ByteRingBuffer) (infos : Nat → ReaderInfo) (data : List UInt8) (n : Nat)
    (last : BpAnswer) (calls later : List Position) (out : WriteExOutcome) : Prop where
  called : out.handlerCalls = calls ++ later
  counted : out.rb.backPressureCount = rb.backPressureCount + BitVec.ofNat 64 later.length
  few : later.length ≤ n + 1
  asked : ∀ k, k ≤ n → (k < later.length ↔ ∀ i, i ≤ k → Detects rb data (infos i))
  threw : last = .throws ∧ later.length = n + 1 → out.result = .threw
  returned : ¬ (last = .throws ∧ later.length = n + 1) → out.result = .returned

theorem retried_undetected (config : rb.configBufSizeBytes = size.position)
    (free : rb.freePos = BitVec.ofNat 64 f) (legal : Legal size.bytes data) {infos : Nat → ReaderInfo}
    (quiet : ¬ Detects rb data (infos 0)) (n : Nat) (last : BpAnswer) (answers : List BpAnswer)
    (calls : List Position) :
    Retried rb infos data n last calls [] (retry rb infos data answers calls) := by
  rw [retry_undetected config free legal quiet]
  refine ⟨by simp,by simp,by simp,?_,by simp,fun _ => rfl⟩
  intro k _
  constructor
  · intro none
    exact absurd none (Nat.not_lt_zero k)
  · intro all
    exact absurd (all 0 (Nat.zero_le k)) quiet

/-- The handler that waits `n` times and then answers `last` is called once for each of the first
tables that shows a reader to be waited for. -/
theorem retry_retried (config : rb.configBufSizeBytes = size.position)
    (free : rb.freePos = BitVec.ofNat 64 f) (legal : Legal size.bytes data) (infos : Nat → ReaderInfo)
    (n : Nat) {last : BpAnswer} (ends : last ≠ .returns true) (calls : List Position) :
    ∃ later, Retried rb infos data n last calls later
      (retry rb infos data (List.replicate n (.returns true) ++ [last]) calls) := by
  by_cases seen : Detects rb data (infos 0)
  swap
  · exact ⟨[],retried_undetected config free legal seen _ _ _ _⟩
  obtain ⟨pos,detected⟩ := id seen
  induction n generalizing rb infos calls pos with
  | zero =>
    have only : ∀ k, k ≤ 0 → (k < [rb.freePos].length ↔ ∀ i, i ≤ k → Detects rb data (infos i)) := by
      intro k none
      obtain rfl := Nat.le_zero.mp none
      simpa using seen
    rw [List.replicate_zero,List.nil_append,retry,detected]
    cases last with
    | throws => exact ⟨[rb.freePos],rfl,rfl,le_rfl,only,fun _ => rfl,by simp⟩
    | returns keep =>
      obtain rfl : keep = false := by simpa using ends
      dsimp only
      rw [write_eq (show rb.countBackPressure.configBufSizeBytes = size.position from config) free legal]
      refine ⟨[rb.freePos],rfl,?_,le_rfl,only,by simp,fun _ => rfl⟩
      simp only [Bool.false_eq_true,if_false,run_backPressureCount]
      rfl
  | succ n ih =>
    have locked : rb.countBackPressure.configBufSizeBytes = size.position := config
    have same : ∀ info, Detects rb.countBackPressure data info ↔ Detects rb data info := by
      intro info
      rw [detects_iff config free legal,detects_iff locked free legal]
      exact Iff.rfl
    have rest : ∃ later, Retried rb.countBackPressure (fun k => infos (k + 1)) data n last
        (calls ++ [rb.freePos]) later (retry rb.countBackPressure (fun k => infos (k + 1)) data
          (List.replicate n (.returns true) ++ [last]) (calls ++ [rb.freePos])) := by
      by_cases again : Detects rb.countBackPressure data (infos 1)
      · obtain ⟨pos,more⟩ := id again
        exact ih locked free (fun k => infos (k + 1)) _ again pos more
      · exact ⟨[],retried_undetected locked free legal again _ _ _ _⟩
    obtain ⟨later,rest⟩ := rest
    rw [List.replicate_succ,List.cons_append,retry,detected]
    refine ⟨rb.freePos :: later,?_,?_,Nat.succ_le_succ rest.few,?_,?_,?_⟩
    · exact rest.called.trans (List.append_assoc _ _ _)
    · refine rest.counted.trans ?_
      rw [List.length_cons,Nat.add_comm later.length,← SerialNumber.ofNat_add_ofNat,← BitVec.add_assoc]
      rfl
    · intro k bound
      cases k with
      | zero => simpa using seen
      | succ k =>
        rw [List.length_cons,Nat.add_lt_add_iff_right,rest.asked k (by omega)]
        constructor
        · intro all i below
          cases i with
          | zero => exact seen
          | succ i => exact (same _).mp (all i (by omega))
        · intro all i below
          exact (same _).mpr (all (i + 1) (by omega))
    · rintro ⟨throws,length⟩
      exact rest.threw ⟨throws,by simpa using length⟩
    · intro otherwise
      exact rest.returned (by simpa using otherwise)

theorem appended_split (positive : 0 < B) (f : Nat) (data : List UInt8) :
    ∃ front, appended B f data = front ++ [.msg data] ∧
      (front = [] ∨ ∃ n, (front = [.padding n] ∧ f % B + MsgHeader.size + n = B) ∨
        (front = [.blank n] ∧ f % B + n = B)) := by
  have inside := Nat.mod_lt f positive
  unfold appended
  dsimp only
  split
  · exact ⟨[.blank (B - f % B)],rfl,Or.inr ⟨_,Or.inr ⟨rfl,by omega⟩⟩⟩
  · split
    · exact ⟨[.padding (B - f % B - MsgHeader.size)],rfl,Or.inr ⟨_,Or.inl ⟨rfl,by omega⟩⟩⟩
    · exact ⟨[],rfl,Or.inl rfl⟩

theorem appendedOnce (config : rb.configBufSizeBytes = size.position) (legal : Legal size.bytes data) :
    ∃ front, AppendedOnce size.bytes rb.freePos.toNat data rb
      (Store.run rb (logStores size.bytes rb.freePos.toNat (appended size.bytes rb.freePos.toNat data))) front := by
  have positive := size.positive
  obtain ⟨front,split,kind⟩ := appended_split positive rb.freePos.toNat data
  have fits := logFits_appended (f := rb.freePos.toNat) positive legal
  have fresh := Represents.fresh rb config
  have rep := fresh.append (by simp [Ledger.free]) (by simpa [Ledger.free] using fits)
  simp only [Ledger.free,sizeOf_nil,Nat.add_zero,List.nil_append] at rep
  rw [split] at rep fits ⊢
  obtain ⟨place,holds⟩ := rep.laid front (.msg data) [] rfl
  have length : (Record.msg data).bytes.length = (Record.msg data).size := by
    simp [Record.bytes,Record.size]
  have room : (rb.freePos.toNat + sizeOf front) % size.bytes + (Record.msg data).size ≤ size.bytes := by
    rw [← length]
    exact place.stored
  have total : sizeOf (front ++ [.msg data]) = sizeOf front + (Record.msg data).size := by
    rw [sizeOf_append,sizeOf_cons,sizeOf_nil,Nat.add_zero]
  refine ⟨front,kind,?_,room,?_,?_,?_⟩
  · rw [rep.freePos,Ledger.free,← SerialNumber.ofNat_add_ofNat,BitVec.ofNat_toNat,BitVec.setWidth_eq]
  · have loaded := holds.load (by dsimp only; omega) (by rw [length]; exact room)
    rwa [length] at loaded
  · intro r member
    obtain ⟨none,single⟩ | ⟨n,⟨rfl,_⟩ | ⟨rfl,_⟩⟩ := kind
    · contradiction
    · obtain rfl := List.mem_singleton.mp member
      exact (rep.laid [] (.padding n) [.msg data] rfl).2
    · obtain rfl := List.mem_singleton.mp member
      exact Holds.nil
  · exact fun i outside => run_logStores_frame fits outside

theorem AppendedOnce.same {rb' rb'' : ByteRingBuffer} {front : List Record}
    (once : AppendedOnce B f data rb rb' front) (same : SameStream rb' rb'') :
    AppendedOnce B f data rb rb'' front where
  kind := once.kind
  freePos := same.freePos.trans once.freePos
  inside := once.inside
  message := same.data ▸ once.message
  padding := same.data ▸ once.padding
  unchanged := same.data ▸ once.unchanged

theorem leave_counts (out : WriteExOutcome) : out.leave.handlerCalls = out.handlerCalls ∧
    out.leave.rb.backPressureCount = out.rb.backPressureCount := by
  unfold WriteExOutcome.leave
  split
  · exact ⟨rfl,rfl⟩
  · exact ⟨rfl,rfl⟩

/-- The call asks the handler once for each of the first tables that shows backpressure. It throws,
and leaves stream and bytes as they were, if the handler does at the end; else it appends exactly the
message, with what fills the buffer in front of it. Either way it unlocks the mutex. -/
theorem writeEx_all_or_nothing {self : Owner} {infos : Nat → ReaderInfo} {n : Nat} {last : BpAnswer}
    {out : WriteExOutcome} (config : rb.configBufSizeBytes = size.position)
    (legal : Legal size.bytes data) (ends : last ≠ .returns true)
    (done : writeEx self rb infos data (List.replicate n (.returns true) ++ [last]) = some out) :
    out.rb.writerMtx = .unlocked ∧
      out.rb.backPressureCount = rb.backPressureCount + BitVec.ofNat 64 out.handlerCalls.length ∧
      out.handlerCalls.length ≤ n + 1 ∧
      (∀ k, k ≤ n → (k < out.handlerCalls.length ↔ ∀ i, i ≤ k → Detects rb data (infos i))) ∧
      (last = .throws ∧ out.handlerCalls.length = n + 1 →
        out.result = .threw ∧ out.rb.data = rb.data ∧ out.rb.freePos = rb.freePos) ∧
      (¬ (last = .throws ∧ out.handlerCalls.length = n + 1) →
        out.result = .returned ∧ ∃ front, AppendedOnce size.bytes rb.freePos.toNat data rb out.rb front) := by
  have free : rb.freePos = BitVec.ofNat 64 rb.freePos.toNat := by
    rw [BitVec.ofNat_toNat,BitVec.setWidth_eq]
  have wrote := writeEx_wrote config free legal done
  obtain ⟨mtx,_,left⟩ := Option.map_eq_some_iff.mp done
  have locked : (rb.setWriterMtx mtx).configBufSizeBytes = size.position := config
  obtain ⟨later,retried⟩ := retry_retried locked free legal infos n ends []
  have same : ∀ info, Detects (rb.setWriterMtx mtx) data info ↔ Detects rb data info := by
    intro info
    rw [detects_iff config free legal,detects_iff locked free legal]
    exact Iff.rfl
  generalize retry (rb.setWriterMtx mtx) infos data (List.replicate n (.returns true) ++ [last]) [] = inner at *
  have result : out.result = inner.result := by
    rw [← left]
    exact inner.leave_same.1
  obtain ⟨calls,count⟩ := leave_counts inner
  rw [left,retried.called,List.nil_append] at calls
  rw [left,retried.counted] at count
  have finished : out.result = .returned ∨ out.result = .threw := by
    rw [result]
    by_cases throws : last = .throws ∧ later.length = n + 1
    · exact Or.inr (retried.threw throws)
    · exact Or.inl (retried.returned throws)
  rw [calls]
  refine ⟨writeEx_unlocks done finished,count,retried.few,?_,?_,?_⟩
  · intro k bound
    rw [retried.asked k bound]
    exact forall₂_congr (fun i _ => same (infos i))
  · intro throws
    have threw := result.trans (retried.threw throws)
    have kept := wrote.otherwise (by rw [threw]; nofun)
    exact ⟨threw,kept.data,kept.freePos⟩
  · intro otherwise
    have returned := result.trans (retried.returned otherwise)
    obtain ⟨front,once⟩ := appendedOnce config legal
    exact ⟨returned,front,once.same (wrote.returned returned)⟩

end

/-- A reader at position 0 keeps a message of eight bytes away from the last six of the buffer, until
the handler is called for the second time and gives up. -/
theorem writeEx_all_or_nothing_forced :
    ∃ out, writeEx 0 ((ByteRingBuffer.create ring16.position (fun _ => 0)).addFreePos 10)
        (fun _ => (ReaderInfo.create 1).activate (some 0) 0) [1,2,3,4,5,6,7,8]
        (List.replicate 1 (.returns true) ++ [.returns false]) = some out ∧
      out.rb.writerMtx = .unlocked ∧ out.rb.backPressureCount = 2 ∧ out.handlerCalls = [10,10] ∧
      out.result = .returned ∧ ∃ front, AppendedOnce 16 10 [1,2,3,4,5,6,7,8]
        ((ByteRingBuffer.create ring16.position (fun _ => 0)).addFreePos 10) out.rb front := by
  have config : ((ByteRingBuffer.create ring16.position (fun _ => 0)).addFreePos 10).configBufSizeBytes =
    ring16.position := rfl
  have legal : Legal ring16.bytes [1,2,3,4,5,6,7,8] := by decide
  have done : writeEx 0 ((ByteRingBuffer.create ring16.position (fun _ => 0)).addFreePos 10)
      (fun _ => (ReaderInfo.create 1).activate (some 0) 0) [1,2,3,4,5,6,7,8]
      (List.replicate 1 (.returns true) ++ [.returns false]) = some _ := rfl
  obtain ⟨unlocked,_,_,_,_,returned⟩ := writeEx_all_or_nothing config legal (by decide) done
  exact ⟨_,done,unlocked,by decide,by decide,returned (by decide)⟩

end Writer
end Toroni.Rmp
