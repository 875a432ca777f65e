import Toroni.Rmp.ByteRingBuffer

/-! The abstract contents of the ring: the records written since some stream
position, and the relation between them and the bytes in memory. Positions are
natural numbers here; the ring keeps their low 64 bits. -/
namespace Toroni.Rmp
open CircularMemory

/-- History of a ring: the complete records from position `base` on, and a bound
`top` on the stream positions that were ever stored. -/
structure Ledger where
  base : Nat
  log : List Record
  top : Nat

def sizeOf (log : List Record) : Nat := (log.map Record.size).sum

def messages (log : List Record) : List (List UInt8) := log.filterMap Record.message

def Ledger.free (g : Ledger) : Nat := g.base + sizeOf g.log

def clear (B top free p : Nat) : Bool := top ≤ p + B || p + B ≤ free

@[simp] theorem sizeOf_nil : sizeOf [] = 0 := rfl

@[simp] theorem sizeOf_cons (r : Record) (log : List Record) :
    sizeOf (r :: log) = r.size + sizeOf log := rfl

@[simp] theorem sizeOf_append (first rest : List Record) :
    sizeOf (first ++ rest) = sizeOf first + sizeOf rest := by
  simp [sizeOf]

@[simp] theorem messages_nil : messages [] = [] := rfl

@[simp] theorem messages_cons (r : Record) (log : List Record) :
    messages (r :: log) = r.message.toList ++ messages log := by
  cases r <;> rfl

@[simp] theorem messages_append (first rest : List Record) :
    messages (first ++ rest) = messages first ++ messages rest := List.filterMap_append

def Record.Fits (B p : Nat) : Record → Prop
  | .msg data => p % B + MsgHeader.size + data.length ≤ B ∧ data.length < 2^32
  | .padding length => p % B + MsgHeader.size + length = B ∧ length < 2^32
  | .blank length => p % B + length = B ∧ length < MsgHeader.size

theorem Record.Fits.stored {B p : Nat} {r : Record} (fits : r.Fits B p) :
    p % B + r.bytes.length ≤ B := by
  cases r <;> simp only [Fits,bytes,List.length_append,MsgHeader.length_bytes,List.length_nil] at * <;> omega

theorem Record.Fits.size_pos {B p : Nat} {r : Record} (positive : 0 < B) (fits : r.Fits B p) :
    0 < r.size := by
  have := Nat.mod_lt p positive
  cases r <;> simp only [Fits,size,MsgHeader.size] at * <;> omega

/-- Each record of the log lies where it may, and those of its bytes that no later
store can have replaced are in memory. -/
def Laid (mem : Nat → UInt8) (B top base : Nat) (log : List Record) : Prop :=
  ∀ before r after, log = before ++ r :: after →
    r.Fits B (base + sizeOf before) ∧ Holds mem B top (base + sizeOf before) r.bytes

/-- The ring memory and `freePos` agree with the ledger, and `pending` are the bytes
already stored of a record that is still being written at `freePos`. -/
structure Represents (size : RingSize) (rb : ByteRingBuffer) (g : Ledger)
    (pending : List UInt8) : Prop where
  config : rb.configBufSizeBytes = size.position
  freePos : rb.freePos = BitVec.ofNat 64 g.free
  laid : Laid rb.data size.bytes g.top g.base g.log
  begun : Holds rb.data size.bytes g.top g.free pending
  fits : g.free % size.bytes + pending.length ≤ size.bytes
  ahead : g.top ≤ g.free + (size.bytes - g.free % size.bytes)

def Ledger.apply (B : Nat) (g : Ledger) : Store → Ledger
  | .bytes index cells => { g with top := max g.top (g.free + (index - g.free % B) + cells.length) }
  | .freePos _ r => { g with log := g.log ++ [r] }

def Ledger.run (B : Nat) (g : Ledger) (stores : List Store) : Ledger :=
  stores.foldl (Ledger.apply B) g

def Writes (B : Nat) : Nat → List UInt8 → List Store → Prop
  | _, pending, [] => pending = []
  | free, pending, .bytes index cells :: rest =>
    index = free % B + pending.length ∧ index + cells.length ≤ B ∧
      Writes B free (pending ++ cells) rest
  | free, pending, .freePos n r :: rest =>
    n = BitVec.ofNat 64 r.size ∧ r.bytes = pending ∧ r.Fits B free ∧
      Writes B (free + r.size) [] rest

def LogFits (B : Nat) : Nat → List Record → Prop
  | _, [] => True
  | p, r :: log => r.Fits B p ∧ LogFits B (p + r.size) log

def logStores (B : Nat) : Nat → List Record → List Store
  | _, [] => []
  | p, r :: log => recordStores (p % B) r ++ logStores B (p + r.size) log

section
variable {B free : Nat} {g : Ledger} {rb : ByteRingBuffer} {size : RingSize}
  {pending : List UInt8}

@[simp] theorem Ledger.run_nil : g.run B [] = g := rfl

@[simp] theorem Ledger.run_cons (op : Store) (ops : List Store) :
    g.run B (op :: ops) = (g.apply B op).run B ops := rfl

@[simp] theorem Ledger.run_append (first rest : List Store) :
    g.run B (first ++ rest) = (g.run B first).run B rest := List.foldl_append

@[simp] theorem Ledger.free_bytes (index : Nat) (cells : List UInt8) :
    (g.apply B (.bytes index cells)).free = g.free := rfl

@[simp] theorem Ledger.free_freePos (n : Position) (r : Record) :
    (g.apply B (.freePos n r)).free = g.free + r.size := by
  simp [Ledger.apply,Ledger.free,Nat.add_assoc]

theorem Laid.mono {mem : Nat → UInt8} {top top' base : Nat} {log : List Record}
    (laid : Laid mem B top base log) (later : top ≤ top') : Laid mem B top' base log := by
  intro before r after split
  obtain ⟨fits,holds⟩ := laid before r after split
  exact ⟨fits,holds.mono later⟩

theorem Laid.snoc {mem : Nat → UInt8} {top base : Nat} {log : List Record} {r : Record}
    (laid : Laid mem B top base log) (fits : r.Fits B (base + sizeOf log))
    (holds : Holds mem B top (base + sizeOf log) r.bytes) : Laid mem B top base (log ++ [r]) := by
  intro before x after split
  rcases List.eq_nil_or_concat after with rfl | ⟨rest,last,rfl⟩
  · obtain ⟨rfl,same⟩ := List.append_inj' split rfl
    cases same
    exact ⟨fits,holds⟩
  · have split : log ++ [r] = (before ++ x :: rest) ++ [last] := by simpa using split
    exact laid before x rest (List.append_inj' split rfl).1

theorem Laid.store_after {mem : Nat → UInt8} {top top' base q : Nat} {log : List Record}
    {cells : List UInt8} (laid : Laid mem B top base log) (after : base + sizeOf log ≤ q)
    (fits : q % B + cells.length ≤ B) (later : top ≤ top') (covered : q + cells.length ≤ top') :
    Laid (store mem (q % B) cells) B top' base log := by
  intro before r rest split
  obtain ⟨place,holds⟩ := laid before r rest split
  refine ⟨place,holds.store_after ?_ fits later covered⟩
  have whole := congrArg sizeOf split
  have short := r.length_bytes_le
  simp only [sizeOf_append,sizeOf_cons] at whole
  omega

theorem Represents.fresh (rb : ByteRingBuffer) (config : rb.configBufSizeBytes = size.position) :
    Represents size rb ⟨rb.freePos.toNat,[],rb.freePos.toNat⟩ [] where
  config := config
  freePos := by simp [Ledger.free]
  laid := by
    intro before r after split
    simp at split
  begun := Holds.nil
  fits := by
    have := size.mod_lt rb.freePos.toNat
    simp only [Ledger.free,sizeOf_nil,Nat.add_zero,List.length_nil]
    omega
  ahead := by simp [Ledger.free]

theorem revolution_mono {p q : Nat} (positive : 0 < B) (order : p ≤ q) :
    p + (B - p % B) ≤ q + (B - q % B) := by
  have first := Nat.mod_add_div p B
  have second := Nat.mod_add_div q B
  have := Nat.mod_lt p positive
  have := Nat.mod_lt q positive
  have rounds := Nat.mul_le_mul_left B (Nat.div_le_div_right (c := B) order)
  omega

/-- One store of a write keeps ring and ledger in agreement. -/
theorem Represents.step {op : Store} {ops : List Store} (rep : Represents size rb g pending)
    (writes : Writes size.bytes g.free pending (op :: ops)) :
    ∃ next, Represents size (op.apply rb) (g.apply size.bytes op) next ∧
      Writes size.bytes (g.apply size.bytes op).free next ops := by
  have positive := size.positive
  cases op with
  | bytes index cells =>
    obtain ⟨rfl,inside,rest⟩ := writes
    refine ⟨pending ++ cells,?_,rest⟩
    have address : (g.free + pending.length) % size.bytes = g.free % size.bytes + pending.length ∨
        cells = [] := by
      by_cases empty : cells = []
      · exact Or.inr empty
      · have := List.length_pos_iff.mpr empty
        exact Or.inl (address_add (by omega))
    have top : (g.apply size.bytes (.bytes (g.free % size.bytes + pending.length) cells)).top =
        max g.top (g.free + pending.length + cells.length) := by
      simp [Ledger.apply]
    refine ⟨rep.config,rep.freePos,?_,?_,?_,?_⟩
    · rw [top]
      rcases address with address | rfl
      · have stored := rep.laid.store_after
          (show g.base + sizeOf g.log ≤ g.free + pending.length from Nat.le_add_right _ _)
          (show (g.free + pending.length) % size.bytes + cells.length ≤ size.bytes by
            rw [address]; exact inside)
          (Nat.le_max_left _ _) (Nat.le_max_right _ _)
        rw [address] at stored
        exact stored
      · have same : (Store.bytes (g.free % size.bytes + pending.length) []).apply rb = rb := rb.put_nil _
        rw [same]
        exact rep.laid.mono (Nat.le_max_left _ _)
    · rw [top]
      exact rep.begun.append inside (Nat.le_max_left _ _)
    · simp only [Ledger.free_bytes,List.length_append]
      omega
    · have := rep.ahead
      rw [top,Ledger.free_bytes]
      omega
  | freePos n r =>
    obtain ⟨rfl,rfl,fits,rest⟩ := writes
    refine ⟨[],?_,by rw [Ledger.free_freePos]; exact rest⟩
    refine ⟨rep.config,?_,rep.laid.snoc fits rep.begun,Holds.nil,?_,?_⟩
    · rw [Ledger.free_freePos]
      simp [Store.apply,ByteRingBuffer.addFreePos,rep.freePos,SerialNumber.ofNat_add_ofNat]
    · have := Nat.mod_lt (g.apply size.bytes (.freePos (BitVec.ofNat 64 r.size) r)).free positive
      simp only [List.length_nil]
      omega
    · rw [Ledger.free_freePos]
      exact rep.ahead.trans (revolution_mono positive (Nat.le_add_right _ _))

theorem Represents.run {ops : List Store} (rep : Represents size rb g pending)
    (writes : Writes size.bytes g.free pending ops) :
    Represents size (Store.run rb ops) (g.run size.bytes ops) [] := by
  induction ops generalizing rb g pending with
  | nil =>
    have empty : pending = [] := writes
    exact empty ▸ rep
  | cons op ops ih =>
    obtain ⟨next,stored,rest⟩ := rep.step writes
    exact ih stored rest

theorem Writes.top_le {ops : List Store} (writes : Writes B g.free pending ops) :
    g.free + pending.length ≤ (g.run B ops).free ∧
      (g.run B ops).top ≤ max g.top (g.run B ops).free := by
  induction ops generalizing g pending with
  | nil =>
    have empty : pending = [] := writes
    simp [empty]
  | cons op ops ih =>
    cases op with
    | bytes index cells =>
      obtain ⟨rfl,_,rest⟩ := writes
      obtain ⟨covered,bound⟩ := ih (g := g.apply B (.bytes (g.free % B + pending.length) cells)) rest
      simp only [Ledger.free_bytes,List.length_append] at covered
      simp only [Ledger.run_cons]
      refine ⟨by omega,bound.trans ?_⟩
      simp only [Ledger.apply] at covered ⊢
      omega
    | freePos n r =>
      obtain ⟨_,rfl,_,rest⟩ := writes
      obtain ⟨covered,bound⟩ := ih (g := g.apply B (.freePos n r)) (by rw [Ledger.free_freePos]; exact rest)
      simp only [Ledger.free_freePos] at covered
      have := r.length_bytes_le
      exact ⟨by simp only [Ledger.run_cons]; omega,bound⟩

theorem writes_payloadStores {index : Nat} {data : List UInt8} {rest : List Store}
    (start : index = free % B + pending.length) (fits : index + data.length ≤ B)
    (after : Writes B free (pending ++ data) rest) :
    Writes B free pending (payloadStores index data ++ rest) := by
  induction data generalizing index pending with
  | nil => simpa [payloadStores] using after
  | cons b bs ih =>
    simp only [List.length_cons] at fits
    refine ⟨start,by simp; omega,ih (by simp [start,Nat.add_assoc]) (by omega) ?_⟩
    simpa using after

theorem writes_recordStores {r : Record} {rest : List Store} (fits : r.Fits B free)
    (after : Writes B (free + r.size) [] rest) :
    Writes B free [] (recordStores (free % B) r ++ rest) := by
  have stored := fits.stored
  cases r with
  | msg data =>
    simp only [Record.bytes,List.length_append,MsgHeader.length_bytes,MsgHeader.size] at stored
    refine ⟨rfl,by simp; omega,rfl,by simp; omega,?_⟩
    change Writes B free _ (payloadStores _ data ++ [_] ++ rest)
    rw [List.append_assoc (payloadStores _ data)]
    apply writes_payloadStores
    · simp [MsgHeader.size]
    · simp only [MsgHeader.size]
      omega
    · exact ⟨rfl,rfl,fits,after⟩
  | padding length =>
    simp only [Record.bytes,MsgHeader.length_bytes,MsgHeader.size] at stored
    refine ⟨rfl,?_,rfl,?_,rfl,rfl,fits,after⟩
    · simp
      omega
    · simp
      omega
  | blank length => exact ⟨rfl,rfl,fits,after⟩

@[simp] theorem Ledger.run_payloadStores_log (index : Nat) (data : List UInt8) :
    (g.run B (payloadStores index data)).log = g.log ∧
      (g.run B (payloadStores index data)).base = g.base := by
  induction data generalizing index g with
  | nil => exact ⟨rfl,rfl⟩
  | cons b bs ih => exact ih (g := g.apply B (.bytes index [b])) (index + 1)

@[simp] theorem Ledger.run_recordStores (index : Nat) (r : Record) :
    (g.run B (recordStores index r)).log = g.log ++ [r] ∧
      (g.run B (recordStores index r)).base = g.base := by
  cases r with
  | msg data =>
    let begun := (g.apply B (.bytes index [MsgHeader.MSG])).apply B
      (.bytes (index + 1) (LittleEndian.toBytes 4 data.length))
    have payload := Ledger.run_payloadStores_log (B := B) (g := begun) (index + MsgHeader.size) data
    simp only [recordStores,Ledger.run_cons,Ledger.run_append,Ledger.run_nil,Ledger.apply]
    exact ⟨congrArg (· ++ [Record.msg data]) payload.1,payload.2⟩
  | padding length => exact ⟨rfl,rfl⟩
  | blank length => exact ⟨rfl,rfl⟩

theorem writes_logStores {log : List Record} (fits : LogFits B free log) :
    Writes B free [] (logStores B free log) := by
  induction log generalizing free with
  | nil => rfl
  | cons r log ih => exact writes_recordStores fits.1 (ih fits.2)

theorem Ledger.run_logStores (p : Nat) (log : List Record) :
    (g.run B (logStores B p log)).log = g.log ++ log ∧
      (g.run B (logStores B p log)).base = g.base := by
  induction log generalizing g p with
  | nil => simp [logStores]
  | cons r log ih =>
    simp only [logStores,Ledger.run_append]
    obtain ⟨grown,same⟩ := ih (g := g.run B (recordStores (p % B) r)) (p + r.size)
    obtain ⟨one,start⟩ := Ledger.run_recordStores (B := B) (g := g) (p % B) r
    exact ⟨by rw [grown,one,List.append_assoc]; rfl,same.trans start⟩

theorem Ledger.free_run_logStores (p : Nat) (log : List Record) :
    (g.run B (logStores B p log)).free = g.free + sizeOf log := by
  obtain ⟨grown,same⟩ := Ledger.run_logStores (B := B) (g := g) p log
  rw [Ledger.free,grown,same,sizeOf_append,← Nat.add_assoc,← Ledger.free]

theorem Represents.forget (rep : Represents size rb g pending) : Represents size rb g [] := by
  exact { rep with
    begun := Holds.nil
    fits := by
      have := size.mod_lt g.free
      simp only [List.length_nil]
      omega }

theorem Represents.later (rep : Represents size rb g pending) (quiet : g.top ≤ g.free) :
    Represents size rb { g with top := g.free } pending where
  config := rep.config
  freePos := rep.freePos
  laid := rep.laid.mono quiet
  begun := rep.begun.mono quiet
  fits := rep.fits
  ahead := Nat.le_add_right _ _

/-- A blank ends where the buffer ends, so what may have been stored over it, and over what
follows, is in the revolution that ends one later. -/
theorem Represents.skip_blank {n p : Nat} (rep : Represents size rb g pending)
    (fits : p % size.bytes + n = size.bytes)
    (fresh : g.top ≤ p + size.bytes ∨ p + size.bytes ≤ g.free) :
    g.top ≤ p + n + size.bytes ∨ p + n + size.bytes ≤ g.free := by
  by_contra stale
  push Not at stale
  have bounds := size.bounds
  have ahead := rep.ahead
  have before : p + size.bytes ≤ g.free := by omega
  have wraps := Nat.mod_add_div p size.bytes
  have turn : p + n = size.bytes * (p / size.bytes + 1) := by
    rw [Nat.mul_add]
    omega
  have offset : g.free % size.bytes = g.free - (p + n) := by
    have inside : g.free - (p + n) < size.bytes := by omega
    have split : g.free = g.free - (p + n) + size.bytes * (p / size.bytes + 1) := by omega
    conv_lhs => rw [split,Nat.add_mul_mod_self_left,Nat.mod_eq_of_lt inside]
  omega

theorem Represents.append {log : List Record} (rep : Represents size rb g [])
    (quiet : g.top ≤ g.free) (fits : LogFits size.bytes g.free log) :
    Represents size (Store.run rb (logStores size.bytes g.free log))
      ⟨g.base,g.log ++ log,g.free + sizeOf log⟩ [] := by
  have writes := writes_logStores fits
  have stored := rep.run writes
  obtain ⟨grown,start⟩ := Ledger.run_logStores (B := size.bytes) (g := g) g.free log
  have free : (g.run size.bytes (logStores size.bytes g.free log)).free = g.free + sizeOf log := by
    rw [Ledger.free,grown,start,sizeOf_append,← Nat.add_assoc]
    rfl
  have top := writes.top_le.2
  rw [free] at top
  refine ⟨stored.config,?_,?_,Holds.nil,?_,?_⟩
  · rw [stored.freePos,free]
    simp [Ledger.free,Nat.add_assoc]
  · have laid := stored.laid
    rw [grown,start] at laid
    exact laid.mono (by dsimp only; omega)
  · simp only [List.length_nil]
    exact Nat.le_of_lt (size.mod_lt _)
  · simp only [Ledger.free,sizeOf_append]
    omega

end
end Toroni.Rmp
