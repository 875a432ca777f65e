import Toroni.Rmp.Writer

/-! The writer side taken store by store: taking the mutex, the single stores of one
`Write`, unlocking, and the death of the owner at any moment in between. -/
namespace Toroni.Rmp
open CircularMemory Traits Writer

def Ledger.behind (g : Ledger) (records : Nat) : Nat := g.base + sizeOf (g.log.take records)

structure Shared where
  rb : ByteRingBuffer
  ledger : Ledger
  writer : Option (Owner × List Store)

namespace Shared

def begin (size : RingSize) (w : Shared) (self : Owner) (data : List UInt8) : Option Shared :=
  if Legal size.bytes data then
    (w.rb.writerMtx.lock self).map (fun mtx =>
      { w with rb := w.rb.setWriterMtx mtx, writer := some (self,stores w.rb data) })
  else none

def store (size : RingSize) (w : Shared) : Option Shared :=
  match w.writer with
  | some (self,op :: ops) =>
    some ⟨op.apply w.rb,w.ledger.apply size.bytes op,some (self,ops)⟩
  | _ => none

def finish (w : Shared) : Option Shared :=
  match w.writer with
  | some (_,[]) => some { w with rb := w.rb.setWriterMtx w.rb.writerMtx.unlock, writer := none }
  | _ => none

def die (w : Shared) : Option Shared :=
  match w.writer with
  | some (self,_) =>
    some { w with rb := w.rb.setWriterMtx (w.rb.writerMtx.ownerDies self), writer := none }
  | none => none

def Remaining (B free : Nat) (pending : List UInt8) : Option (Owner × List Store) → Prop
  | some (_,ops) => Writes B free pending ops
  | none => pending = []

structure Inv (size : RingSize) (w : Shared) (pending : List UInt8) : Prop where
  rep : Represents size w.rb w.ledger pending
  remaining : Remaining size.bytes w.ledger.free pending w.writer
  held : ∀ self ops, w.writer = some (self,ops) → w.rb.writerMtx = .locked self

section
variable {size : RingSize} {w v : Shared} {pending : List UInt8} {self : Owner} {data : List UInt8}

def storeAt (size : RingSize) (w : Shared) (index : Nat) : Nat :=
  w.ledger.free + (index - w.ledger.free % size.bytes)

theorem store_cases (stored : w.store size = some v) :
    ∃ self ops, v.writer = some (self,ops) ∧
      ((∃ index cells, w.writer = some (self,.bytes index cells :: ops) ∧
          v.rb = w.rb.put index cells ∧
          v.ledger = { w.ledger with top := max w.ledger.top (w.storeAt size index + cells.length) }) ∨
        ∃ n r, w.writer = some (self,.freePos n r :: ops) ∧ v.rb = w.rb.addFreePos n ∧
          v.ledger = { w.ledger with log := w.ledger.log ++ [r] }) := by
  unfold store at stored
  split at stored
  next self op ops running =>
    cases Option.some.inj stored
    refine ⟨self,ops,rfl,?_⟩
    cases op with
    | bytes index cells => exact Or.inl ⟨index,cells,running,rfl,rfl⟩
    | freePos n r => exact Or.inr ⟨n,r,running,rfl,rfl⟩
  next => contradiction

theorem Inv.store (inv : Inv size w pending) (stored : w.store size = some v) :
    ∃ next, Inv size v next := by
  unfold Shared.store at stored
  split at stored
  next self op ops running =>
    cases Option.some.inj stored
    have remaining := inv.remaining
    rw [running] at remaining
    obtain ⟨next,rep,rest⟩ := inv.rep.step remaining
    refine ⟨next,rep,rest,?_⟩
    intro other ops' same
    cases same
    have held := inv.held self _ running
    cases op <;> exact held
  next => contradiction

theorem begin_eq (begun : w.begin size self data = some v) :
    Legal size.bytes data ∧ ∃ mtx, w.rb.writerMtx.lock self = some mtx ∧
      v = { w with rb := w.rb.setWriterMtx mtx, writer := some (self,stores w.rb data) } := by
  unfold begin at begun
  split at begun
  next legal =>
    obtain ⟨mtx,locked,same⟩ := Option.map_eq_some_iff.mp begun
    exact ⟨legal,mtx,locked,same.symm⟩
  next => contradiction

theorem Inv.begin_idle (inv : Inv size w pending) (begun : w.begin size self data = some v) :
    w.writer = none ∧ pending = [] := by
  have idle : w.writer = none := by
    cases running : w.writer with
    | none => rfl
    | some owner =>
      have held := inv.held owner.1 owner.2 running
      obtain ⟨_,mtx,locked,_⟩ := begin_eq begun
      exact absurd held ((RobustProcMutex.lock_eq_some.mp locked).1 owner.1)
  have remaining := inv.remaining
  rw [idle] at remaining
  exact ⟨idle,remaining⟩

theorem Inv.begin (inv : Inv size w pending) (begun : w.begin size self data = some v) :
    Inv size v [] := by
  obtain ⟨_,rfl⟩ := inv.begin_idle begun
  obtain ⟨legal,mtx,locked,rfl⟩ := begin_eq begun
  have same : SameStream w.rb (w.rb.setWriterMtx mtx) := ⟨rfl,rfl,rfl⟩
  refine ⟨same.represents inv.rep,?_,?_⟩
  · simp only [Remaining]
    rw [stores_eq inv.rep.config inv.rep.freePos legal.2]
    exact writes_logStores (logFits_appended (by have := size.bounds; omega) legal)
  · intro other ops same
    cases same
    exact (RobustProcMutex.lock_eq_some.mp locked).2

theorem finish_eq (finished : w.finish = some v) : ∃ self, w.writer = some (self,[]) ∧
    v = { w with rb := w.rb.setWriterMtx w.rb.writerMtx.unlock, writer := none } := by
  unfold finish at finished
  split at finished
  next self running => exact ⟨self,running,(Option.some.inj finished).symm⟩
  next => contradiction

theorem Inv.finish (inv : Inv size w pending) (finished : w.finish = some v) : Inv size v [] := by
  obtain ⟨self,running,rfl⟩ := finish_eq finished
  have done := inv.remaining
  rw [running] at done
  obtain rfl : pending = [] := done
  have same : SameStream w.rb (w.rb.setWriterMtx w.rb.writerMtx.unlock) := ⟨rfl,rfl,rfl⟩
  exact ⟨same.represents inv.rep,rfl,by simp⟩

theorem die_eq (died : w.die = some v) : ∃ self ops, w.writer = some (self,ops) ∧
    v = { w with rb := w.rb.setWriterMtx (w.rb.writerMtx.ownerDies self), writer := none } := by
  unfold die at died
  split at died
  next self ops running => exact ⟨self,ops,running,(Option.some.inj died).symm⟩
  next => contradiction

theorem Inv.die (inv : Inv size w pending) (died : w.die = some v) : Inv size v [] := by
  obtain ⟨self,ops,_,rfl⟩ := die_eq died
  have same : SameStream w.rb (w.rb.setWriterMtx (w.rb.writerMtx.ownerDies self)) := ⟨rfl,rfl,rfl⟩
  exact ⟨same.represents inv.rep.forget,rfl,by simp⟩

def fresh (rb : ByteRingBuffer) : Shared := ⟨rb,⟨rb.freePos.toNat,[],rb.freePos.toNat⟩,none⟩

theorem fresh_inv {rb : ByteRingBuffer} (config : rb.configBufSizeBytes = size.position) :
    Inv size (fresh rb) [] := by
  exact ⟨Represents.fresh rb config,rfl,by simp [fresh]⟩

end
end Shared
end Toroni.Rmp
