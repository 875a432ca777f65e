import Toroni.Library.Transition
import Toroni.Rmp.ReaderSteps
import Toroni.Rmp.WriterSteps

/-! A reader without a lock among writers that take turns: every store of a write and every
load of a read is a step, in any order. -/
namespace Toroni.Rmp.TornReads
open Transition Traits Writer

structure State where
  shared : Shared
  reader : ReaderState

inductive Action
  | begin (self : Owner) (data : List UInt8)
  | store
  | finish
  | startRead (records : Nat) (bpos : Position)
  | read

def next (size : RingSize) (s : State) : Action → Option State
  | .begin self data => (s.shared.begin size self data).map (fun shared => { s with shared := shared })
  | .store => (s.shared.store size).map (fun shared => { s with shared := shared })
  | .finish => s.shared.finish.map (fun shared => { s with shared := shared })
  | .startRead records bpos =>
    let start := s.shared.ledger.behind records
    if s.reader.reading then none
    else some { s with reader := ⟨.entry,BitVec.ofNat 64 start,bpos,start⟩ }
  | .read => (s.reader.step s.shared.rb).map (fun reader => { s with reader := reader })

def start (rb : ByteRingBuffer) : State :=
  ⟨Shared.fresh rb,⟨.idle,rb.freePos,rb.freePos,rb.freePos.toNat⟩⟩

def sys (size : RingSize) : System State Action :=
  .ofNext (fun s => ∃ rb, rb.configBufSizeBytes = size.position ∧ s = start rb) (next size)

/-- No comparison with `freePos` behind a copy falls between a store that has reached the record and
the moving of `freePos`. -/
def allowed (size : RingSize) (s : State) : Action → Bool
  | .read => s.reader.inTime size s.shared.ledger
  | _ => true

structure Inv (size : RingSize) (s : State) : Prop where
  shared : ∃ pending, s.shared.Inv size pending
  reader : s.reader.Inv size s.shared.ledger

section
variable {size : RingSize} {s t : State} {action : Action}

theorem Inv.store (inv : Inv size s)
    (stepped : next size s .store = some t) : Inv size t := by
  obtain ⟨pending,shared⟩ := inv.shared
  obtain ⟨w,stored,rfl⟩ := Option.map_eq_some_iff.mp stepped
  refine ⟨shared.store stored,?_⟩
  obtain ⟨self,ops,_,⟨index,cells,running,_,ledger⟩ | ⟨n,r,_,_,ledger⟩⟩ := Shared.store_cases stored
  · dsimp only
    rw [ledger]
    exact inv.reader.stored _
  · dsimp only
    rw [ledger]
    exact inv.reader.grow rfl rfl le_rfl

theorem Inv.step (inv : Inv size s) (allowed : allowed size s action = true)
    (stepped : next size s action = some t) : Inv size t := by
  obtain ⟨pending,shared⟩ := id inv.shared
  cases action with
  | begin self data =>
    obtain ⟨w,begun,rfl⟩ := Option.map_eq_some_iff.mp stepped
    have kept := shared.begin begun
    obtain ⟨_,_,_,rfl⟩ := Shared.begin_eq begun
    exact ⟨⟨_,kept⟩,inv.reader⟩
  | store => exact inv.store stepped
  | finish =>
    obtain ⟨w,finished,rfl⟩ := Option.map_eq_some_iff.mp stepped
    have kept := shared.finish finished
    obtain ⟨_,_,rfl⟩ := Shared.finish_eq finished
    exact ⟨⟨_,kept⟩,inv.reader⟩
  | startRead records bpos =>
    simp only [next] at stepped
    split at stepped
    next => contradiction
    next =>
      obtain rfl := Option.some.inj stepped
      exact ⟨inv.shared,rfl,⟨s.shared.ledger.log.drop records,s.shared.ledger.log.take records,
        (List.take_append_drop _ _).symm,rfl⟩⟩
  | read =>
    obtain ⟨r,read,rfl⟩ := Option.map_eq_some_iff.mp stepped
    exact ⟨inv.shared,inv.reader.step shared.rep allowed read⟩

end

def start16 : State := start (ByteRingBuffer.create ring16.position (fun _ => 0))

theorem start16_init : (sys ring16).init start16 := by
  exact ⟨_,rfl,rfl⟩

end Toroni.Rmp.TornReads
