import Toroni.Library.Transition
import Toroni.Rmp.Reader
import Toroni.Rmp.WriterSteps

/-! Writers that may die between any two stores, and calls of `ReadEx` at any record boundary
in the moments when no writer is running. -/
namespace Toroni.Rmp.WriterCrash
open Transition Traits Writer Reader

structure State where
  shared : Shared
  reads : List (Nat × Outcome)

inductive Action
  | begin (self : Owner) (data : List UInt8)
  | store
  | finish
  | die
  | read (records : Nat) (bpos : Position) (passes : Nat)

def next (size : RingSize) (s : State) : Action → Option State
  | .begin self data => (s.shared.begin size self data).map (fun shared => { s with shared := shared })
  | .store => (s.shared.store size).map (fun shared => { s with shared := shared })
  | .finish => s.shared.finish.map (fun shared => { s with shared := shared })
  | .die => s.shared.die.map (fun shared => { s with shared := shared })
  | .read records bpos passes =>
    if s.shared.writer.isNone then
      (readEx (fun _ => true) s.shared.rb passes
        (BitVec.ofNat 64 (s.shared.ledger.behind records)) bpos).map
          (fun out => { s with reads := s.reads ++ [(records,out)] })
    else none

def start (rb : ByteRingBuffer) : State := ⟨Shared.fresh rb,[]⟩

def sys (size : RingSize) : System State Action :=
  .ofNext (fun s => ∃ rb, rb.configBufSizeBytes = size.position ∧ s = start rb) (next size)

/-- A read starts where no interrupted write has stored bytes a revolution or more further on,
unless `freePos` says that the position is expired, and fewer than `2^64` bytes behind. -/
def allowed (size : RingSize) (s : State) : Action → Bool
  | .read records _ _ =>
    clear size.bytes s.shared.ledger.top s.shared.ledger.free (s.shared.ledger.behind records) &&
      decide (s.shared.ledger.free < s.shared.ledger.behind records + 2^64)
  | _ => true

/-- Every read so far has confirmed complete messages only, each as it was written and in the
order of the log, without a gap from where it started; no assertion has failed. -/
def Intact (s : State) : Prop :=
  ∀ read ∈ s.reads, read.2.confirmed <+: messages (s.shared.ledger.log.drop read.1) ∧
    read.2.result ≠ none

structure Inv (size : RingSize) (s : State) : Prop where
  shared : ∃ pending, s.shared.Inv size pending
  intact : Intact s

section
variable {size : RingSize} {s t : State} {action : Action}

theorem messages_drop_prefix (records : Nat) (log more : List Record) :
    messages (log.drop records) <+: messages ((log ++ more).drop records) := by
  rw [List.drop_append,messages_append]
  exact List.prefix_append _ _

theorem Intact.grow {shared : Shared} {more : List Record} (intact : Intact s)
    (log : shared.ledger.log = s.shared.ledger.log ++ more) : Intact { s with shared := shared } := by
  intro read member
  obtain ⟨confirmed,kept⟩ := intact read member
  refine ⟨confirmed.trans ?_,kept⟩
  dsimp only
  rw [log]
  exact messages_drop_prefix _ _ _

/-- A read between two writes does what the records of the log say, or finds that its
position looks like one that lies ahead. -/
theorem read_spec (shared : s.shared.Inv size []) (records : Nat) (bpos : Position)
    (clear : clear size.bytes s.shared.ledger.top s.shared.ledger.free
      (s.shared.ledger.behind records) = true)
    (near : s.shared.ledger.free < s.shared.ledger.behind records + 2^64) :
    ∃ passes out, readEx (fun _ => true) s.shared.rb passes
        (BitVec.ofNat 64 (s.shared.ledger.behind records)) bpos = some out ∧
      out.confirmed <+: messages (s.shared.ledger.log.drop records) ∧ out.result ≠ none := by
  have rep := shared.rep
  by_cases recent : s.shared.ledger.free < s.shared.ledger.behind records + 2^63
  · have fresh : s.shared.ledger.top ≤ s.shared.ledger.behind records + size.bytes ∨
        s.shared.ledger.behind records + size.bytes ≤ s.shared.ledger.free := by
      simpa [Rmp.clear] using clear
    obtain ⟨bpos',read,_⟩ := readEx_spec (fun _ => true) bpos rep
      (List.take_append_drop records s.shared.ledger.log).symm rfl recent fresh
    obtain ⟨result,went,left,split,value,_⟩ := readLog_all size.bytes s.shared.ledger.free
      (s.shared.ledger.behind records) (s.shared.ledger.log.drop records)
    refine ⟨_,_,read,?_,by simp⟩
    rw [Ledger.behind] at value
    rw [value,split,messages_append]
    exact List.prefix_append _ _
  · refine ⟨0,⟨some .invalidPosition,BitVec.ofNat 64 (s.shared.ledger.behind records),bpos,[]⟩,?_,
      List.nil_prefix,by simp⟩
    have ahead : greaterThan (BitVec.ofNat 64 (s.shared.ledger.behind records)) s.shared.rb.freePos = true := by
      have turn : BitVec.ofNat 64 (s.shared.ledger.behind records) =
          BitVec.ofNat 64 (s.shared.ledger.behind records + 2^64) := by
        apply BitVec.eq_of_toNat_eq
        simp
      rw [rep.freePos,turn]
      exact (greaterThan_iff (by omega) (by omega)).mpr near
    rw [readEx,if_pos ahead]

theorem Inv.step (inv : Inv size s) (allowed : allowed size s action = true)
    (stepped : next size s action = some t) : Inv size t := by
  obtain ⟨⟨pending,shared⟩,intact⟩ := inv
  cases action with
  | begin self data =>
    obtain ⟨w,begun,rfl⟩ := Option.map_eq_some_iff.mp stepped
    have kept := shared.begin begun
    obtain ⟨_,_,_,rfl⟩ := Shared.begin_eq begun
    exact ⟨⟨_,kept⟩,intact⟩
  | store =>
    obtain ⟨w,stored,rfl⟩ := Option.map_eq_some_iff.mp stepped
    refine ⟨shared.store stored,?_⟩
    obtain ⟨_,_,_,⟨_,_,_,_,ledger⟩ | ⟨_,_,_,_,ledger⟩⟩ := Shared.store_cases stored
    · exact intact.grow (show w.ledger.log = s.shared.ledger.log ++ [] by rw [ledger,List.append_nil])
    · exact intact.grow (by rw [ledger])
  | finish =>
    obtain ⟨w,finished,rfl⟩ := Option.map_eq_some_iff.mp stepped
    have kept := shared.finish finished
    obtain ⟨_,_,rfl⟩ := Shared.finish_eq finished
    exact ⟨⟨_,kept⟩,intact⟩
  | die =>
    obtain ⟨w,died,rfl⟩ := Option.map_eq_some_iff.mp stepped
    have kept := shared.die died
    obtain ⟨_,_,_,rfl⟩ := Shared.die_eq died
    exact ⟨⟨_,kept⟩,intact⟩
  | read records bpos passes =>
    simp only [next] at stepped
    split at stepped
    next idle =>
      obtain ⟨out,done,rfl⟩ := Option.map_eq_some_iff.mp stepped
      have remaining := shared.remaining
      rw [Option.isNone_iff_eq_none.mp idle] at remaining
      obtain rfl : pending = [] := remaining
      simp only [WriterCrash.allowed,Bool.and_eq_true,decide_eq_true_eq] at allowed
      obtain ⟨_,_,read,confirmed,kept⟩ := read_spec shared records bpos allowed.1 allowed.2
      obtain rfl := readEx_unique read done
      refine ⟨⟨[],shared⟩,fun entry member => ?_⟩
      rcases List.mem_append.mp member with old | new
      · exact intact entry old
      · cases List.mem_singleton.mp new
        exact ⟨confirmed,kept⟩
    next => contradiction

theorem reachable_inv
    (reached : Reachable ((sys size).restrict (fun s action => allowed size s action = true)) s) :
    Inv size s := by
  refine reached.invariant (Inv size) ?_ ?_
  · rintro s ⟨rb,config,rfl⟩
    exact ⟨⟨[],Shared.fresh_inv config⟩,by simp [Intact,start]⟩
  · rintro s action t inv ⟨allowed,stepped⟩
    exact inv.step allowed stepped

/-- In every run whose reads are allowed, whatever writers have died where, all reads are
intact, and a read that is allowed between two writes returns. -/
theorem reads_are_intact
    (reached : Reachable ((sys size).restrict (fun s action => allowed size s action = true)) s) :
    Intact s ∧ ∀ records bpos, s.shared.writer = none → allowed size s (.read records bpos 0) = true →
      ∃ passes t, next size s (.read records bpos passes) = some t := by
  obtain ⟨⟨pending,shared⟩,intact⟩ := reachable_inv reached
  refine ⟨intact,fun records bpos idle allowed => ?_⟩
  have remaining := shared.remaining
  rw [idle] at remaining
  obtain rfl : pending = [] := remaining
  simp only [WriterCrash.allowed,Bool.and_eq_true,decide_eq_true_eq] at allowed
  obtain ⟨passes,out,read,_⟩ := read_spec shared records bpos allowed.1 allowed.2
  exact ⟨passes,_,by simp only [next,idle,Option.isNone_none,if_true,read,Option.map_some]; rfl⟩

end

def start16 : State := start (ByteRingBuffer.create ring16.position (fun _ => 0))

theorem start16_init : (sys ring16).init start16 := by
  exact ⟨_,rfl,rfl⟩

/-- A writer dies after its first stores; the next one takes the mutex over, and its message
is read. -/
theorem reads_are_intact_after_death :
    ∃ s, s.reads = [(0,⟨some .success,7,7,[[1,2]]⟩)] ∧ Intact s := by
  obtain ⟨s,reached,reads⟩ := exec_reaches (sys ring16) (allowed ring16) (next ring16)
    (fun _ _ _ taken => taken) start16_init
    (.begin 0 [9,9,9] :: List.replicate 3 .store ++ .die :: .begin 1 [1,2] ::
      List.replicate 5 .store ++ [.finish,.read 0 0 2])
    (fun s => s.reads) [(0,⟨some .success,7,7,[[1,2]]⟩)] (by decide +kernel)
  exact ⟨s,reads,(reads_are_intact reached).1⟩

/-- Two messages of one byte; a writer dies while it stores eleven bytes from the start of the
buffer on, some of them over the second message, and they are read in its place. -/
theorem interrupted_bytes_are_confirmed :
    ∃ s, Reachable (sys ring16) s ∧ s.reads = [(1,⟨some .success,16,16,[[9]]⟩)] ∧
      s.shared.ledger.log = [.msg [1],.msg [2],.blank 4] ∧ ¬ Intact s := by
  obtain ⟨s,reached,seen⟩ := exec_reaches (sys ring16) (fun _ _ => true) (next ring16)
    (fun _ _ _ taken => taken) start16_init
    (.begin 0 [1] :: List.replicate 4 .store ++ .finish :: .begin 0 [2] :: List.replicate 4 .store ++
      .finish :: .begin 0 [0,0,1,0,0,0,9,0,0,0,0] :: List.replicate 10 .store ++ [.die,.read 1 6 3])
    (fun s => (s.reads,s.shared.ledger.log))
    ([(1,⟨some .success,16,16,[[9]]⟩)],[.msg [1],.msg [2],.blank 4]) (by decide +kernel)
  obtain ⟨reads,log⟩ := Prod.mk.inj seen
  refine ⟨s,reached.unrestrict,reads,log,?_⟩
  intro intact
  have confirmed := (intact _ (by rw [reads]; exact List.mem_singleton_self _)).1
  rw [log] at confirmed
  exact absurd confirmed (by decide)

end Toroni.Rmp.WriterCrash
