import Toroni.Java.Interchange
import Toroni.Rmp.Protocol

/-! Processes of both implementations on one ring, every call one step: together they are still the
abstract broadcast. -/
namespace Toroni.Java.Mixed
open Rmp Transition Traits Rmp.Writer Rmp.Reader
open Interchange (TableFits)

def writeEx : Language → Owner → ByteRingBuffer → Rmp.ReaderInfo → List UInt8 → List BpAnswer →
    Option WriteExOutcome
  | .cpp, self, rb, ri, data, answers => Rmp.Writer.writeEx self rb (fun _ => ri) data answers
  | .java, self, rb, ri, data, answers => Writer.writeEx self rb ri data answers

def readEx : Language → ByteRingBuffer → Nat → Position → Position → Option Outcome
  | .cpp, rb, passes, pos, bpos => Rmp.Reader.readEx (fun _ => true) rb passes pos bpos
  | .java, rb, passes, pos, bpos => Reader.readEx (fun _ => true) rb passes pos bpos

def activate : Language → Rmp.ReaderInfo → ReaderId → Position → Rmp.ReaderInfo
  | .cpp, ri, readerId, pos => ri.activate readerId pos
  | .java, ri, readerId, pos => ReaderInfo.activate ri readerId pos

def deactivate : Language → Rmp.ReaderInfo → ReaderId → Rmp.ReaderInfo
  | .cpp, ri, readerId => ri.deactivate readerId
  | .java, ri, readerId => ReaderInfo.deactivate ri readerId

def activated (language : Language) (s : Protocol.State) (i : Nat) : Protocol.State :=
  { s with readerPos := Function.update s.readerPos i s.rb.freePos
           ri := activate language s.ri (some i) s.rb.freePos
           since := Function.update s.since i 0 }

def deactivated (language : Language) (s : Protocol.State) (i : Nat) : Protocol.State :=
  { s with ri := deactivate language s.ri (some i) }

inductive Step (size : RingSize) : Protocol.State → Event → Protocol.State → Prop
  | wrote {s : Protocol.State} {data : List UInt8} (language : Language) (self : Owner)
      (answers : List BpAnswer) (out : WriteExOutcome) (legal : Legal size.bytes data)
      (called : writeEx language self s.rb s.ri data answers = some out)
      (returned : out.result = .returned) : Step size s (.wrote data) (s.put out.rb)
  | gaveUp {s : Protocol.State} {data : List UInt8} (language : Language) (self : Owner)
      (answers : List BpAnswer) (out : WriteExOutcome) (legal : Legal size.bytes data)
      (called : writeEx language self s.rb s.ri data answers = some out)
      (threw : out.result = .threw) : Step size s .gaveUp (s.put out.rb)
  | activated {s : Protocol.State} {i : Nat} (language : Language)
      (inside : i < s.ri.configMaxReaders.toNat) : Step size s (.activated i) (activated language s i)
  | deactivated {s : Protocol.State} {i : Nat} (language : Language)
      (inside : i < s.ri.configMaxReaders.toNat) : Step size s (.deactivated i) (deactivated language s i)
  | read {s : Protocol.State} {i : Nat} (language : Language) (passes : Nat)
      (active : s.isActive i = true) (out : Outcome)
      (done : readEx language s.rb passes (s.readerPos i) (s.ri.info i).position = some out) :
      Step size s (.read i out.result out.confirmed) (s.finishRead i out)

def sys (size : RingSize) : System Protocol.State Event where
  init s := s.rb.configBufSizeBytes = size.position ∧
    ∃ maxReaders : BitVec 16, maxReaders.toNat ≤ 32767 ∧ s.ri = .create maxReaders
  step := Step size

def Related (size : RingSize) (s : Protocol.State) (a : Broadcast.State) : Prop :=
  Protocol.Related size s a ∧ TableFits s.ri

section
variable {size : RingSize} {s t : Protocol.State} {a : Broadcast.State} {i : Nat} {language : Language}

theorem loop_mono {rb : ByteRingBuffer} {passes : Nat} (more : Nat) {pos bpos : Position}
    {confirmed : List (List UInt8)} {out : Outcome}
    (done : Reader.loop (fun _ => true) rb passes pos bpos confirmed = some out) :
    Reader.loop (fun _ => true) rb (passes + more) pos bpos confirmed = some out := by
  induction passes generalizing pos bpos confirmed with
  | zero => simp [Reader.loop] at done
  | succ passes ih =>
    rw [Nat.add_right_comm]
    simp only [Reader.loop] at done ⊢
    cases pass : Reader.iterate (fun _ => true) rb pos bpos with
    | finished => simpa only [pass] using done
    | continues pos bpos next =>
      simp only [pass] at done ⊢
      exact ih done
    | expired => simpa only [pass] using done
    | assertionFailed => simpa only [pass] using done

theorem readEx_unique {rb : ByteRingBuffer} {passes passes' : Nat} {pos bpos : Position} {out out' : Outcome}
    (done : readEx .java rb passes pos bpos = some out) (done' : readEx .java rb passes' pos bpos = some out') :
    out = out' := by
  simp only [readEx,Reader.readEx] at done done'
  split at done
  next invalid =>
    rw [if_pos invalid] at done'
    exact Option.some.inj (done.symm.trans done')
  next valid =>
    rw [if_neg valid] at done'
    have first := loop_mono passes' done
    have second := loop_mono passes done'
    rw [Nat.add_comm] at second
    exact Option.some.inj (first.symm.trans second)

theorem writeEx_cpp {self : Owner} {data : List UInt8} {answers : List BpAnswer} {g : Ledger}
    (rep : Represents size s.rb g []) (moderate : size.bytes ≤ 2^30) (fits : TableFits s.ri)
    (legal : Legal size.bytes data) :
    writeEx language self s.rb s.ri data answers = Rmp.Writer.writeEx self s.rb (fun _ => s.ri) data answers := by
  have few : data.length < 2^31 := by
    have := legal.1
    omega
  cases language with
  | cpp => rfl
  | java => exact writeEx_eq rep.config moderate fits.1 few self answers

theorem activated_cpp : activated language s i = s.activate i := by
  cases language with
  | cpp => rfl
  | java => rw [activated,activate,activate_eq,Protocol.State.activate]

theorem deactivated_cpp : deactivated language s i = s.deactivate i := by
  cases language with
  | cpp => rfl
  | java => rw [deactivated,deactivate,deactivate_eq,Protocol.State.deactivate]

/-- Where the abstract reader is, a call of either implementation returns, with the same result. -/
theorem readEx_same {c : Broadcast.Cursor} {g : Ledger} (moderate : size.bytes ≤ 2^30)
    (place : Protocol.At size g s i c) (rep : Represents size s.rb g []) (quiet : g.top ≤ g.free)
    (recent : s.since i < 2^63) (language : Language) (bpos bpos' : Position) :
    ∃ passes out out', readEx language s.rb passes (s.readerPos i) bpos = some out ∧
      readEx .cpp s.rb passes (s.readerPos i) bpos' = some out' ∧ SameRead out out' := by
  obtain ⟨_,before,rest,split,pos,_,behind,_⟩ := place
  have near : Rmp.sizeOf rest < 2^63 := by
    rw [Ledger.free,split,sizeOf_append] at behind
    omega
  obtain ⟨out,out',java,cpp,same⟩ := readEx_eq (fun _ => true) (by omega) rep split rfl (by omega) quiet bpos bpos'
  rw [← pos] at java cpp
  cases language with
  | java => exact ⟨_,out,out',java,cpp,same⟩
  | cpp =>
    -- both calls of the one implementation are like one of the other
    obtain ⟨other,first,again,one,alike⟩ :=
      readEx_eq (fun _ => true) (by omega) rep split rfl (by omega) quiet bpos bpos
    rw [← pos] at again one
    obtain rfl := Option.some.inj (again.symm.trans java)
    refine ⟨_,first,out',one,cpp,?_,?_,?_⟩
    · exact alike.result.symm.trans same.result
    · exact alike.pos.symm.trans same.pos
    · exact alike.confirmed.symm.trans same.confirmed

theorem related_same (ri : Rmp.ReaderInfo) (related : Protocol.Related size s a)
    (active : ∀ i, (ri.info i).isActive = (s.ri.info i).isActive) :
    Protocol.Related size { s with ri := ri } a := by
  obtain ⟨g,rep,quiet,log,readers⟩ := related
  refine ⟨g,rep,quiet,log,fun i => ?_⟩
  have place := readers i
  split
  next idle =>
    rw [idle] at place
    exact (active i).trans place
  next c following =>
    rw [following] at place
    exact place.grow rfl (List.append_nil _).symm (active i) rfl le_rfl

theorem related_finishRead {out out' : Outcome} (same : SameRead out out')
    (related : Protocol.Related size (s.finishRead i out') a) :
    Protocol.Related size (s.finishRead i out) a := by
  have alike := related_same (s.finishRead i out).ri related (fun j => by
    have first := Protocol.State.isActive_finishRead (s := s) i j out
    have second := Protocol.State.isActive_finishRead (s := s) i j out'
    exact first.trans second.symm)
  rw [Protocol.State.finishRead,same.pos]
  exact alike

theorem fits_finishRead {out : Outcome} (fits : TableFits s.ri) : TableFits (s.finishRead i out).ri := by
  simp only [Protocol.State.finishRead]
  split
  next => exact fits
  next => exact fits

theorem related_read {passes : Nat} {out : Outcome} (moderate : size.bytes ≤ 2^30)
    (related : Protocol.Related size s a) (recent : s.since i < 2^63) (active : s.isActive i = true)
    (done : readEx language s.rb passes (s.readerPos i) (s.ri.info i).position = some out) :
    ∃ b, Broadcast.Step a (.read i out.result out.confirmed) b ∧ Protocol.Related size (s.finishRead i out) b := by
  cases language with
  | cpp => exact Protocol.related_read related recent active done
  | java =>
    have represented := related
    obtain ⟨g,rep,quiet,_,readers⟩ := represented
    have place := readers i
    cases found : a.reader i with
    | none =>
      rw [found,active] at place
      contradiction
    | some c =>
      rw [found] at place
      obtain ⟨_,_,out',java,cpp,same⟩ := readEx_same moderate place rep quiet recent .java
        (s.ri.info i).position (s.ri.info i).position
      obtain rfl := readEx_unique java done
      obtain ⟨b,step,after⟩ := Protocol.related_read related recent active cpp
      rw [same.result,same.confirmed]
      exact ⟨b,step,related_finishRead same after⟩

/-- Whichever implementation each process has, the calls are a broadcast of the messages to the
active readers. -/
theorem simulates (moderate : size.bytes ≤ 2^30) : Simulates (Related size)
    ((sys size).restrict (fun s _ => Protocol.Moderate s)) Broadcast.sys where
  start := by
    rintro s ⟨config,maxReaders,few,table⟩
    have idle (i : Nat) : s.isActive i = false := by
      rw [Protocol.State.isActive,table]
      rfl
    obtain ⟨a,empty,related⟩ := (Protocol.simulates size).start s ⟨config,idle⟩
    refine ⟨a,empty,related,?_,?_⟩
    · have none : (Rmp.ReaderInfo.create maxReaders).getActiveRange = (0,0) := by
        simp [Rmp.ReaderInfo.create,Rmp.ReaderInfo.getActiveRange,unpackRange]
      rw [table,RangeFits,none]
      decide
    · rwa [table]
  step := by
    rintro s event t a ⟨related,fits⟩ ⟨recent,step⟩
    have represented := related
    obtain ⟨_,rep,_⟩ := represented
    cases step with
    | wrote language self answers out legal called returned =>
      rw [writeEx_cpp rep moderate fits legal] at called
      exact ⟨_,.wrote a _,Protocol.related_wrote related legal called returned,fits⟩
    | gaveUp language self answers out legal called threw =>
      rw [writeEx_cpp rep moderate fits legal] at called
      exact ⟨_,.gaveUp a,Protocol.related_gaveUp related legal called threw,fits⟩
    | @activated i language inside =>
      rw [activated_cpp]
      obtain ⟨b,step,after⟩ := (Protocol.simulates size).step s _ _ a related ⟨recent,.activated inside⟩
      exact ⟨b,step,after,Interchange.activate_fits fits (some i) _⟩
    | @deactivated i language inside =>
      rw [deactivated_cpp]
      obtain ⟨b,step,after⟩ := (Protocol.simulates size).step s _ _ a related ⟨recent,.deactivated inside⟩
      exact ⟨b,step,after,Interchange.deactivate_fits fits (some i)⟩
    | @read i language passes active out done =>
      obtain ⟨b,step,after⟩ := related_read moderate related (recent i active) active done
      exact ⟨b,step,after,fits_finishRead fits⟩

end

section
variable {i : Nat} {during : List Event}

/-- What reader `i` is told in one activation: a beginning of what is written meanwhile, all of it when
a call succeeds. -/
structure Received (i : Nat) (during : List Event) : Prop where
  beginning : ∃ count, confirmedOf i during = (writtenOf during).take count
  complete : ∀ first found rest, during = first ++ .read i (some .success) found :: rest →
    confirmedOf i first ++ found = writtenOf first
  stays : StaysExpired i during
  told : ∀ result confirmed, .read i result confirmed ∈ during →
    result = some .success ∨ result = some .expiredPosition

theorem received {s t : Broadcast.State} (run : Run Broadcast.sys s during t)
    (fresh : s.reader i = some ⟨s.log.length,false⟩) (one : OneActivation i during) : Received i during := by
  obtain ⟨c,follows⟩ := Broadcast.following run fresh one
  refine ⟨⟨c.next - s.log.length,?_⟩,?_,follows.stays,follows.told⟩
  · rw [follows.segment,Broadcast.log_eq run,List.drop_left]
  · rintro first found rest rfl
    obtain ⟨u,early,later⟩ := run.split
    obtain ⟨v,last,_⟩ := later.uncons
    obtain ⟨d,so⟩ := Broadcast.following early fresh
      ⟨fun member => one.1 (by simp [member]),fun member => one.2 (by simp [member])⟩
    cases last with
    | success _ d' active _ =>
      obtain rfl := Option.some.inj (active.symm.trans so.active)
      have behind : u.log.drop d'.next = (u.log.drop s.log.length).drop (d'.next - s.log.length) := by
        rw [List.drop_drop,Nat.add_sub_cancel' so.forward]
      rw [so.segment,behind,List.take_append_drop,Broadcast.log_eq early,List.drop_left]

end

def start16 : Protocol.State :=
  ⟨ByteRingBuffer.create ring16.position (fun _ => 0),.create 1,fun _ => 0,fun _ => 0⟩

end Toroni.Java.Mixed
