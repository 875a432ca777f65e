import Toroni.Rmp.Broadcast
import Toroni.Rmp.Writer

/-! Writers and readers on one ring, every call of `WriteEx`, `Activate`, `Deactivate` and
`ReadEx` taken as one step, and its refinement of the abstract broadcast. -/
namespace Toroni.Rmp.Protocol
open Transition Traits Writer Reader

/-- The shared ring and reader table, and the in-process position of the reader that holds
each slot. `since` is a history variable: the bytes written since the slot was activated. -/
structure State where
  rb : ByteRingBuffer
  ri : ReaderInfo
  readerPos : Nat → Position
  since : Nat → Nat

def State.isActive (s : State) (i : Nat) : Bool := (s.ri.info i).isActive

def State.activate (s : State) (i : Nat) : State :=
  { s with readerPos := Function.update s.readerPos i s.rb.freePos
           ri := s.ri.activate (some i) s.rb.freePos
           since := Function.update s.since i 0 }

def State.deactivate (s : State) (i : Nat) : State := { s with ri := s.ri.deactivate (some i) }

def State.put (s : State) (rb : ByteRingBuffer) : State :=
  { s with rb := rb, since := fun i => s.since i + (rb.freePos - s.rb.freePos).toNat }

def State.finishRead (s : State) (i : Nat) (out : Outcome) : State :=
  let ri := s.ri.setPosition i out.bpos
  { s with readerPos := Function.update s.readerPos i out.pos
           ri := if out.result = some .expiredPosition then
             { ri with expiredReaders := ri.expiredReaders + 1 } else ri }

inductive Step (size : RingSize) : State → Event → State → Prop
  | wrote {s : State} {data : List UInt8} (self : Owner) (answers : List BpAnswer)
      (out : WriteExOutcome) (legal : Legal size.bytes data)
      (called : writeEx self s.rb (fun _ => s.ri) data answers = some out)
      (returned : out.result = .returned) : Step size s (.wrote data) (s.put out.rb)
  | gaveUp {s : State} {data : List UInt8} (self : Owner) (answers : List BpAnswer)
      (out : WriteExOutcome) (legal : Legal size.bytes data)
      (called : writeEx self s.rb (fun _ => s.ri) data answers = some out)
      (threw : out.result = .threw) : Step size s .gaveUp (s.put out.rb)
  | activated {s : State} {i : Nat} (inside : i < s.ri.configMaxReaders.toNat) :
      Step size s (.activated i) (s.activate i)
  | deactivated {s : State} {i : Nat} (inside : i < s.ri.configMaxReaders.toNat) :
      Step size s (.deactivated i) (s.deactivate i)
  | read {s : State} {i : Nat} (passes : Nat) (active : s.isActive i = true) (out : Outcome)
      (done : readEx (fun _ => true) s.rb passes (s.readerPos i) (s.ri.info i).position = some out) :
      Step size s (.read i out.result out.confirmed) (s.finishRead i out)

def sys (size : RingSize) : System State Event where
  init s := s.rb.configBufSizeBytes = size.position ∧ ∀ i, s.isActive i = false
  step := Step size

def Moderate (s : State) : Prop := ∀ i, s.isActive i = true → s.since i < 2^63

/-- A reader of the ring is where the abstract reader is: at a record boundary behind as many
messages of the log, not further back than what was written since its activation, and in
front of a record that stops it if it has been told that it is lost. -/
structure At (size : RingSize) (g : Ledger) (s : State) (i : Nat) (c : Broadcast.Cursor) : Prop where
  active : s.isActive i = true
  boundary : ∃ before rest, g.log = before ++ rest ∧
    s.readerPos i = BitVec.ofNat 64 (g.base + sizeOf before) ∧
    c.next = (messages before).length ∧ g.free ≤ g.base + sizeOf before + s.since i ∧
    (c.lost = true → ∃ r tail, rest = r :: tail ∧ Stops size.bytes g.free (g.base + sizeOf before) r)

def Related (size : RingSize) (s : State) (a : Broadcast.State) : Prop :=
  ∃ g, Represents size s.rb g [] ∧ g.top ≤ g.free ∧ messages g.log = a.log ∧
    ∀ i, match a.reader i with
      | none => s.isActive i = false
      | some c => At size g s i c

section
variable {size : RingSize} {s t : State} {a : Broadcast.State} {g : Ledger} {i : Nat}

theorem State.isActive_activate (i j : Nat) :
    (s.activate i).isActive j = if j = i then true else s.isActive j := by
  exact ReaderInfo.isActive_activate _ _ _ _

theorem State.isActive_deactivate (i j : Nat) :
    (s.deactivate i).isActive j = if j = i then false else s.isActive j := by
  exact ReaderInfo.isActive_deactivate _ _ _

theorem State.isActive_finishRead (i j : Nat) (out : Outcome) :
    (s.finishRead i out).isActive j = s.isActive j := by
  simp only [State.isActive,State.finishRead]
  split <;> exact ReaderInfo.isActive_setPosition _ _ _ _

theorem At.grow {c : Broadcast.Cursor} {more : List Record} {g' : Ledger} (place : At size g s i c)
    (base : g'.base = g.base) (log : g'.log = g.log ++ more)
    (active : t.isActive i = s.isActive i) (same : t.readerPos i = s.readerPos i)
    (since : s.since i + sizeOf more ≤ t.since i) : At size g' t i c := by
  obtain ⟨isActive,before,rest,split,pos,next,near,lost⟩ := place
  have free : g'.free = g.free + sizeOf more := by
    simp only [Ledger.free,base,log,sizeOf_append,Nat.add_assoc]
  refine ⟨active.trans isActive,before,rest ++ more,by rw [log,split,List.append_assoc],?_,next,?_,?_⟩
  · rw [same,pos,base]
  · rw [base]
    omega
  · intro gone
    obtain ⟨r,tail,whole,stops⟩ := lost gone
    exact ⟨r,tail ++ more,by rw [whole,List.cons_append],by
      rw [base]; exact stops.mono (by omega)⟩

theorem related_wrote {self : Owner} {answers : List BpAnswer} {data : List UInt8}
    {out : WriteExOutcome} (related : Related size s a) (legal : Legal size.bytes data)
    (called : writeEx self s.rb (fun _ => s.ri) data answers = some out)
    (returned : out.result = .returned) :
    Related size (s.put out.rb) { a with log := a.log ++ [data] } := by
  obtain ⟨g,rep,quiet,log,readers⟩ := related
  have grown := represents_writeEx rep quiet legal called returned
  have moved := writeEx_moved rep quiet legal called returned
  refine ⟨_,grown,?_,?_,fun i => ?_⟩
  · simp only [Ledger.free,sizeOf_append]
    omega
  · rw [messages_append,messages_appended,log]
  · have place := readers i
    dsimp only
    split
    next idle => rw [idle] at place; exact place
    next c active =>
      rw [active] at place
      exact place.grow rfl rfl rfl rfl (by simp only [State.put,moved]; exact le_rfl)

theorem related_gaveUp {self : Owner} {answers : List BpAnswer} {data : List UInt8}
    {out : WriteExOutcome} (related : Related size s a) (legal : Legal size.bytes data)
    (called : writeEx self s.rb (fun _ => s.ri) data answers = some out)
    (threw : out.result = .threw) : Related size (s.put out.rb) a := by
  obtain ⟨g,rep,quiet,log,readers⟩ := related
  have same := (writeEx_wrote rep.config rep.freePos legal called).otherwise (by simp [threw])
  refine ⟨g,same.represents rep,quiet,log,fun i => ?_⟩
  have place := readers i
  split
  next idle => rw [idle] at place; exact place
  next c active =>
    rw [active] at place
    exact place.grow rfl (List.append_nil _).symm rfl rfl (by simp [State.put,same.freePos])

theorem related_reader {c : Option Broadcast.Cursor} (rep : Represents size t.rb g [])
    (quiet : g.top ≤ g.free) (log : messages g.log = a.log)
    (readers : ∀ i, match a.reader i with
      | none => s.isActive i = false
      | some c => At size g s i c)
    (others : ∀ j, j ≠ i →
      t.isActive j = s.isActive j ∧ t.readerPos j = s.readerPos j ∧ t.since j = s.since j)
    (place : match c with
      | none => t.isActive i = false
      | some c => At size g t i c) :
    Related size t { a with reader := Function.update a.reader i c } := by
  refine ⟨g,rep,quiet,log,fun j => ?_⟩
  by_cases same : j = i
  · subst same
    simpa using place
  · have kept := readers j
    obtain ⟨active,pos,since⟩ := others j same
    simp only [Function.update_of_ne same]
    split
    next idle => rw [idle] at kept; exact active.trans kept
    next c following =>
      rw [following] at kept
      exact kept.grow rfl (List.append_nil _).symm active pos (by simp [since])

/-- From where a reader stands, a call returns. It goes over records that it confirms and
stops at the end of the log, or in front of a record that it cannot read. -/
theorem At.readEx {c : Broadcast.Cursor} (place : At size g s i c) (rep : Represents size s.rb g [])
    (quiet : g.top ≤ g.free) (recent : s.since i < 2^63) :
    ∃ passes result bpos before went left, g.log = (before ++ went) ++ left ∧
      c.next = (messages before).length ∧
      g.free ≤ g.base + sizeOf (before ++ went) + s.since i ∧
      Reader.readEx (fun _ => true) s.rb passes (s.readerPos i) (s.ri.info i).position =
        some ⟨some result,BitVec.ofNat 64 (g.base + sizeOf (before ++ went)),bpos,messages went⟩ ∧
      (left = [] ∧ result = .success ∧ c.lost = false ∨
        (∃ r tail, left = r :: tail ∧ Stops size.bytes g.free (g.base + sizeOf (before ++ went)) r) ∧
          result = .expiredPosition ∧ (c.lost = true → messages went = [])) := by
  obtain ⟨_,before,rest,split,pos,next,near,lost⟩ := place
  obtain ⟨bpos,read,_⟩ := readEx_spec (fun _ => true) (s.ri.info i).position
    rep split rfl (by omega) (by omega)
  obtain ⟨result,went,left,divided,value,ending⟩ :=
    readLog_all size.bytes g.free (g.base + sizeOf before) rest
  rw [value,← pos,Nat.add_assoc,← sizeOf_append] at read
  refine ⟨_,result,bpos,before,went,left,by rw [split,divided,List.append_assoc],next,
    by rw [sizeOf_append]; omega,read,?_⟩
  have stuck (gone : c.lost = true) : result = .expiredPosition ∧ messages went = [] := by
    obtain ⟨r,tail,whole,stops⟩ := lost gone
    rw [whole,readLog_stops stops] at value
    exact ⟨congrArg Prod.fst value.symm,congrArg (fun v => v.2.2) value.symm⟩
  rw [sizeOf_append,← Nat.add_assoc]
  rcases ending with ⟨none,success⟩ | ⟨r,tail,whole,stops,expired⟩
  · refine Or.inl ⟨none,success,?_⟩
    by_contra gone
    have expired := (stuck (by simpa using gone)).1
    rw [success] at expired
    contradiction
  · exact Or.inr ⟨⟨r,tail,whole,stops⟩,expired,fun gone => (stuck gone).2⟩

theorem related_read {passes : Nat} {out : Outcome} (related : Related size s a)
    (recent : s.since i < 2^63) (active : s.isActive i = true)
    (done : Reader.readEx (fun _ => true) s.rb passes (s.readerPos i) (s.ri.info i).position = some out) :
    ∃ b, Broadcast.Step a (.read i out.result out.confirmed) b ∧ Related size (s.finishRead i out) b := by
  obtain ⟨g,rep,quiet,log,readers⟩ := related
  have place := readers i
  cases found : a.reader i with
  | none =>
    rw [found,active] at place
    contradiction
  | some c =>
    rw [found] at place
    obtain ⟨_,result,bpos,before,went,left,split,next,near,read,ending⟩ :=
      place.readEx rep quiet recent
    obtain rfl := readEx_unique read done
    have behind : a.log.drop c.next = messages went ++ messages left := by
      rw [← log,split,next,List.append_assoc,messages_append,List.drop_left,messages_append]
    have related (d : Broadcast.Cursor) (count : d.next = (messages (before ++ went)).length)
        (lost : d.lost = true → ∃ r tail, left = r :: tail ∧
          Stops size.bytes g.free (g.base + sizeOf (before ++ went)) r) :
        Related size (s.finishRead i ⟨some result,BitVec.ofNat 64 (g.base + sizeOf (before ++ went)),
          bpos,messages went⟩) { a with reader := Function.update a.reader i (some d) } := by
      refine related_reader rep quiet log readers (fun j away => ?_) ?_
      · exact ⟨State.isActive_finishRead i j _,by simp [State.finishRead,away],rfl⟩
      · refine ⟨(State.isActive_finishRead i i _).trans active,before ++ went,left,split,?_,count,near,lost⟩
        simp [State.finishRead]
    rcases ending with ⟨rfl,rfl,live⟩ | ⟨stops,rfl,lost⟩
    · have confirmed : messages went = a.log.drop c.next := by simpa using behind.symm
      refine ⟨_,confirmed ▸ .success a i c found live,related ⟨a.log.length,false⟩ ?_ (by simp)⟩
      rw [← log,split,List.append_nil]
    · have confirmed : messages went = (a.log.drop c.next).take (messages went).length := by
        rw [behind,List.take_left]
      have inside : c.next + (messages went).length ≤ a.log.length := by
        rw [← log,split,next,messages_append,messages_append]
        simp only [List.length_append]
        omega
      have step := Broadcast.Step.expired a i c (messages went).length found inside
        (fun gone => by rw [lost gone]; rfl)
      rw [← confirmed] at step
      refine ⟨_,step,related ⟨_,true⟩ ?_ (fun _ => stops)⟩
      rw [next,messages_append,List.length_append]

/-- Under the bound on the bytes written in an activation, the calls on the ring are a
broadcast of the messages to the active readers. -/
theorem simulates (size : RingSize) :
    Simulates (Related size) ((sys size).restrict (fun s _ => Moderate s)) Broadcast.sys where
  start := by
    rintro s ⟨config,idle⟩
    exact ⟨⟨[],fun _ => none⟩,⟨rfl,fun _ => rfl⟩,_,Represents.fresh s.rb config,
      by simp [Ledger.free],rfl,idle⟩
  step := by
    rintro s event t a related ⟨moderate,step⟩
    cases step with
    | wrote self answers out legal called returned =>
      exact ⟨_,.wrote a _,related_wrote related legal called returned⟩
    | gaveUp self answers out legal called threw =>
      exact ⟨_,.gaveUp a,related_gaveUp related legal called threw⟩
    | @activated i inside =>
      obtain ⟨g,rep,quiet,log,readers⟩ := related
      refine ⟨_,.activated a i,related_reader (t := s.activate i) rep quiet log readers
        (fun j away => ?_) ?_⟩
      · exact ⟨by simp [State.isActive_activate,away],by simp [State.activate,away],
          by simp [State.activate,away]⟩
      · refine ⟨by simp [State.isActive_activate],g.log,[],(List.append_nil _).symm,?_,?_,?_,by simp⟩
        · simpa [State.activate,Ledger.free] using rep.freePos
        · rw [← log]
        · simp [State.activate,Ledger.free]
    | @deactivated i inside =>
      obtain ⟨g,rep,quiet,log,readers⟩ := related
      refine ⟨_,.deactivated a i,related_reader (t := s.deactivate i) rep quiet log readers
        (fun j away => ?_) ?_⟩
      · exact ⟨by simp [State.isActive_deactivate,away],rfl,rfl⟩
      · simp [State.isActive_deactivate]
    | @read i passes active out done => exact related_read related (moderate i active) active done

/-- In every run, what is confirmed to a reader between two activations is a segment of the
one global sequence of messages, beginning with the first one written after the activation.
Once a call has reported expiry all later ones do, no call reports an invalid position or
fails an assertion, and at the end of the run a call of an active reader returns. -/
theorem confirmed_segment {events : List Event}
    (run : Run ((sys size).restrict (fun s _ => Moderate s)) s events t)
    (initial : (sys size).init s) :
    (∀ i before during after, events = before ++ .activated i :: (during ++ after) →
      OneActivation i during →
        (∃ count, confirmedOf i during =
          ((writtenOf events).drop (writtenOf before).length).take count) ∧
        StaysExpired i during ∧
        ∀ result confirmed, .read i result confirmed ∈ during →
          result = some .success ∨ result = some .expiredPosition) ∧
    (Moderate t → ∀ i, t.isActive i = true → ∃ passes out,
      readEx (fun _ => true) t.rb passes (t.readerPos i) (t.ri.info i).position = some out) := by
  obtain ⟨a,⟨empty,_⟩,start⟩ := (simulates size).start s initial
  obtain ⟨b,abstract,related⟩ := (simulates size).run run start
  refine ⟨?_,fun moderate i active => ?_⟩
  · rintro i before during after rfl one
    obtain ⟨first,began,rest⟩ := abstract.split
    obtain ⟨second,activation,rest⟩ := rest.uncons
    obtain ⟨third,period,rest⟩ := rest.split
    have start := Broadcast.log_eq began
    rw [empty,List.nil_append] at start
    cases activation with
    | activated =>
      obtain ⟨c,follows⟩ := Broadcast.following period (by simp) one
      refine ⟨⟨c.next - first.log.length,?_⟩,follows.stays,follows.told⟩
      have ended := Broadcast.log_eq period
      have inside := follows.inside
      have forward := follows.forward
      rw [ended,List.length_append] at inside
      rw [follows.segment,ended,writtenOf_append,← start,List.drop_left,List.drop_left]
      simp only [writtenOf,writtenOf_append] at inside forward ⊢
      rw [List.take_append_of_le_length (by omega)]
  · obtain ⟨g,rep,quiet,_,readers⟩ := related
    have place := readers i
    split at place
    next idle => rw [active] at place; contradiction
    next c _ =>
      obtain ⟨passes,_,_,_,_,_,_,_,_,read,_⟩ := place.readEx rep quiet (moderate i active)
      exact ⟨passes,_,read⟩

end

def start16 : State :=
  ⟨ByteRingBuffer.create ring16.position (fun _ => 0),ReaderInfo.create 1,fun _ => 0,fun _ => 0⟩

def lapping : List Event :=
  [.wrote [1,2,3],.read 0 (some .success) [[1,2,3]],.wrote [4,5],.wrote [6],
    .read 0 (some .success) [[4,5],[6]],.wrote [7,8,9],.wrote [1,1,1,1],.read 0 (some .expiredPosition) []]

theorem run_lapping :
    ∃ t, Run ((sys ring16).restrict (fun s _ => Moderate s)) start16 (.activated 0 :: lapping) t := by
  refine ⟨_,.cons ⟨?_,.activated (by decide)⟩ (.cons ⟨?_,.wrote 0 [] _ (by decide) rfl rfl⟩
    (.cons ⟨?_,.read 2 rfl ⟨_,_,_,_⟩ rfl⟩ (.cons ⟨?_,.wrote 0 [] _ (by decide) rfl rfl⟩
    (.cons ⟨?_,.wrote 0 [] _ (by decide) rfl rfl⟩ (.cons ⟨?_,.read 4 rfl ⟨_,_,_,_⟩ rfl⟩
    (.cons ⟨?_,.wrote 0 [] _ (by decide) rfl rfl⟩
    -- the reader is in the way, and the handler answers false
    (.cons ⟨?_,.wrote 0 [.returns false] _ (by decide) rfl rfl⟩
    (.cons ⟨?_,.read 1 rfl ⟨_,_,_,_⟩ rfl⟩ (.nil _)))))))))⟩
  · intro i _
    exact Nat.two_pow_pos 63
  all_goals
    intro i _
    simp [State.put,State.activate,State.finishRead,start16]
    try decide

/-- Three messages are confirmed, one after the other, and then the loss of the others is reported. -/
theorem confirmed_segment_lapped :
    (∃ count, confirmedOf 0 lapping = ((writtenOf (.activated 0 :: lapping)).drop 0).take count) ∧
      StaysExpired 0 lapping ∧ ∀ result confirmed, .read 0 result confirmed ∈ lapping →
        result = some .success ∨ result = some .expiredPosition := by
  obtain ⟨t,run⟩ := run_lapping
  have one : OneActivation 0 lapping := by simp [OneActivation,lapping]
  exact (confirmed_segment run ⟨rfl,fun _ => rfl⟩).1 0 [] lapping [] (by simp) one

end Toroni.Rmp.Protocol
