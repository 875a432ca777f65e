import Toroni.Tp.Pipeline

/-! Where the readers of the pipeline stand in the log, what one task on the second queue of a
reader does, and what the messages under way are. -/
namespace Toroni.Tp.Pipeline
open Rmp Transition Writer TopicMsgBinarySerializer

def Message.Genuine (m : Message) : Prop :=
  ∀ o, m.origin = some o → NoZero o.channelName ∧ m.rbMsg.length < 2^32 ∧
    ∃ readerGen data, m.rbMsg = serialize readerGen o.postToDescendants o.channelName data

def Placed (g : Ledger) (q : Process) : Prop :=
  ∃ before rest, g.log = before ++ rest ∧
    q.reader.readerPos = BitVec.ofNat 64 (g.base + Rmp.sizeOf before) ∧
    q.read = (messages before).length ∧ g.free = g.base + Rmp.sizeOf before + q.lag

structure Stocked (size : RingSize) (q : Process) : Prop where
  created : ∀ m ∈ q.messages, m.Genuine
  queued : ∀ m ∈ q.queue.queue, m.Genuine ∧ Legal size.bytes m.written.rbMsg
  drained : ∀ batch, q.writing = some batch → ∀ m ∈ batch, m.Genuine ∧ Legal size.bytes m.written.rbMsg

structure Settled (isActive : Bool) (written : Nat) (q : Process) : Prop where
  active : isActive = true ↔ q.reader.channelReaders ≠ []
  read : q.read ≤ written
  called : ∀ call ∈ q.invoked, call.index < q.read

structure Inv (size : RingSize) (s : State) : Prop where
  ring : ∃ g, Represents size s.rb g [] ∧ g.top ≤ g.free ∧
    messages g.log = s.log.map Message.rbMsg ∧ ∀ p, s.isActive p = true → Placed g (s.process p)
  settled : ∀ p, Settled (s.isActive p) s.log.length (s.process p)
  stocked : ∀ p, Stocked size (s.process p)
  logged : ∀ m ∈ s.log, m.Genuine

def Recent (s : State) : Action → Prop
  | .rmpTask p _ => s.isActive p = true → (s.process p).lag < 2^63
  | _ => True

structure Dispatched (s : State) (p : Nat) (captured : List ChannelReader)
    (rest : List (List ChannelReader)) (t : State) : Prop where
  log : t.log = s.log
  clock : t.clock = s.clock
  active : ∀ q, t.isActive q = s.isActive q
  others : ∀ q, q ≠ p → t.process q = s.process q
  channelReaders : (t.process p).reader.channelReaders = (s.process p).reader.channelReaders
  serial : (t.process p).reader.serial = (s.process p).reader.serial
  rmp : (t.process p).reader.rmp = rest
  joined : (t.process p).joined = (s.process p).joined
  left : (t.process p).left = (s.process p).left
  calls : ∃ n calls, (s.isActive p = false → n = 0) ∧ (t.process p).read = (s.process p).read + n ∧
    (s.process p).read + n ≤ s.log.length ∧
    Tp.Reader.dispatchAll captured (s.process p).read
      (((s.log.map Message.rbMsg).drop (s.process p).read).take n) = some calls ∧
    (t.process p).invoked = (s.process p).invoked ++ calls

section
variable {size : RingSize} {s t : State} {p : Nat}

theorem legal_written {m : Message} {queue queue' : Traits.MPSCMessageQueue Message} {startDrainer : Bool}
    (config : s.rb.configBufSizeBytes = size.position)
    (posted : AsyncWriter.post s.rb Message.rbMsg queue m = some (startDrainer,queue')) :
    Legal size.bytes m.written.rbMsg ∧ queue'.queue = queue.queue ++ [m] := by
  obtain ⟨short,same⟩ := Option.ite_none_right_eq_some.mp posted
  obtain ⟨-,rfl⟩ := Prod.mk.inj (Option.some.inj same)
  refine ⟨?_,rfl⟩
  rw [BitVec.lt_def,toNat_getMaxMessageSize config,BitVec.toNat_ofNat] at short
  have narrowed : m.rbMsg.length % 2^32 ≤ m.rbMsg.length % 2^64 := by
    rw [← Nat.mod_mod_of_dvd m.rbMsg.length (show 2^32 ∣ 2^64 from Nat.pow_dvd_pow 2 (by omega))]
    exact Nat.mod_le _ _
  have small := Nat.mod_lt m.rbMsg.length (show 0 < 2^32 by omega)
  simp only [Message.written,Legal,MsgHeader.size,List.length_take] at short ⊢
  omega

theorem Message.Genuine.written {m : Message} (genuine : m.Genuine) : m.written.Genuine := by
  intro o origin
  obtain ⟨noZero,narrow,content⟩ := genuine o origin
  have whole : m.written.rbMsg = m.rbMsg := by
    simp only [Message.written,Nat.mod_eq_of_lt narrow,List.take_length]
  rw [whole]
  exact ⟨noZero,narrow,content⟩

theorem genuine_created {rb : ByteRingBuffer} {readerGen : ReaderGen} {channelName : Chars}
    {msg : List UInt8} {postToDescendants : Bool} {rbMsg : TopicMsgBinary} {born : Nat}
    (created : AsyncWriter.createMessage rb readerGen channelName msg postToDescendants = .created rbMsg) :
    Message.Genuine ⟨rbMsg,some ⟨born,channelName.takeWhile (· != 0),postToDescendants⟩⟩ := by
  unfold AsyncWriter.createMessage at created
  split at created
  next => contradiction
  next =>
    dsimp only at created
    split at created
    next => contradiction
    next =>
      split at created
      next whole =>
        obtain rfl := AsyncWriter.Created.created.inj created
        intro o origin
        obtain rfl := Option.some.inj origin
        refine ⟨noZero_takeWhile _,?_,_,_,rfl⟩
        dsimp only
        rw [whole]
        exact BitVec.isLt _
      next => contradiction

theorem stocked_set {q p : Nat} {x : Process} (others : ∀ p, Stocked size (s.process p))
    (changed : Stocked size x) : Stocked size ((s.set q x).process p) := by
  exact State.forall_set (P := fun _ => Stocked size) changed (fun q _ => others q) p

theorem Stocked.frame {x y : Process} (stocked : Stocked size x) (messages : y.messages = x.messages)
    (queue : y.queue = x.queue) (writing : y.writing = x.writing) : Stocked size y := by
  constructor
  · rw [messages]
    exact stocked.created
  · rw [queue]
    exact stocked.queued
  · rw [writing]
    exact stocked.drained

theorem stocked_post (config : s.rb.configBufSizeBytes = size.position)
    (stocked : ∀ p, Stocked size (s.process p)) {q : Nat} {m : Message} (genuine : m.Genuine)
    (posted : s.post q m = some t) (p : Nat) : Stocked size (t.process p) := by
  obtain ⟨⟨startDrainer,queue⟩,done,rfl⟩ := Option.map_eq_some_iff.mp posted
  obtain ⟨legal,grown⟩ := legal_written config done
  refine stocked_set stocked ⟨(stocked q).created,fun m member => ?_,(stocked q).drained⟩
  rw [grown,List.mem_append,List.mem_singleton] at member
  rcases member with old | rfl
  · exact (stocked q).queued m old
  · exact ⟨genuine,legal⟩

theorem stocked_write (stocked : ∀ p, Stocked size (s.process p)) {q : Nat} {answers : List BpAnswer}
    (stepped : next s (.write q answers) = some t) (p : Nat) : Stocked size (t.process p) := by
  simp only [next] at stepped
  split at stepped
  next m rest writing =>
    have drained := (stocked q).drained _ writing
    obtain ⟨out,_,ended⟩ := Option.bind_eq_some_iff.mp stepped
    split at ended
    next =>
      obtain rfl := Option.some.inj ended
      refine stocked_set (fun p => (stocked p).frame rfl rfl rfl)
        ⟨(stocked q).created,(stocked q).queued,?_⟩
      rintro batch ⟨⟩ m member
      exact drained m (List.mem_cons_of_mem _ member)
    next =>
      obtain rfl := Option.some.inj ended
      exact stocked_set stocked ⟨(stocked q).created,(stocked q).queued,by rintro batch ⟨⟩⟩
    next => contradiction
  next => contradiction

theorem stocked_step {a : Action} (config : s.rb.configBufSizeBytes = size.position)
    (stocked : ∀ p, Stocked size (s.process p)) (stepped : next s a = some t) (p : Nat) :
    Stocked size (t.process p) := by
  cases a with
  | createMessage q channelName msg postToDescendants =>
    simp only [next,State.createMessage] at stepped
    split at stepped
    next rbMsg created =>
      obtain rfl := Option.some.inj stepped
      refine stocked_set stocked ⟨fun m member => ?_,(stocked q).queued,(stocked q).drained⟩
      rcases List.mem_append.mp member with old | new
      · exact (stocked q).created m old
      · obtain rfl := List.mem_singleton.mp new
        exact genuine_created created
    next => contradiction
  | post q k =>
    obtain ⟨m,found,posted⟩ := Option.bind_eq_some_iff.mp stepped
    exact stocked_post config stocked ((stocked q).created m (List.mem_of_getElem? found)) posted p
  | postBytes q rbMsg => exact stocked_post config stocked (by rintro o ⟨⟩) stepped p
  | startWriter q =>
    obtain ⟨_,same⟩ := Option.ite_none_right_eq_some.mp stepped
    obtain rfl := Option.some.inj same
    refine stocked_set stocked ⟨(stocked q).created,(stocked q).queued,?_⟩
    rintro batch ⟨⟩ m ⟨⟩
  | drain q =>
    obtain ⟨_,same⟩ := Option.ite_none_right_eq_some.mp stepped
    obtain rfl := Option.some.inj same
    refine stocked_set stocked ⟨(stocked q).created,?_,fun batch full => ?_⟩
    · rintro m ⟨⟩
    · obtain ⟨_,same⟩ := Option.ite_none_left_eq_some.mp full
      obtain rfl := Option.some.inj same
      exact (stocked q).queued
  | write q answers => exact stocked_write stocked stepped p
  | createChannelReader q name handleDescendents =>
    obtain ⟨_,same⟩ := Option.ite_none_right_eq_some.mp stepped
    obtain rfl := Option.some.inj same
    exact stocked_set stocked ((stocked q).frame rfl rfl rfl)
  | closeChannelReader q id | run q =>
    obtain rfl := Option.some.inj stepped
    exact stocked_set stocked ((stocked q).frame rfl rfl rfl)
  | serialTask q =>
    simp only [next] at stepped
    split at stepped
    next => contradiction
    next task rest _ =>
      obtain rfl := Option.some.inj stepped
      cases task with
      | addChannelReader c | removeChannelReader id | run =>
        exact stocked_set stocked ((stocked q).frame rfl rfl rfl)
  | rmpTask q passes =>
    simp only [next] at stepped
    split at stepped
    next => contradiction
    next =>
      obtain ⟨_,_,called⟩ := Option.bind_eq_some_iff.mp stepped
      obtain ⟨_,_,rfl⟩ := Option.map_eq_some_iff.mp called
      exact stocked_set stocked ((stocked q).frame rfl rfl rfl)

theorem Inv.config (inv : Inv size s) : s.rb.configBufSizeBytes = size.position := by
  obtain ⟨_,rep,_⟩ := inv.ring
  exact rep.config

theorem Placed.undisturbed {g : Ledger} {q q' : Process} (placed : Placed g q)
    (same : Undisturbed q q') : Placed g q' := by
  obtain ⟨before,rest,split,pos,read,lag⟩ := placed
  exact ⟨before,rest,split,same.readerPos.trans pos,same.read.trans read,by rw [same.lag,lag]⟩

theorem Settled.undisturbed {isActive : Bool} {written : Nat} {q q' : Process}
    (settled : Settled isActive written q) (same : Undisturbed q q') : Settled isActive written q' := by
  refine ⟨?_,?_,?_⟩
  · rw [same.channelReaders]
    exact settled.active
  · rw [same.read]
    exact settled.read
  · rw [same.invoked,same.read]
    exact settled.called

theorem Inv.quiet (inv : Inv size s) (same : Quiet s t) (rb : SameStream s.rb t.rb)
    (stocked : ∀ p, Stocked size (t.process p)) : Inv size t := by
  have active (p : Nat) : t.isActive p = s.isActive p := by simp only [State.isActive,same.info]
  refine ⟨?_,fun p => ?_,stocked,by rw [same.log]; exact inv.logged⟩
  · obtain ⟨g,rep,quiet,log,placed⟩ := inv.ring
    refine ⟨g,rb.represents rep,quiet,by rw [same.log]; exact log,fun p on => ?_⟩
    exact (placed p (by rw [← active p]; exact on)).undisturbed (same.process p)
  · rw [active,same.log]
    exact (inv.settled p).undisturbed (same.process p)

theorem Inv.set {info : Tp.ReaderInfo} {x : Process} (inv : Inv size s)
    (others : ∀ q, q ≠ p → (info.rmpReaderInfo.info q).isActive = s.isActive q)
    (placed : ∀ g, Represents size s.rb g [] → g.top ≤ g.free →
      messages g.log = s.log.map Message.rbMsg → (s.isActive p = true → Placed g (s.process p)) →
      (info.rmpReaderInfo.info p).isActive = true → Placed g x)
    (settled : Settled (info.rmpReaderInfo.info p).isActive s.log.length x)
    (stocked : ∀ q, Stocked size (({ s with info := info }.set p x).process q)) :
    Inv size ({ s with info := info }.set p x) := by
  refine ⟨?_,?_,stocked,inv.logged⟩
  · obtain ⟨g,rep,quiet,log,before⟩ := inv.ring
    refine ⟨g,rep,quiet,log,State.forall_set (P := fun q y =>
      (info.rmpReaderInfo.info q).isActive = true → Placed g y) (placed g rep quiet log (before p)) ?_⟩
    intro q away on
    exact before q (by rwa [others q away] at on)
  · refine State.forall_set (P := fun q y => Settled (info.rmpReaderInfo.info q).isActive s.log.length y)
      settled (fun q away => ?_)
    rw [others q away]
    exact inv.settled q

theorem State.process_wrote (s : State) (p : Nat) (m : Message) (rest : List Message)
    (rb : ByteRingBuffer) (q : Nat) : (s.wrote p m rest rb).process q =
      { s.process q with
        lag := (s.process q).lag + (rb.freePos - s.rb.freePos).toNat
        writing := if q = p then some rest else (s.process q).writing } := by
  rw [State.wrote,State.process_set]
  split
  next same => rw [same]
  next => rfl

theorem Inv.wrote {m : Message} {rest : List Message} {answers : List BpAnswer}
    {out : WriteExOutcome} (inv : Inv size s) (legal : Legal size.bytes m.written.rbMsg)
    (genuine : m.Genuine)
    (called : writeEx p s.rb (fun _ => s.info.rmpReaderInfo) m.written.rbMsg answers = some out)
    (returned : out.result = .returned)
    (stocked : ∀ q, Stocked size ((s.wrote p m rest out.rb).process q)) :
    Inv size (s.wrote p m rest out.rb) := by
  refine ⟨?_,fun q => ?_,stocked,fun m' member => ?_⟩
  · obtain ⟨g,rep,quiet,log,placed⟩ := inv.ring
    have moved := writeEx_moved rep quiet legal called returned
    refine ⟨_,represents_writeEx rep quiet legal called returned,?_,?_,fun q on => ?_⟩
    · simp only [Ledger.free,sizeOf_append]
      omega
    · rw [messages_append,messages_appended,log]
      simp only [State.wrote,State.set,List.map_append,List.map_cons,List.map_nil]
    · obtain ⟨before,rest,split,pos,read,lag⟩ := placed q on
      rw [State.process_wrote]
      refine ⟨before,rest ++ appended size.bytes g.free m.written.rbMsg,
        by rw [split,List.append_assoc],pos,read,?_⟩
      rw [moved]
      simp only [Ledger.free,sizeOf_append] at lag ⊢
      omega
  · rw [State.process_wrote]
    have settled := inv.settled q
    exact ⟨settled.active,settled.read.trans (by simp [State.wrote,State.set]),settled.called⟩
  · rcases List.mem_append.mp member with old | new
    · exact inv.logged m' old
    · rw [List.mem_singleton.mp new]
      exact genuine.written

theorem perform_reader (s : State) (p : Nat) (rest : List (SerialTask ChannelReader)) (task : SerialTask ChannelReader) :
    let q := (s.perform p rest task).process p
    q.reader.serial = rest ∧
      (q.reader.rmp = (s.process p).reader.rmp ∨
        q.reader.rmp = (s.process p).reader.rmp ++ [(s.process p).reader.channelReaders]) ∧
      q.reader.channelReaders = match task with
        | .addChannelReader c => (s.process p).reader.channelReaders ++ [c]
        | .removeChannelReader id => (s.process p).reader.channelReaders.eraseP (fun c => c.id == id)
        | .run => (s.process p).reader.channelReaders := by
  simp only [State.perform]
  cases task with
  | addChannelReader c =>
    simp only [State.process_set,if_true,Tp.Reader.addChannelReader]
    split <;> simp
  | removeChannelReader id =>
    simp only [State.process_set,if_true,Tp.Reader.removeChannelReader]
    split <;> simp
  | run =>
    simp only [State.process_set,if_true,Tp.Reader.run]
    split <;> simp

theorem perform_left (s : State) (p : Nat) (rest : List (SerialTask ChannelReader)) (task : SerialTask ChannelReader) :
    ((s.perform p rest task).process p).left = match task with
      | .removeChannelReader id =>
        if (s.process p).reader.channelReaders.any (fun c => c.id == id)
          then Function.update (s.process p).left id (some s.log.length) else (s.process p).left
      | _ => (s.process p).left := by
  cases task <;> simp only [State.perform,State.process_set,if_true]

theorem perform_invoked (s : State) (p : Nat) (rest : List (SerialTask ChannelReader)) (task : SerialTask ChannelReader) :
    ((s.perform p rest task).process p).invoked = (s.process p).invoked := by
  cases task <;> simp only [State.perform,State.process_set,if_true]

theorem perform_frame (s : State) (p : Nat) (rest : List (SerialTask ChannelReader)) (task : SerialTask ChannelReader) :
    (s.perform p rest task).clock = s.clock ∧ (s.perform p rest task).log = s.log ∧
      ∀ q, q ≠ p → (s.perform p rest task).process q = s.process q ∧
        (s.perform p rest task).isActive q = s.isActive q := by
  refine ⟨by cases task <;> rfl,by cases task <;> rfl,fun q away => ⟨?_,?_⟩⟩
  · cases task <;> simp only [State.perform,State.process_set,if_neg away]
  · cases task with
    | addChannelReader c =>
      simp only [State.perform,State.isActive,State.set,Tp.Reader.addChannelReader]
      split
      · exact (ReaderInfo.isActive_activate _ _ _ _).trans (if_neg away)
      · rfl
    | removeChannelReader id =>
      simp only [State.perform,State.isActive,State.set,Tp.Reader.removeChannelReader]
      split
      · exact (ReaderInfo.isActive_deactivate _ _ _).trans (if_neg away)
      · rfl
    | run => rfl

theorem perform_add_first {c : ChannelReader} {rest : List (SerialTask ChannelReader)}
    (empty : (s.process p).reader.channelReaders = []) :
    s.perform p rest (.addChannelReader c) =
      { s with info := { s.info with rmpReaderInfo :=
          s.info.rmpReaderInfo.activate (some p) s.rb.freePos } }.set p { s.process p with
        reader := { (s.process p).reader with
          channelReaders := [c]
          readerPos := s.rb.freePos
          serial := rest
          events := (s.process p).reader.events ++ [ChannelReaderEventType.firstChannelReaderCreated] }
        read := s.log.length
        lag := 0
        joined := (s.process p).joined ++ [(c,s.log.length)] } := by
  simp [State.perform,Tp.Reader.addChannelReader,empty]

theorem perform_add_more {c : ChannelReader} {rest : List (SerialTask ChannelReader)}
    (more : (s.process p).reader.channelReaders ≠ []) :
    s.perform p rest (.addChannelReader c) =
      s.set p { s.process p with
        reader := { (s.process p).reader with
          channelReaders := (s.process p).reader.channelReaders ++ [c]
          serial := rest }
        joined := (s.process p).joined ++ [(c,s.log.length)] } := by
  simp [State.perform,Tp.Reader.addChannelReader,more]

theorem Inv.added {c : ChannelReader} {rest : List (SerialTask ChannelReader)} (inv : Inv size s)
    (stocked : ∀ q, Stocked size ((s.perform p rest (.addChannelReader c)).process q)) :
    Inv size (s.perform p rest (.addChannelReader c)) := by
  have settled := inv.settled p
  by_cases empty : (s.process p).reader.channelReaders = []
  · rw [perform_add_first empty] at stocked ⊢
    have active (q : Nat) : ((s.info.rmpReaderInfo.activate (some p) s.rb.freePos).info q).isActive =
        if q = p then true else s.isActive q := ReaderInfo.isActive_activate _ _ _ _
    refine inv.set (fun q away => ?_) (fun g rep _ log _ _ => ?_) ⟨?_,le_rfl,fun call member => ?_⟩ stocked
    · rw [active,if_neg away]
    · exact ⟨g.log,[],(List.append_nil _).symm,rep.freePos,by rw [log,List.length_map],rfl⟩
    · simp [active]
    · exact (settled.called call member).trans_le settled.read
  · rw [perform_add_more empty] at stocked ⊢
    refine inv.set (fun q _ => rfl) (fun g _ _ _ placed => placed) ⟨?_,settled.read,settled.called⟩ stocked
    have active := settled.active.mpr empty
    simpa [State.isActive] using active

theorem perform_remove_last {id : Nat} {rest : List (SerialTask ChannelReader)}
    (nonempty : (s.process p).reader.channelReaders ≠ [])
    (last : (s.process p).reader.channelReaders.eraseP (fun c => c.id == id) = []) :
    s.perform p rest (.removeChannelReader id) =
      { s with info := { s.info with rmpReaderInfo := s.info.rmpReaderInfo.deactivate (some p) } }.set p
        { s.process p with
          reader := { (s.process p).reader with
            channelReaders := []
            serial := rest
            events := (s.process p).reader.events ++ [ChannelReaderEventType.lastChannelReaderClosed] }
          left := if (s.process p).reader.channelReaders.any (fun c => c.id == id)
            then Function.update (s.process p).left id (some s.log.length) else (s.process p).left } := by
  simp [State.perform,Tp.Reader.removeChannelReader,nonempty,last]

theorem perform_remove_more {id : Nat} {rest : List (SerialTask ChannelReader)}
    (more : ¬ ((s.process p).reader.channelReaders ≠ [] ∧
      (s.process p).reader.channelReaders.eraseP (fun c => c.id == id) = [])) :
    s.perform p rest (.removeChannelReader id) = s.set p { s.process p with
      reader := { (s.process p).reader with
        channelReaders := (s.process p).reader.channelReaders.eraseP (fun c => c.id == id)
        serial := rest }
      left := if (s.process p).reader.channelReaders.any (fun c => c.id == id)
        then Function.update (s.process p).left id (some s.log.length) else (s.process p).left } := by
  simp only [State.perform,Tp.Reader.removeChannelReader,if_neg more]

theorem Inv.removed {id : Nat} {rest : List (SerialTask ChannelReader)} (inv : Inv size s)
    (stocked : ∀ q, Stocked size ((s.perform p rest (.removeChannelReader id)).process q)) :
    Inv size (s.perform p rest (.removeChannelReader id)) := by
  have settled := inv.settled p
  by_cases last : (s.process p).reader.channelReaders ≠ [] ∧
      (s.process p).reader.channelReaders.eraseP (fun c => c.id == id) = []
  · rw [perform_remove_last last.1 last.2] at stocked ⊢
    have active (q : Nat) : ((s.info.rmpReaderInfo.deactivate (some p)).info q).isActive =
        if q = p then false else s.isActive q := ReaderInfo.isActive_deactivate _ _ _
    refine inv.set (fun q away => ?_) (fun g _ _ _ _ on => ?_) ⟨?_,settled.read,settled.called⟩ stocked
    · rw [active,if_neg away]
    · rw [active,if_pos rfl] at on
      contradiction
    · simp [active]
  · rw [perform_remove_more last] at stocked ⊢
    refine inv.set (fun q _ => rfl) (fun g _ _ _ placed => placed) ⟨?_,settled.read,settled.called⟩ stocked
    refine settled.active.trans (not_congr ⟨fun none => by simp [none],fun none => ?_⟩)
    by_contra some
    exact last ⟨some,none⟩

theorem Placed.read {g : Ledger} {q : Process} {passes : Nat} {bpos : Position} {out : Reader.Outcome}
    (placed : Placed g q) (rep : Represents size s.rb g []) (quiet : g.top ≤ g.free)
    (recent : q.lag < 2^63)
    (read : Reader.readEx (fun _ => true) s.rb passes q.reader.readerPos bpos = some out) :
    (∃ later, (messages g.log).drop q.read = out.confirmed ++ later) ∧
      ∀ x : Process, x.reader.readerPos = out.pos → x.read = q.read + out.confirmed.length →
        x.lag = q.lag - (out.pos - q.reader.readerPos).toNat → Placed g x := by
  obtain ⟨before,rest,split,pos,count,lag⟩ := placed
  obtain ⟨_,went,left,divided,_,reached,confirmed,_⟩ :=
    Reader.readEx_records rep split pos (by omega) (by omega) read
  subst divided
  have free : g.free = g.base + Rmp.sizeOf before + Rmp.sizeOf went + Rmp.sizeOf left := by
    rw [Ledger.free,split]
    simp only [sizeOf_append]
    omega
  have moved : (out.pos - q.reader.readerPos).toNat = Rmp.sizeOf went := by
    rw [reached,pos,SerialNumber.toNat_ofNat_sub_ofNat (by rw [sizeOf_append]; omega)
      (by rw [sizeOf_append]; omega),sizeOf_append]
    omega
  refine ⟨⟨messages left,?_⟩,fun x there more less => ?_⟩
  · rw [split,messages_append,count,List.drop_left,messages_append,confirmed]
  · refine ⟨before ++ went,left,by rw [split,List.append_assoc],there.trans reached,?_,?_⟩
    · rw [more,count,confirmed,messages_append,List.length_append]
    · rw [less,moved,sizeOf_append]
      omega

/-- A task on the second queue, from where the reader stands. -/
theorem dispatched_readRmp {captured : List ChannelReader} {rest : List (List ChannelReader)}
    {passes : Nat} (inv : Inv size s) (recent : s.isActive p = true → (s.process p).lag < 2^63)
    (stocked : ∀ q, Stocked size (t.process q))
    (done : s.readRmp p captured rest passes = some t) :
    Dispatched s p captured rest t ∧ Inv size t := by
  obtain ⟨⟨info,reader,confirmed⟩,read,called⟩ := Option.bind_eq_some_iff.mp done
  obtain ⟨calls,dispatched,rfl⟩ := Option.map_eq_some_iff.mp called
  have settled := inv.settled p
  have shape : reader.channelReaders = (s.process p).reader.channelReaders ∧
      reader.serial = (s.process p).reader.serial ∧
      ∀ q, (info.rmpReaderInfo.info q).isActive = s.isActive q := by
    rcases Tp.Reader.readRmp_cases read with ⟨_,rfl,rfl,_⟩ | ⟨_,_,_,⟨_,rfl⟩ | ⟨_,rfl⟩,_,same⟩
    · exact ⟨rfl,rfl,fun _ => rfl⟩
    · exact ⟨rfl,rfl,same⟩
    · exact ⟨rfl,rfl,same⟩
  obtain ⟨same,serial,active⟩ := shape
  have front : (s.isActive p = false → confirmed.length = 0) ∧
      ∃ later, (s.log.map Message.rbMsg).drop (s.process p).read = confirmed ++ later := by
    rcases Tp.Reader.readRmp_cases read with ⟨idle,_,_,rfl⟩ | ⟨on,out,ran,_,rfl,_⟩
    · exact ⟨fun _ => rfl,_,(List.nil_append _).symm⟩
    · obtain ⟨g,rep,quiet,log,placed⟩ := inv.ring
      refine ⟨fun off => absurd on (by simpa [State.isActive] using off),?_⟩
      rw [← log]
      exact ((placed p on).read rep quiet (recent on) ran).1
  obtain ⟨none,later,front⟩ := front
  have inside : (s.process p).read + confirmed.length ≤ s.log.length := by
    have lengths := congrArg List.length front
    have within := settled.read
    simp only [List.length_drop,List.length_map,List.length_append] at lengths
    omega
  have taken : ((s.log.map Message.rbMsg).drop (s.process p).read).take confirmed.length = confirmed := by
    rw [front,List.take_left]
  have own (x : Process) : (State.set { s with info := info } p x).process p = x := by
    rw [State.process_set,if_pos rfl]
  refine ⟨⟨rfl,rfl,active,fun q away => by rw [State.process_set,if_neg away],?_,?_,?_,?_,?_,
    confirmed.length,calls,none,?_,inside,by rw [taken]; exact dispatched,?_⟩,
    inv.set (fun q _ => active q) (fun g rep quiet log placed on => ?_) ⟨?_,inside,fun call member => ?_⟩
      stocked⟩
  · rw [own]; exact same
  · rw [own]; exact serial
  · rw [own]
  · rw [own]
  · rw [own]
  · rw [own]
  · rw [own]
  · rcases Tp.Reader.readRmp_cases read with ⟨idle,rfl,rfl,rfl⟩ | ⟨on,out,ran,ended,rfl,_⟩
    · rw [idle] at on
      contradiction
    · have there : reader.readerPos = out.pos := by rcases ended with ⟨_,rfl⟩ | ⟨_,rfl⟩ <;> rfl
      exact ((placed on).read rep quiet (recent on) ran).2 _ there rfl (by rw [there])
  · rw [active,same]
    exact settled.active
  · rcases List.mem_append.mp member with old | new
    · exact (settled.called call old).trans_le (Nat.le_add_right _ _)
    · obtain ⟨_,k,data,found,index,_⟩ := Tp.Reader.mem_dispatchAll dispatched new
      have bound := (List.getElem?_eq_some_iff.mp found).1
      dsimp only
      omega

theorem Dispatched.new_calls {captured : List ChannelReader} {rest : List (List ChannelReader)}
    (dispatched : Dispatched s p captured rest t) :
    ∃ calls, (t.process p).invoked = (s.process p).invoked ++ calls ∧ ∀ call ∈ calls,
      s.isActive p = true ∧ call.reader ∈ captured ∧ (s.process p).read ≤ call.index ∧
        ∃ m, s.log[call.index]? = some m ∧ Tp.Reader.filter call.reader m.rbMsg = .accepted call.data := by
  obtain ⟨n,calls,none,_,_,called,invoked⟩ := dispatched.calls
  refine ⟨calls,invoked,fun call member => ?_⟩
  obtain ⟨inside,k,data,front,index,accepted⟩ := Tp.Reader.mem_dispatchAll called member
  obtain ⟨short,_⟩ := List.getElem?_eq_some_iff.mp front
  rw [List.length_take] at short
  have active : s.isActive p = true := by
    by_contra idle
    have zero := none (Bool.eq_false_iff.mpr idle)
    omega
  rw [List.getElem?_take_of_lt (by omega),List.getElem?_drop,List.getElem?_map,← index] at front
  obtain ⟨m,found,rfl⟩ := Option.map_eq_some_iff.mp front
  exact ⟨active,inside,by omega,m,found,accepted⟩

theorem Inv.step {a : Action} (inv : Inv size s) (recent : Recent s a) (stepped : next s a = some t) :
    Inv size t := by
  have stocked := stocked_step inv.config (fun p => inv.stocked p) stepped
  cases effect stepped with
  | quiet same rb _ => exact inv.quiet same (rb ▸ .rfl) stocked
  | created _ => exact inv.quiet (quiet_enqueueSerial _) .rfl stocked
  | queued _ => exact inv.quiet (quiet_enqueueSerial s.clock) .rfl stocked
  | ran _ => exact inv.quiet quiet_run .rfl stocked
  | @gaveUp p m rest answers out _ writing called threw same rb _ =>
    obtain ⟨g,rep,_⟩ := inv.ring
    have legal := ((inv.stocked p).drained _ writing m List.mem_cons_self).2
    have wrote := writeEx_wrote rep.config rep.freePos legal called
    exact inv.quiet same (rb ▸ wrote.otherwise (by simp [threw])) stocked
  | @wrote p m rest answers out writing called returned =>
    obtain ⟨genuine,legal⟩ := (inv.stocked p).drained _ writing m List.mem_cons_self
    exact inv.wrote legal genuine called returned stocked
  | added serial => exact inv.added stocked
  | removed serial => exact inv.removed stocked
  | read rmp done => exact (dispatched_readRmp inv recent stocked done).2

theorem inv_start (initial : (sys size).init s) : Inv size s := by
  obtain ⟨rb,info,config,inactive,rfl⟩ := initial
  refine ⟨⟨_,Represents.fresh rb config,by simp [Ledger.free],rfl,fun p on => ?_⟩,fun p => ⟨?_,le_rfl,?_⟩,
    fun p => ⟨?_,?_,?_⟩,?_⟩
  · rw [State.isActive,start,inactive p] at on
    contradiction
  · simp [start,State.isActive,inactive,idle,Tp.Reader.create]
  · rintro call ⟨⟩
  · rintro m ⟨⟩
  · rintro m ⟨⟩
  · rintro batch ⟨⟩
  · rintro m ⟨⟩

/-- The invariant of all restrictions under which readers read in time. -/
theorem reachable_inv {allowed : State → Action → Prop} (only : ∀ s a, allowed s a → Recent s a)
    (reached : Reachable ((sys size).restrict allowed) s) : Inv size s := by
  refine reached.invariant (Inv size) ?_ ?_
  · exact fun _ => inv_start
  · exact fun s a _ inv stepped => inv.step (only s a stepped.1) stepped.2

end
end Toroni.Tp.Pipeline
