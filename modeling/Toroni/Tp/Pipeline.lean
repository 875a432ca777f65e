import Toroni.Library.Transition
import Toroni.Rmp.Writer
import Toroni.Tp.AsyncWriter
import Toroni.Tp.Reader

/-! Any number of processes on one ring, each with an asynchronous writer and a reader: messages
are created, posted, written, read and dispatched at separate moments. -/
namespace Toroni.Tp.Pipeline
open Rmp Transition Traits Writer

structure Origin where
  born : Nat
  channelName : Chars
  postToDescendants : Bool
  deriving DecidableEq

/-- `origin` is a history variable, `none` for a vector that `CreateMessage` has not made. -/
structure Message where
  rbMsg : TopicMsgBinary
  origin : Option Origin
  deriving DecidableEq

def Message.written (m : Message) : Message :=
  { m with rbMsg := m.rbMsg.take (m.rbMsg.length % 2^32) }

/-- A process. `messages` are those it has created, `work` the work items with `ProcWriter` that
have not started, `writing` the rest of what a running one has drained. The others are history
variables: `read` and `lag` are the messages and the bytes in front of and behind the position
of its reader, `joined` the channel readers with the number of messages written when
`AddChannelReader` ran, `left` that number when `RemoveChannelReader` ran. -/
structure Process where
  messages : List Message
  queue : MPSCMessageQueue Message
  work : Nat
  writing : Option (List Message)
  reader : Tp.Reader
  read : Nat
  lag : Nat
  joined : List (ChannelReader × Nat)
  left : Nat → Option Nat
  invoked : List (Invocation ChannelReader)

/-- `clock` numbers the calls of `CreateMessage` and `CreateChannelReader`, and `log` holds all
messages in the order in which they were written. -/
structure State where
  rb : ByteRingBuffer
  info : ReaderInfo
  process : Nat → Process
  clock : Nat
  log : List Message

namespace State

def isActive (s : State) (p : Nat) : Bool := (s.info.rmpReaderInfo.info p).isActive

def set (s : State) (p : Nat) (process : Process) : State :=
  { s with process := Function.update s.process p process }

def createMessage (s : State) (p : Nat) (channelName : Chars) (msg : List UInt8)
    (postToDescendants : Bool) : Option State :=
  match AsyncWriter.createMessage s.rb s.info.readerGen channelName msg postToDescendants with
  | .created rbMsg =>
    let m : Message := ⟨rbMsg,some ⟨s.clock,channelName.takeWhile (· != 0),postToDescendants⟩⟩
    some ({ s with clock := s.clock + 1 }.set p
      { s.process p with messages := (s.process p).messages ++ [m] })
  | _ => none

def post (s : State) (p : Nat) (m : Message) : Option State :=
  (AsyncWriter.post s.rb Message.rbMsg (s.process p).queue m).map (fun (startDrainer,queue) =>
    s.set p { s.process p with
      queue := queue
      work := if startDrainer then (s.process p).work + 1 else (s.process p).work })

def drain (s : State) (p : Nat) : State :=
  let (queueCopy,queue) := (s.process p).queue.drain
  s.set p { s.process p with queue := queue, writing := if queueCopy = [] then none else some queueCopy }

def write (s : State) (p : Nat) (m : Message) (rest : List Message) (answers : List BpAnswer) :
    Option State :=
  (writeEx p s.rb (fun _ => s.info.rmpReaderInfo) m.written.rbMsg answers).bind (fun out =>
    match out.result with
    | .returned =>
      let n := (out.rb.freePos - s.rb.freePos).toNat
      some ({ s with
        rb := out.rb
        log := s.log ++ [m.written]
        process := fun q => { s.process q with lag := (s.process q).lag + n } }.set p
          { s.process p with lag := (s.process p).lag + n, writing := some rest })
    | .threw => some ({ s with rb := out.rb }.set p { s.process p with writing := none })
    | _ => none)

def perform (s : State) (p : Nat) (rest : List (SerialTask ChannelReader)) : SerialTask ChannelReader → State
  | .addChannelReader c =>
    let q := s.process p
    let (info,reader) := q.reader.addChannelReader s.rb p s.info c
    { s with info := info }.set p { q with
      reader := { reader with serial := rest }
      read := if q.reader.channelReaders = [] then s.log.length else q.read
      lag := if q.reader.channelReaders = [] then 0 else q.lag
      joined := q.joined ++ [(c,s.log.length)] }
  | .removeChannelReader id =>
    let q := s.process p
    let (info,reader) := q.reader.removeChannelReader p s.info id
    { s with info := info }.set p { q with
      reader := { reader with serial := rest }
      left := if q.reader.channelReaders.any (fun c => c.id == id)
        then Function.update q.left id (some s.log.length) else q.left }
  | .run => s.set p { s.process p with reader := { (s.process p).reader.run with serial := rest } }

def readRmp (s : State) (p : Nat) (channelReaders : List ChannelReader)
    (rest : List (List ChannelReader)) (passes : Nat) : Option State :=
  let q := s.process p
  (q.reader.readRmp s.rb p s.info channelReaders passes).bind (fun (info,reader,confirmed) =>
    (Tp.Reader.dispatchAll channelReaders q.read confirmed).map (fun calls =>
      { s with info := info }.set p { q with
        reader := { reader with rmp := rest }
        read := q.read + confirmed.length
        lag := q.lag - (reader.readerPos - q.reader.readerPos).toNat
        invoked := q.invoked ++ calls }))

end State

inductive Action
  | createMessage (p : Nat) (channelName : Chars) (msg : List UInt8) (postToDescendants : Bool)
  | post (p k : Nat)
  | postBytes (p : Nat) (rbMsg : TopicMsgBinary)
  | startWriter (p : Nat)
  | drain (p : Nat)
  | write (p : Nat) (answers : List BpAnswer)
  | createChannelReader (p : Nat) (name : Chars) (handleDescendents : Bool)
  | closeChannelReader (p id : Nat)
  | run (p : Nat)
  | serialTask (p : Nat)
  | rmpTask (p passes : Nat)

def next (s : State) : Action → Option State
  | .createMessage p channelName msg postToDescendants =>
    s.createMessage p channelName msg postToDescendants
  | .post p k => (s.process p).messages[k]?.bind (s.post p)
  | .postBytes p rbMsg => s.post p ⟨rbMsg,none⟩
  | .startWriter p =>
    if 0 < (s.process p).work ∧ (s.process p).writing = none then
      some (s.set p { s.process p with work := (s.process p).work - 1, writing := some [] })
    else none
  | .drain p => if (s.process p).writing = some [] then some (s.drain p) else none
  | .write p answers =>
    match (s.process p).writing with
    | some (m :: rest) => s.write p m rest answers
    | _ => none
  | .createChannelReader p name handleDescendents =>
    if p < s.info.rmpReaderInfo.configMaxReaders.toNat then
      let q := s.process p
      let c : ChannelReader := ⟨s.clock,name,handleDescendents,s.info.readerGen⟩
      some ({ s with clock := s.clock + 1 }.set p
        { q with reader := { q.reader with serial := q.reader.serial ++ [SerialTask.addChannelReader c] } })
    else none
  | .closeChannelReader p id =>
    let q := s.process p
    some (s.set p { q with reader := { q.reader with serial := q.reader.serial ++ [SerialTask.removeChannelReader id] } })
  | .run p =>
    let q := s.process p
    some (s.set p { q with reader := { q.reader with serial := q.reader.serial ++ [SerialTask.run] } })
  | .serialTask p =>
    match (s.process p).reader.serial with
    | [] => none
    | task :: rest => some (s.perform p rest task)
  | .rmpTask p passes =>
    match (s.process p).reader.rmp with
    | [] => none
    | channelReaders :: rest => s.readRmp p channelReaders rest passes

def idle : Process :=
  ⟨[],.create,0,none,Tp.Reader.create,0,0,[],fun _ => none,[]⟩

def start (rb : ByteRingBuffer) (info : ReaderInfo) : State := ⟨rb,info,fun _ => idle,0,[]⟩

def sys (size : RingSize) : System State Action :=
  .ofNext (fun s => ∃ rb info, rb.configBufSizeBytes = size.position ∧
    (∀ p, (info.rmpReaderInfo.info p).isActive = false) ∧ s = start rb info) next

def start64 : State := start (ByteRingBuffer.create ring64.position (fun _ => 0)) ⟨0,true,ReaderInfo.create 1⟩

theorem start64_init : (sys ring64).init start64 := by
  exact ⟨_,_,rfl,fun _ => rfl,rfl⟩

structure Undisturbed (q q' : Process) : Prop where
  readerPos : q'.reader.readerPos = q.reader.readerPos
  channelReaders : q'.reader.channelReaders = q.reader.channelReaders
  read : q'.read = q.read
  lag : q'.lag = q.lag
  joined : q'.joined = q.joined
  left : q'.left = q.left
  invoked : q'.invoked = q.invoked

structure Quiet (s t : State) : Prop where
  info : t.info = s.info
  log : t.log = s.log
  process : ∀ p, Undisturbed (s.process p) (t.process p)

structure KeepsTasks (s t : State) : Prop where
  clock : s.clock ≤ t.clock
  reader : ∀ p, (t.process p).reader = (s.process p).reader

def State.wrote (s : State) (p : Nat) (m : Message) (rest : List Message) (rb : ByteRingBuffer) : State :=
  let n := (rb.freePos - s.rb.freePos).toNat
  { s with
    rb := rb
    log := s.log ++ [m.written]
    process := fun q => { s.process q with lag := (s.process q).lag + n } }.set p
      { s.process p with lag := (s.process p).lag + n, writing := some rest }

def State.enqueueSerial (s : State) (p : Nat) (task : SerialTask ChannelReader) : State :=
  s.set p { s.process p with reader := { (s.process p).reader with
    serial := (s.process p).reader.serial ++ [task] } }

inductive Effect (s : State) : Action → State → Prop
  | quiet {a : Action} {t : State} (same : Quiet s t) (rb : t.rb = s.rb) (kept : KeepsTasks s t) :
      Effect s a t
  | gaveUp {p : Nat} {m : Message} {rest : List Message} {answers : List BpAnswer}
      {out : WriteExOutcome} {t : State} (writing : (s.process p).writing = some (m :: rest))
      (called : writeEx p s.rb (fun _ => s.info.rmpReaderInfo) m.written.rbMsg answers = some out)
      (threw : out.result = .threw) (same : Quiet s t) (rb : t.rb = out.rb) (kept : KeepsTasks s t) :
      Effect s (.write p answers) t
  | wrote {p : Nat} {m : Message} {rest : List Message} {answers : List BpAnswer} {out : WriteExOutcome}
      (writing : (s.process p).writing = some (m :: rest))
      (called : writeEx p s.rb (fun _ => s.info.rmpReaderInfo) m.written.rbMsg answers = some out)
      (returned : out.result = .returned) : Effect s (.write p answers) (s.wrote p m rest out.rb)
  | created {p : Nat} {c : ChannelReader} {a : Action} (new : c.id = s.clock) :
      Effect s a ({ s with clock := s.clock + 1 }.enqueueSerial p (.addChannelReader c))
  | queued {p : Nat} {task : SerialTask ChannelReader} {a : Action} (old : ∀ c, task ≠ .addChannelReader c) :
      Effect s a (s.enqueueSerial p task)
  | added {p : Nat} {c : ChannelReader} {rest : List (SerialTask ChannelReader)}
      (serial : (s.process p).reader.serial = .addChannelReader c :: rest) :
      Effect s (.serialTask p) (s.perform p rest (.addChannelReader c))
  | removed {p id : Nat} {rest : List (SerialTask ChannelReader)}
      (serial : (s.process p).reader.serial = .removeChannelReader id :: rest) :
      Effect s (.serialTask p) (s.perform p rest (.removeChannelReader id))
  | ran {p : Nat} {rest : List (SerialTask ChannelReader)} (serial : (s.process p).reader.serial = .run :: rest) :
      Effect s (.serialTask p) (s.perform p rest .run)
  | read {p passes : Nat} {t : State} {channelReaders : List ChannelReader}
      {rest : List (List ChannelReader)} (rmp : (s.process p).reader.rmp = channelReaders :: rest)
      (done : s.readRmp p channelReaders rest passes = some t) : Effect s (.rmpTask p passes) t

section
variable {size : RingSize} {s t : State} {p q : Nat} {x : Process}

theorem State.process_set : (s.set p x).process q = if q = p then x else s.process q := by
  simp only [State.set,Function.update_apply]

theorem Undisturbed.rfl (x : Process) : Undisturbed x x := by
  exact ⟨Eq.refl _,Eq.refl _,Eq.refl _,Eq.refl _,Eq.refl _,Eq.refl _,Eq.refl _⟩

theorem State.forall_set {P : Nat → Process → Prop} (changed : P p x)
    (others : ∀ q, q ≠ p → P q (s.process q)) (q : Nat) : P q ((s.set p x).process q) := by
  rw [State.process_set]
  split
  next same => exact same ▸ changed
  next away => exact others q away

theorem Quiet.set {clock : Nat} {rb : ByteRingBuffer} (same : Undisturbed (s.process p) x) :
    Quiet s ({ s with clock := clock, rb := rb }.set p x) := by
  refine ⟨Eq.refl _,Eq.refl _,?_⟩
  exact State.forall_set (P := fun q => Undisturbed (s.process q)) same (fun _ _ => .rfl _)

theorem KeepsTasks.set {clock : Nat} {rb : ByteRingBuffer} (later : s.clock ≤ clock)
    (same : x.reader = (s.process p).reader) :
    KeepsTasks s ({ s with clock := clock, rb := rb }.set p x) := by
  refine ⟨later,?_⟩
  exact State.forall_set (P := fun q y => y.reader = (s.process q).reader) same (fun _ _ => rfl)

theorem quiet_enqueueSerial (clock : Nat) {task : SerialTask ChannelReader} :
    Quiet s ({ s with clock := clock }.enqueueSerial p task) := by
  exact .set ⟨rfl,rfl,rfl,rfl,rfl,rfl,rfl⟩

theorem reader_enqueueSerial (s : State) (p : Nat) (task : SerialTask ChannelReader) (q : Nat) :
    ((s.enqueueSerial p task).process q).reader.channelReaders = (s.process q).reader.channelReaders ∧
      ((s.enqueueSerial p task).process q).reader.rmp = (s.process q).reader.rmp := by
  rw [State.enqueueSerial,State.process_set]
  split
  next same => exact same ▸ ⟨rfl,rfl⟩
  next => exact ⟨rfl,rfl⟩

theorem quiet_run {rest : List (SerialTask ChannelReader)} : Quiet s (s.perform p rest .run) := by
  refine .set ⟨?_,?_,rfl,rfl,rfl,rfl,rfl⟩
  · simp only [Tp.Reader.run]
    split <;> rfl
  · simp only [Tp.Reader.run]
    split <;> rfl

theorem effect_post {a : Action} {m : Message} (done : s.post p m = some t) : Effect s a t := by
  obtain ⟨_,_,rfl⟩ := Option.map_eq_some_iff.mp done
  exact .quiet (.set ⟨rfl,rfl,rfl,rfl,rfl,rfl,rfl⟩) rfl (.set le_rfl rfl)

theorem effect_write {m : Message} {rest : List Message} {answers : List BpAnswer}
    (writing : (s.process p).writing = some (m :: rest)) (done : s.write p m rest answers = some t) :
    Effect s (.write p answers) t := by
  obtain ⟨out,called,ended⟩ := Option.bind_eq_some_iff.mp done
  split at ended
  next returned =>
    obtain rfl := Option.some.inj ended
    exact .wrote writing called returned
  next threw =>
    obtain rfl := Option.some.inj ended
    exact .gaveUp writing called threw (.set ⟨rfl,rfl,rfl,rfl,rfl,rfl,rfl⟩) rfl (.set le_rfl rfl)
  next => contradiction

theorem effect {a : Action} (stepped : next s a = some t) : Effect s a t := by
  cases a with
  | createMessage p channelName msg postToDescendants =>
    simp only [next,State.createMessage] at stepped
    split at stepped
    next =>
      obtain rfl := Option.some.inj stepped
      exact .quiet (.set ⟨rfl,rfl,rfl,rfl,rfl,rfl,rfl⟩) rfl (.set (Nat.le_succ _) rfl)
    next => contradiction
  | post p k =>
    obtain ⟨m,_,posted⟩ := Option.bind_eq_some_iff.mp stepped
    exact effect_post posted
  | postBytes p rbMsg => exact effect_post stepped
  | startWriter p =>
    obtain ⟨_,same⟩ := Option.ite_none_right_eq_some.mp stepped
    obtain rfl := Option.some.inj same
    exact .quiet (.set ⟨rfl,rfl,rfl,rfl,rfl,rfl,rfl⟩) rfl (.set le_rfl rfl)
  | drain p =>
    obtain ⟨_,same⟩ := Option.ite_none_right_eq_some.mp stepped
    obtain rfl := Option.some.inj same
    exact .quiet (.set ⟨rfl,rfl,rfl,rfl,rfl,rfl,rfl⟩) rfl (.set le_rfl rfl)
  | write p answers =>
    simp only [next] at stepped
    split at stepped
    next m rest writing => exact effect_write writing stepped
    next => contradiction
  | createChannelReader p name handleDescendents =>
    obtain ⟨_,same⟩ := Option.ite_none_right_eq_some.mp stepped
    obtain rfl := Option.some.inj same
    exact .created rfl
  | closeChannelReader p id =>
    obtain rfl := Option.some.inj stepped
    exact .queued (fun c => nofun)
  | run p =>
    obtain rfl := Option.some.inj stepped
    exact .queued (fun c => nofun)
  | serialTask p =>
    simp only [next] at stepped
    split at stepped
    next => contradiction
    next task rest serial =>
      obtain rfl := Option.some.inj stepped
      cases task with
      | addChannelReader c => exact .added serial
      | removeChannelReader id => exact .removed serial
      | run => exact .ran serial
  | rmpTask p passes =>
    simp only [next] at stepped
    split at stepped
    next => contradiction
    next channelReaders rest rmp => exact .read rmp stepped

end

end Toroni.Tp.Pipeline
