import Toroni.Tp.Drainer
import Toroni.Tp.Reader

/-! Any number of asynchronous writers and of readers that run when they are notified. Messages,
work items, tasks and notifications wait as long as they like, and a write reaches the ring store
by store. -/
namespace Toroni.Tp.WakeUps
open Rmp Transition Traits Writer

inductive WriteExPc
  | attempt
  | asking
  | storing (ops : List Store)

structure WriteExCall (writers : Nat) where
  writer : Fin writers
  rbMsg : TopicMsgBinary
  asked : Nat
  pc : WriteExPc

structure Process where
  reader : Tp.Reader
  notifications : Nat

structure State (writers readers : Nat) where
  rb : ByteRingBuffer
  info : ReaderInfo
  writer : Fin writers → Drainer.State
  call : Option (WriteExCall writers)
  process : Fin readers → Process
  clock : Nat

inductive Action (writers readers : Nat)
  | enqueue (w : Fin writers) (rbMsg : TopicMsgBinary)
  | enqueueWork (w : Fin writers)
  | startWriter (w : Fin writers)
  | drain (w : Fin writers) (i : Nat)
  | lock (w : Fin writers) (i : Nat)
  | attempt (seen : Rmp.ReaderInfo)
  | answer (continueRunning : Bool)
  | store
  | unlock (i : Nat)
  | notify (w : Fin writers) (i : Nat)
  | receive (p : Fin readers)
  | createChannelReader (p : Fin readers) (name : Chars) (handleDescendents : Bool)
  | closeChannelReader (p : Fin readers) (id : Nat)
  | serialTask (p : Fin readers)
  | rmpTask (p : Fin readers) (passes : Nat)

namespace State
variable {writers readers : Nat}

def isActive (s : State writers readers) (p : Fin readers) : Bool :=
  (s.info.rmpReaderInfo.info p).isActive

def setWriter (s : State writers readers) (w : Fin writers) (writer : Drainer.State) :
    State writers readers :=
  { s with writer := Function.update s.writer w writer }

def setReader (s : State writers readers) (p : Fin readers) (reader : Tp.Reader) :
    State writers readers :=
  { s with process := Function.update s.process p { s.process p with reader := reader } }

def notifyAllReaders (s : State writers readers) : State writers readers :=
  { s with
    rb := { s.rb with notificationCount := s.rb.notificationCount + 1 }
    process := fun p => { s.process p with notifications := (s.process p).notifications + 1 } }

def stepWriter (s : State writers readers) (w : Fin writers) (a : Drainer.Action) :
    Option (State writers readers) :=
  (Drainer.next s.rb (s.writer w) a).map (s.setWriter w)

def lock (s : State writers readers) (w : Fin writers) (i : Nat) : Option (State writers readers) :=
  match s.call, (s.writer w).running[i]? with
  | none, some (.write (rbMsg :: _)) =>
    (s.rb.writerMtx.lock w).map (fun mtx =>
      { s with
        rb := s.rb.setWriterMtx mtx
        call := some ⟨w,rbMsg.take (rbMsg.length % 2^32),0,.attempt⟩ })
  | _, _ => none

/-- `Write` with readers. The scan sees each slot as it was at some moment, so the table that it
has `seen` is left open. -/
def attempt (s : State writers readers) (seen : Rmp.ReaderInfo) : Option (State writers readers) :=
  match s.call with
  | some ⟨w,rbMsg,asked,.attempt⟩ =>
    match write s.rb seen rbMsg true none with
    | .written _ => some { s with call := some ⟨w,rbMsg,asked,.storing (stores s.rb rbMsg)⟩ }
    | .backpressure _ =>
      some { s with rb := s.rb.countBackPressure
                    call := some ⟨w,rbMsg,asked + 1,.asking⟩ }.notifyAllReaders
    | .assertionFailed => none
  | _ => none

def answer (s : State writers readers) (continueRunning : Bool) : Option (State writers readers) :=
  match s.call with
  | some ⟨w,rbMsg,asked,.asking⟩ =>
    some { s with call := some ⟨w,rbMsg,asked,
      if continueRunning then .attempt else .storing (stores s.rb rbMsg)⟩ }
  | _ => none

def store (s : State writers readers) : Option (State writers readers) :=
  match s.call with
  | some ⟨w,rbMsg,asked,.storing (op :: ops)⟩ =>
    some { s with rb := op.apply s.rb, call := some ⟨w,rbMsg,asked,.storing ops⟩ }
  | _ => none

def unlock (s : State writers readers) (i : Nat) : Option (State writers readers) :=
  match s.call with
  | some ⟨w,_,asked,.storing []⟩ =>
    { s with rb := s.rb.setWriterMtx s.rb.writerMtx.unlock, call := none }.stepWriter w (.write i asked)
  | _ => none

def perform (s : State writers readers) (p : Fin readers) (rest : List (SerialTask ChannelReader)) :
    SerialTask ChannelReader → State writers readers
  | .addChannelReader c =>
    let (info,reader) := (s.process p).reader.addChannelReader s.rb p s.info c
    { s with info := info }.setReader p { reader with serial := rest }
  | .removeChannelReader id =>
    let (info,reader) := (s.process p).reader.removeChannelReader p s.info id
    { s with info := info }.setReader p { reader with serial := rest }
  | .run => s.setReader p { (s.process p).reader.run with serial := rest }

def enqueueSerial (s : State writers readers) (p : Fin readers) (task : SerialTask ChannelReader) :
    State writers readers :=
  s.setReader p { (s.process p).reader with serial := (s.process p).reader.serial ++ [task] }

end State

section
variable {writers readers : Nat}

def next (s : State writers readers) : Action writers readers → Option (State writers readers)
  | .enqueue w rbMsg => s.stepWriter w (.enqueue rbMsg)
  | .enqueueWork w => s.stepWriter w .enqueueWork
  | .startWriter w => s.stepWriter w .startWriter
  | .drain w i => s.stepWriter w (.drain i)
  | .lock w i => s.lock w i
  | .attempt seen => s.attempt seen
  | .answer continueRunning => s.answer continueRunning
  | .store => s.store
  | .unlock i => s.unlock i
  | .notify w i => (s.stepWriter w (.notify i)).map State.notifyAllReaders
  | .receive p =>
    let q := s.process p
    if 0 < q.notifications then
      some ({ s with process := Function.update s.process p { q with notifications := q.notifications - 1 } }.enqueueSerial
        p .run)
    else none
  | .createChannelReader p name handleDescendents =>
    some ({ s with clock := s.clock + 1 }.enqueueSerial p
      (.addChannelReader ⟨s.clock,name,handleDescendents,s.info.readerGen⟩))
  | .closeChannelReader p id => some (s.enqueueSerial p (.removeChannelReader id))
  | .serialTask p =>
    match (s.process p).reader.serial with
    | [] => none
    | task :: rest => some (s.perform p rest task)
  | .rmpTask p passes =>
    match (s.process p).reader.rmp with
    | [] => none
    | channelReaders :: rest =>
      ((s.process p).reader.readRmp s.rb p s.info channelReaders passes).map (fun (info,reader,_) =>
        { s with info := info }.setReader p { reader with rmp := rest })

def start (rb : ByteRingBuffer) (info : ReaderInfo) : State writers readers :=
  ⟨rb,info,fun _ => .create,none,fun _ => ⟨.create,0⟩,0⟩

def sys (writers readers : Nat) : System (State writers readers) (Action writers readers) :=
  .ofNext (fun s => ∃ rb info, readers ≤ info.rmpReaderInfo.configMaxReaders.toNat ∧
    (∀ p, (info.rmpReaderInfo.info p).isActive = false) ∧ s = start rb info) next

def Quiescent (s : State writers readers) : Prop :=
  (∀ w, (s.writer w).queue.queue = [] ∧ (s.writer w).posting = 0 ∧ (s.writer w).work = 0 ∧
    (s.writer w).running = []) ∧
  ∀ p, (s.process p).reader.serial = [] ∧ (s.process p).reader.rmp = [] ∧ (s.process p).notifications = 0

def Woken (s : State writers readers) (p : Fin readers) : Prop :=
  0 < (s.process p).notifications ∨ (∃ task ∈ (s.process p).reader.serial, task = .run) ∨
    (s.process p).reader.rmp ≠ [] ∨ ∃ w, (s.writer w).running ≠ []

structure Inv (s : State writers readers) : Prop where
  call : ∀ call, s.call = some call → ∃ queueCopy, .write queueCopy ∈ (s.writer call.writer).running
  listed : ∀ p, s.isActive p = true → (s.process p).reader.channelReaders ≠ []
  covered : ∀ p, s.isActive p = true → .allChannelReadersExpired ∉ (s.process p).reader.events →
    (s.process p).reader.readerPos = s.rb.freePos ∨ Woken s p

end

section
variable {writers readers : Nat} {s t : State writers readers} {rb : ByteRingBuffer}
  {x y : Drainer.State} {a : Drainer.Action}

theorem running_ne_nil (stepped : Drainer.next rb x a = some y) (calm : a.throws = false)
    (staying : ∀ i, a ≠ .notify i) (nonempty : x.running ≠ []) : y.running ≠ [] := by
  have set (i : Nat) (v : Drainer.ProcWriter) : x.running.set i v ≠ [] := by
    rwa [Ne,List.set_eq_nil_iff]
  cases a with
  | enqueue rbMsg =>
    obtain ⟨_,_,rfl⟩ := Option.map_eq_some_iff.mp stepped
    exact nonempty
  | enqueueWork =>
    obtain ⟨_,same⟩ := Option.ite_none_right_eq_some.mp stepped
    obtain rfl := Option.some.inj same
    exact nonempty
  | startWriter =>
    obtain ⟨_,same⟩ := Option.ite_none_right_eq_some.mp stepped
    obtain rfl := Option.some.inj same
    exact List.append_ne_nil_of_left_ne_nil nonempty _
  | drain i =>
    obtain ⟨_,rfl⟩ := Drainer.drain_eq stepped
    exact set i _
  | write i asked =>
    obtain ⟨_,_,_,rfl⟩ := Drainer.write_eq stepped
    exact set i _
  | notify i => exact absurd rfl (staying i)
  | _ => contradiction

theorem mem_running (stepped : Drainer.next rb x a = some y) (calm : a.throws = false)
    (staying : ∀ i asked, a ≠ .write i asked) {queueCopy : List TopicMsgBinary}
    (member : .write queueCopy ∈ x.running) : .write queueCopy ∈ y.running := by
  have others {i : Nat} {v : Drainer.ProcWriter} (found : x.running[i]? = some v)
      (differs : v ≠ .write queueCopy) :
      (∀ w, .write queueCopy ∈ x.running.set i w) ∧ .write queueCopy ∈ x.running.eraseIdx i := by
    obtain ⟨before,after,split,set,erase⟩ := Drainer.split_at found
    rw [split,List.mem_append,List.mem_cons] at member
    have left : .write queueCopy ∈ before ∨ .write queueCopy ∈ after :=
      member.imp_right (fun rest => rest.resolve_left differs.symm)
    refine ⟨fun w => ?_,erase ▸ List.mem_append.mpr left⟩
    rw [set,List.mem_append]
    exact left.imp_right (List.mem_cons_of_mem _)
  cases a with
  | enqueue rbMsg =>
    obtain ⟨_,_,rfl⟩ := Option.map_eq_some_iff.mp stepped
    exact member
  | enqueueWork =>
    obtain ⟨_,same⟩ := Option.ite_none_right_eq_some.mp stepped
    obtain rfl := Option.some.inj same
    exact member
  | startWriter =>
    obtain ⟨_,same⟩ := Option.ite_none_right_eq_some.mp stepped
    obtain rfl := Option.some.inj same
    exact List.mem_append_left _ member
  | drain i =>
    obtain ⟨found,rfl⟩ := Drainer.drain_eq stepped
    exact (others found nofun).1 _
  | notify i =>
    obtain ⟨found,rfl⟩ := Drainer.notify_eq stepped
    exact (others found nofun).2
  | write i asked => exact absurd rfl (staying i asked)
  | _ => contradiction

/-- A step after which a reader that was woken still is, and which moves neither the stream nor
a reader. -/
theorem Inv.kept (inv : Inv s) (free : t.rb.freePos = s.rb.freePos) (info : t.info = s.info)
    (reader : ∀ p, (t.process p).reader = (s.process p).reader)
    (woken : ∀ p, Woken s p → Woken t p)
    (call : ∀ call, t.call = some call →
      ∃ queueCopy, .write queueCopy ∈ (t.writer call.writer).running) : Inv t := by
  have active (p : Fin readers) : t.isActive p = s.isActive p := by
    rw [State.isActive,State.isActive,info]
  refine ⟨call,fun p isActive => ?_,fun p isActive never => ?_⟩
  · rw [reader]
    exact inv.listed p (active p ▸ isActive)
  · rw [reader] at never ⊢
    rw [free]
    exact (inv.covered p (active p ▸ isActive) never).imp_right (woken p)

theorem Inv.reads {p : Fin readers} {info : ReaderInfo} {process : Process} {clock : Nat}
    (inv : Inv s)
    (others : ∀ q, q ≠ p → (info.rmpReaderInfo.info q).isActive = s.isActive q)
    (listed : (info.rmpReaderInfo.info p).isActive = true → process.reader.channelReaders ≠ [])
    (covered : (info.rmpReaderInfo.info p).isActive = true →
      .allChannelReadersExpired ∉ process.reader.events →
      process.reader.readerPos = s.rb.freePos ∨
        Woken { s with info := info, clock := clock, process := Function.update s.process p process } p) :
    Inv { s with info := info, clock := clock, process := Function.update s.process p process } := by
  refine ⟨inv.call,fun q isActive => ?_,fun q isActive never => ?_⟩
  · by_cases same : q = p
    · subst same
      simpa only [Function.update_self] using listed isActive
    · simp only [Function.update_of_ne same]
      exact inv.listed q ((others q same).symm.trans isActive)
  · by_cases same : q = p
    · subst same
      simp only [Function.update_self] at never ⊢
      exact covered isActive never
    · simp only [Function.update_of_ne same] at never ⊢
      refine (inv.covered q ((others q same).symm.trans isActive) never).imp_right ?_
      simp only [Woken,Function.update_of_ne same]
      exact id

/-- Whoever may be waiting for the `ProcWriter` that notifies is notified. -/
theorem woken_notifyAllReaders (p : Fin readers) : Woken s.notifyAllReaders p := by
  exact Or.inl (Nat.succ_pos _)

theorem woken_setWriter {w : Fin writers} {p : Fin readers}
    (nonempty : (s.writer w).running ≠ [] → y.running ≠ []) (woken : Woken s p) :
    Woken (s.setWriter w y) p := by
  refine woken.imp_right (.imp_right (.imp_right (fun ⟨v,running⟩ => ⟨v,?_⟩)))
  by_cases same : v = w
  · subst same
    simpa [State.setWriter] using nonempty running
  · simpa [State.setWriter,same] using running

theorem Inv.stepWriter {w : Fin writers} (inv : Inv s) (stepped : s.stepWriter w a = some t)
    (calm : a.throws = false) (working : ∀ i, a ≠ .notify i) (beside : ∀ i asked, a ≠ .write i asked) :
    Inv t := by
  obtain ⟨y,moved,rfl⟩ := Option.map_eq_some_iff.mp stepped
  refine inv.kept rfl rfl (fun _ => rfl)
    (fun p => woken_setWriter (running_ne_nil moved calm working)) (fun call running => ?_)
  obtain ⟨queueCopy,member⟩ := inv.call call running
  refine ⟨queueCopy,?_⟩
  by_cases same : call.writer = w
  · subst same
    simpa [State.setWriter] using mem_running moved calm beside member
  · simpa [State.setWriter,same] using member

theorem Inv.notify {w : Fin writers} {i : Nat} (inv : Inv s)
    (stepped : s.stepWriter w (.notify i) = some t) : Inv t.notifyAllReaders := by
  obtain ⟨y,moved,rfl⟩ := Option.map_eq_some_iff.mp stepped
  refine inv.kept rfl rfl (fun _ => rfl) (fun p _ => woken_notifyAllReaders p) (fun call running => ?_)
  obtain ⟨queueCopy,member⟩ := inv.call call running
  refine ⟨queueCopy,?_⟩
  by_cases same : call.writer = w
  · subst same
    simpa [State.notifyAllReaders,State.setWriter] using mem_running moved rfl (fun _ _ => nofun) member
  · simpa [State.notifyAllReaders,State.setWriter,same] using member

theorem Inv.lock {w : Fin writers} {i : Nat} (inv : Inv s) (stepped : s.lock w i = some t) : Inv t := by
  unfold State.lock at stepped
  split at stepped
  next found =>
    obtain ⟨mtx,_,rfl⟩ := Option.map_eq_some_iff.mp stepped
    refine inv.kept rfl rfl (fun _ => rfl) (fun _ => id) (fun call begun => ?_)
    obtain rfl := Option.some.inj begun
    exact ⟨_,List.mem_of_getElem? found⟩
  next => contradiction

theorem Inv.attempt {seen : Rmp.ReaderInfo} (inv : Inv s) (stepped : s.attempt seen = some t) : Inv t := by
  unfold State.attempt at stepped
  split at stepped
  next running =>
    have writing := inv.call _ running
    split at stepped
    next =>
      obtain rfl := Option.some.inj stepped
      refine inv.kept rfl rfl (fun _ => rfl) (fun _ => id) (fun call same => ?_)
      obtain rfl := Option.some.inj same
      exact writing
    next =>
      obtain rfl := Option.some.inj stepped
      refine inv.kept rfl rfl (fun _ => rfl) (fun p _ => woken_notifyAllReaders p) (fun call same => ?_)
      obtain rfl := Option.some.inj same
      exact writing
    next => contradiction
  next => contradiction

theorem Inv.answer {continueRunning : Bool} (inv : Inv s)
    (stepped : s.answer continueRunning = some t) : Inv t := by
  unfold State.answer at stepped
  split at stepped
  next running =>
    have writing := inv.call _ running
    obtain rfl := Option.some.inj stepped
    refine inv.kept rfl rfl (fun _ => rfl) (fun _ => id) (fun call same => ?_)
    obtain rfl := Option.some.inj same
    exact writing
  next => contradiction

theorem Inv.store (inv : Inv s) (stepped : s.store = some t) : Inv t := by
  unfold State.store at stepped
  split at stepped
  next w _ _ _ _ running =>
    obtain rfl := Option.some.inj stepped
    obtain ⟨queueCopy,member⟩ := inv.call _ running
    refine ⟨fun call same => ?_,inv.listed,fun p _ _ => ?_⟩
    · obtain rfl := Option.some.inj same
      exact ⟨queueCopy,member⟩
    · exact Or.inr (Or.inr (Or.inr (Or.inr ⟨w,List.ne_nil_of_mem member⟩)))
  next => contradiction

theorem Inv.unlock {i : Nat} (inv : Inv s) (stepped : s.unlock i = some t) : Inv t := by
  unfold State.unlock at stepped
  split at stepped
  next =>
    obtain ⟨y,moved,rfl⟩ := Option.map_eq_some_iff.mp stepped
    exact inv.kept rfl rfl (fun _ => rfl)
      (fun p => woken_setWriter (running_ne_nil moved rfl (fun _ => nofun))) nofun
  next => contradiction

/-- A task more, which is the one for it if a notification was received. -/
theorem Inv.enqueueSerial {p : Fin readers} {notifications : Nat} (clock : Nat) (task : SerialTask ChannelReader)
    (inv : Inv s)
    (received : notifications < (s.process p).notifications → task = .run) :
    Inv ({ s with
      clock := clock
      process := Function.update s.process p ⟨(s.process p).reader,notifications⟩ }.enqueueSerial p task) := by
  simp only [State.enqueueSerial,State.setReader,Function.update_self,Function.update_idem]
  refine inv.reads (fun _ _ => rfl) (inv.listed p) (fun isActive never => ?_)
  refine (inv.covered p isActive never).imp_right (fun woken => ?_)
  simp only [Woken,Function.update_self]
  rcases woken with notified | ⟨earlier,member,run⟩ | rest
  · by_cases taken : notifications < (s.process p).notifications
    · exact Or.inr (Or.inl ⟨task,List.mem_append_right _ (List.mem_singleton_self _),received taken⟩)
    · exact Or.inl (by omega)
  · exact Or.inr (Or.inl ⟨earlier,List.mem_append_left _ member,run⟩)
  · exact Or.inr (Or.inr rest)

theorem woken_tail {p : Fin readers} {info : ReaderInfo} {clock : Nat} {reader : Tp.Reader}
    {task : SerialTask ChannelReader} {rest : List (SerialTask ChannelReader)} (serial : (s.process p).reader.serial = task :: rest)
    (other : task ≠ .run) (same : reader.serial = rest) (rmp : reader.rmp = (s.process p).reader.rmp)
    (woken : Woken s p) :
    Woken { s with
      info := info
      clock := clock
      process := Function.update s.process p { s.process p with reader := reader } } p := by
  simp only [Woken,Function.update_self,same,rmp]
  refine woken.imp_right (.imp_left (fun ⟨earlier,member,run⟩ => ⟨earlier,?_,run⟩))
  rw [serial] at member
  exact (List.mem_cons.mp member).resolve_left (fun equal => other (equal ▸ run))

theorem Inv.addChannelReader {p : Fin readers} {c : ChannelReader} {rest : List (SerialTask ChannelReader)} (inv : Inv s)
    (serial : (s.process p).reader.serial = .addChannelReader c :: rest) :
    Inv (s.perform p rest (.addChannelReader c)) := by
  unfold State.perform State.setReader Tp.Reader.addChannelReader
  dsimp only
  split
  next =>
    refine inv.reads (fun q away => ?_) (fun _ => ?_) (fun _ _ => Or.inl rfl)
    · have apart : q.val ≠ p.val := fun equal => away (Fin.ext equal)
      simp only [ReaderInfo.isActive_activate,if_neg apart,State.isActive]
    · simp
  next =>
    refine inv.reads (fun _ _ => rfl) (fun _ => ?_) (fun isActive never => ?_)
    · simp
    · exact (inv.covered p isActive never).imp_right (woken_tail serial nofun rfl rfl)

theorem Inv.removeChannelReader {p : Fin readers} {id : Nat} {rest : List (SerialTask ChannelReader)} (inv : Inv s)
    (serial : (s.process p).reader.serial = .removeChannelReader id :: rest) :
    Inv (s.perform p rest (.removeChannelReader id)) := by
  unfold State.perform State.setReader Tp.Reader.removeChannelReader
  dsimp only
  split
  next =>
    have closed : ((s.info.rmpReaderInfo.deactivate (some p.val)).info p.val).isActive ≠ true := by
      simp [ReaderInfo.isActive_deactivate]
    refine inv.reads (fun q away => ?_) (fun isActive => absurd isActive closed)
      (fun isActive => absurd isActive closed)
    have apart : q.val ≠ p.val := fun equal => away (Fin.ext equal)
    simp only [ReaderInfo.isActive_deactivate,if_neg apart,State.isActive]
  next more =>
    refine inv.reads (fun _ _ => rfl) (fun isActive none => ?_) (fun isActive never => ?_)
    · exact more ⟨inv.listed p isActive,none⟩
    · exact (inv.covered p isActive never).imp_right (woken_tail serial nofun rfl rfl)

theorem Inv.run {p : Fin readers} {rest : List (SerialTask ChannelReader)} (inv : Inv s) :
    Inv (s.perform p rest .run) := by
  unfold State.perform State.setReader Tp.Reader.run
  dsimp only
  split
  next empty =>
    exact inv.reads (fun _ _ => rfl) (inv.listed p) (fun isActive => absurd empty (inv.listed p isActive))
  next =>
    refine inv.reads (fun _ _ => rfl) (inv.listed p) (fun _ _ => Or.inr ?_)
    simp [Woken]

/-- Behind `ReadRmp` the reader is not active, has reported that it is expired, or has read
everything. -/
theorem Inv.readRmp {p : Fin readers} {passes : Nat} {channelReaders : List ChannelReader}
    {rest : List (List ChannelReader)} {info : ReaderInfo} {reader : Tp.Reader}
    {confirmed : List (List UInt8)} (inv : Inv s)
    (done : (s.process p).reader.readRmp s.rb p s.info channelReaders passes = some (info,reader,confirmed)) :
    Inv ({ s with info := info }.setReader p { reader with rmp := rest }) := by
  rcases Tp.Reader.readRmp_cases done with ⟨idle,rfl,rfl,_⟩ | ⟨_,out,read,ended,_,same⟩
  · exact inv.reads (fun _ _ => rfl) (inv.listed p) (fun isActive => absurd isActive (by simp [idle]))
  · have listed : reader.channelReaders = (s.process p).reader.channelReaders := by
      rcases ended with ⟨_,rfl⟩ | ⟨_,rfl⟩ <;> rfl
    refine inv.reads (fun q _ => same q) (fun isActive => ?_) (fun _ never => Or.inl ?_)
    · rw [listed]
      exact inv.listed p ((same p).symm.trans isActive)
    · rcases ended with ⟨success,rfl⟩ | ⟨_,rfl⟩
      · exact Rmp.Reader.readEx_success read success
      · exact absurd (List.mem_append_right _ (List.mem_singleton_self _)) never

theorem Inv.step {a : Action writers readers} (inv : Inv s) (stepped : next s a = some t) : Inv t := by
  cases a with
  | enqueue w rbMsg => exact inv.stepWriter stepped rfl (fun _ => nofun) (fun _ _ => nofun)
  | enqueueWork w => exact inv.stepWriter stepped rfl (fun _ => nofun) (fun _ _ => nofun)
  | startWriter w => exact inv.stepWriter stepped rfl (fun _ => nofun) (fun _ _ => nofun)
  | drain w i => exact inv.stepWriter stepped rfl (fun _ => nofun) (fun _ _ => nofun)
  | lock w i => exact inv.lock stepped
  | attempt seen => exact inv.attempt stepped
  | answer continueRunning => exact inv.answer stepped
  | store => exact inv.store stepped
  | unlock i => exact inv.unlock stepped
  | notify w i =>
    obtain ⟨u,notified,rfl⟩ := Option.map_eq_some_iff.mp stepped
    exact inv.notify notified
  | receive p =>
    obtain ⟨_,same⟩ := Option.ite_none_right_eq_some.mp stepped
    obtain rfl := Option.some.inj same
    exact inv.enqueueSerial s.clock .run (fun _ => rfl)
  | createChannelReader p name handleDescendents =>
    obtain rfl := Option.some.inj stepped
    have created := inv.enqueueSerial (p := p) (s.clock + 1)
      (.addChannelReader ⟨s.clock,name,handleDescendents,s.info.readerGen⟩) (fun fewer => absurd fewer (lt_irrefl _))
    simpa [State.enqueueSerial,State.setReader] using created
  | closeChannelReader p id =>
    obtain rfl := Option.some.inj stepped
    have closed := inv.enqueueSerial (p := p) s.clock (.removeChannelReader id) (fun fewer => absurd fewer (lt_irrefl _))
    simpa [State.enqueueSerial,State.setReader] using closed
  | serialTask p =>
    simp only [next] at stepped
    split at stepped
    next => contradiction
    next task rest serial =>
      obtain rfl := Option.some.inj stepped
      cases task with
      | addChannelReader c => exact inv.addChannelReader serial
      | removeChannelReader id => exact inv.removeChannelReader serial
      | run => exact inv.run
  | rmpTask p passes =>
    simp only [next] at stepped
    split at stepped
    next => contradiction
    next channelReaders rest rmp =>
      obtain ⟨⟨info,reader,confirmed⟩,done,rfl⟩ := Option.map_eq_some_iff.mp stepped
      exact inv.readRmp done

theorem reachable_inv (reached : Reachable (sys writers readers) s) : Inv s := by
  refine reached.invariant Inv ?_ ?_
  · rintro s ⟨rb,info,_,idle,rfl⟩
    have closed (p : Fin readers) : State.isActive (start rb info : State writers readers) p ≠ true := by
      simp [State.isActive,start,idle]
    exact ⟨nofun,fun p isActive => absurd isActive (closed p),fun p isActive => absurd isActive (closed p)⟩
  · exact fun s a t inv stepped => inv.step stepped

/-- When nothing is queued or on the way, every reader that is active and has not reported
that it is expired stands at the end of the stream. -/
theorem none_stranded {p : Fin readers} (reached : Reachable (sys writers readers) s)
    (quiescent : Quiescent s) (isActive : s.isActive p = true)
    (never : .allChannelReadersExpired ∉ (s.process p).reader.events) :
    (s.process p).reader.readerPos = s.rb.freePos := by
  refine ((reachable_inv reached).covered p isActive never).resolve_right ?_
  obtain ⟨serial,rmp,notifications⟩ := quiescent.2 p
  rintro (notified | ⟨task,member,_⟩ | reading | ⟨w,running⟩)
  · omega
  · rw [serial] at member
    contradiction
  · exact reading rmp
  · exact running (quiescent.1 w).2.2.2

end

def quiescent {writers readers : Nat} (s : State writers readers) : Bool :=
  (List.finRange writers).all (fun w => (s.writer w).queue.queue.isEmpty && (s.writer w).posting == 0 &&
    (s.writer w).work == 0 && (s.writer w).running.isEmpty) &&
  (List.finRange readers).all (fun p => (s.process p).reader.serial.isEmpty &&
    (s.process p).reader.rmp.isEmpty && (s.process p).notifications == 0)

theorem quiescent_iff {writers readers : Nat} (s : State writers readers) :
    quiescent s = true ↔ Quiescent s := by
  simp [quiescent,Quiescent,and_assoc]

/-- A reader is created while a message is on the way, and runs when it is notified. -/
theorem none_stranded_one_message : ∃ s : State 1 1, s.rb.freePos = 6 ∧
    (s.process 0).reader.readerPos = s.rb.freePos := by
  obtain ⟨s,reached,saw⟩ := exec_reaches (sys 1 1) (fun _ _ => true) next (fun _ _ _ step => step)
    (s := start Drainer.ring ⟨0,true,.create 1⟩) ⟨_,_,by decide,fun _ => rfl,rfl⟩
    [.enqueue 0 [7],.createChannelReader 0 [97] false,.enqueueWork 0,.startWriter 0,.drain 0 0,.serialTask 0,
      .lock 0 0,.attempt (.create 1),.store,.store,.store,.store,.unlock 0,.drain 0 0,.notify 0 0,.receive 0,
      .serialTask 0,.rmpTask 0 2]
    (fun s => (s.rb.freePos,quiescent s,s.isActive 0,(s.process 0).reader.events))
    (6,true,true,[.firstChannelReaderCreated]) rfl
  simp only [Prod.mk.injEq] at saw
  obtain ⟨free,calm,isActive,events⟩ := saw
  exact ⟨s,free,none_stranded reached.unrestrict ((quiescent_iff s).mp calm) isActive (by simp [events])⟩

end Toroni.Tp.WakeUps
