import Toroni.Java.LifeCycle
import Toroni.Java.Mixed

/-! Java readers of topics among writers of both implementations. The list of channel readers is not
copied for the tasks of the second queue, each of which takes it as it is then. -/
namespace Toroni.Java

/-- One array for all messages of a call. -/
structure CopyConfirmHandler where
  data : List UInt8
  length : Nat

namespace CopyConfirmHandler

def create : CopyConfirmHandler := ⟨List.replicate 4096 0,0⟩

def copy (handler : CopyConfirmHandler) (message : List UInt8) : CopyConfirmHandler :=
  let data :=
    if message.length > handler.data.length then List.replicate message.length 0 else handler.data
  ⟨message ++ data.drop message.length,message.length⟩

end CopyConfirmHandler

namespace Subscribers
open Rmp (ByteRingBuffer Position Event)
open Rmp.Writer (BpAnswer WriteExOutcome)
open Rmp.Reader (Outcome)
open Tp (ChannelReaderEventType Chars Invocation NoZero SerialTask dispatch handed)
open Tp.TopicMsgBinaryDeserializer (Filtered)
open Transition Traits

def filter (handler : CopyConfirmHandler) (c : ChannelReader) : Filtered :=
  TopicMsgDeserializer.deserializeAndFilter handler.data handler.length c.readerGen c.name c.handleDescendants

def dispatchAll (channelReaders : List ChannelReader) (index : Nat) (handler : CopyConfirmHandler) :
    List (List UInt8) → Option (List (Invocation ChannelReader))
  | [] => some []
  | message :: messages =>
    let handler := handler.copy message
    (dispatch (filter handler) index channelReaders).bind (fun calls =>
      (dispatchAll channelReaders (index + 1) handler messages).map (fun rest => calls ++ rest))

/-- A history variable: one stay of a channel reader in the list. It was added when `since` messages
had been written, with the position behind `first`, and removed with the position behind `last`. -/
structure Member where
  reader : ChannelReader
  since : Nat
  first : Nat
  last : Option Nat
  deriving DecidableEq

/-- `serial` are the tasks of the first queue, `rmp` the number of those of the second. The others are
history variables: `failed` is the number of tasks that an assertion has ended, `read` the number of
messages in front of the position. -/
structure Client where
  reader : Reader
  serial : List (SerialTask ChannelReader)
  rmp : Nat
  failed : Nat
  read : Nat
  members : List Member
  invoked : List (Invocation ChannelReader)

/-- `since` is a history variable, the bytes written since the activation of a slot; so is `log`, all
messages in the order of writing. -/
structure State where
  rb : ByteRingBuffer
  ri : Rmp.ReaderInfo
  readerGen : Long
  since : Nat → Nat
  client : Nat → Client
  clock : Nat
  log : List (List UInt8)

namespace State

def shared (s : State) : Rmp.Protocol.State :=
  ⟨s.rb,s.ri,fun i => (s.client i).reader.readerPos,s.since⟩

def resume (s : State) (after : Rmp.Protocol.State) : State :=
  { s with
    rb := after.rb
    ri := after.ri
    since := after.since
    client := fun i => { s.client i with
      reader := { (s.client i).reader with readerPos := after.readerPos i } } }

def set (s : State) (i : Nat) (client : Client) : State :=
  { s with client := Function.update s.client i client }

def enqueueSerial (s : State) (i : Nat) (task : SerialTask ChannelReader) : State :=
  s.set i { s.client i with serial := (s.client i).serial ++ [task] }

def perform (s : State) (i : Nat) (rest : List (SerialTask ChannelReader)) : SerialTask ChannelReader → State
  | .addChannelReader c =>
    let q := s.client i
    let added := q.reader.addChannelReader s.rb i s.ri c
    let opens := q.reader.channelReaders = []
    let read := if opens then s.log.length else q.read
    let member : Member := ⟨c,s.log.length,read,none⟩
    { s with
      ri := added.1
      since := if opens then Function.update s.since i 0 else s.since }.set i { q with
        reader := added.2
        serial := rest
        read := read
        members := q.members ++ [member] }
  | .removeChannelReader id =>
    let q := s.client i
    let removed := q.reader.removeChannelReader i s.ri id
    { s with ri := removed.1 }.set i { q with
      reader := removed.2
      serial := rest
      members := q.members.map (fun (m : Member) =>
        if m.reader.id = id ∧ m.last = none then { m with last := some q.read } else m) }
  | .run =>
    let q := s.client i
    s.set i { q with
      serial := rest
      rmp := if q.reader.channelReaders = [] then q.rmp else q.rmp + 1 }

def finishRmp (s : State) (i : Nat) (out : Outcome) (calls : List (Invocation ChannelReader)) : State :=
  let q := s.client i
  let events : List ChannelReaderEventType := if out.result = some .expiredPosition then
    q.reader.events ++ [.allChannelReadersExpired] else q.reader.events
  { s with ri := (s.shared.finishRead i out).ri }.set i { q with
    reader := { q.reader with
      readerPos := out.pos
      events := events }
    rmp := q.rmp - 1
    read := q.read + out.confirmed.length
    invoked := q.invoked ++ calls }

/-- The task takes the list as it is by now, and an assertion ends it if that is empty. The next task
is another step: the queue goes on if it catches an `AssertionError`. -/
def readRmp (s : State) (i passes : Nat) : Option State :=
  let q := s.client i
  if q.reader.channelReaders = [] then some (s.set i { q with
    rmp := q.rmp - 1
    failed := q.failed + 1 })
  else if (s.ri.info i).isActive then
    (Mixed.readEx .java s.rb passes q.reader.readerPos (s.ri.info i).position).bind (fun out =>
      if out.result = some .success ∨ out.result = some .expiredPosition then
        (dispatchAll q.reader.channelReaders q.read .create out.confirmed).map (s.finishRmp i out)
      else none)
  else some (s.set i { q with rmp := q.rmp - 1 })

end State

/-- `activate`, `deactivate` and `readEx` are calls of other readers, on slots that no Java reader has. -/
inductive Action
  | writeEx (language : Language) (self : Owner) (postToDescendants : Bool) (channelName : Chars)
      (msg : List UInt8) (answers : List BpAnswer)
  | activate (i : Nat)
  | deactivate (i : Nat)
  | readEx (i passes : Nat)
  | createChannelReader (i : Nat) (name : List Char) (handleDescendants : Bool)
  | closeChannelReader (i id : Nat)
  | run (i : Nat)
  | serialTask (i : Nat)
  | rmpTask (i passes : Nat)

def next (size : Rmp.RingSize) (java : Nat → Bool) (s : State) : Action → Option State
  | .writeEx language self postToDescendants channelName msg answers =>
    let data := Tp.TopicMsgBinarySerializer.serialize s.readerGen postToDescendants channelName msg
    if channelName.all (fun c => c != 0) = true ∧ Rmp.Writer.Legal size.bytes data then
      (Mixed.writeEx language self s.rb s.ri data answers).bind (fun out =>
        match out.result with
        | .returned => some { s.resume (s.shared.put out.rb) with log := s.log ++ [data] }
        | .threw => some (s.resume (s.shared.put out.rb))
        | _ => none)
    else none
  | .activate i =>
    if java i = false ∧ i < s.ri.configMaxReaders.toNat then
      some (s.resume (Mixed.activated .cpp s.shared i))
    else none
  | .deactivate i =>
    if java i = false ∧ i < s.ri.configMaxReaders.toNat then
      some (s.resume (Mixed.deactivated .cpp s.shared i))
    else none
  | .readEx i passes =>
    if java i = false ∧ s.shared.isActive i = true then
      (Mixed.readEx .cpp s.rb passes (s.client i).reader.readerPos (s.ri.info i).position).map
        (fun out => s.resume (s.shared.finishRead i out))
    else none
  | .createChannelReader i name handleDescendants =>
    if java i = true then
      some ({ s with clock := s.clock + 1 }.enqueueSerial i
        (.addChannelReader ⟨s.clock,name,handleDescendants,s.readerGen⟩))
    else none
  | .closeChannelReader i id =>
    if java i = true then some (s.enqueueSerial i (.removeChannelReader id)) else none
  | .run i => if java i = true then some (s.enqueueSerial i .run) else none
  | .serialTask i =>
    match (s.client i).serial with
    | [] => none
    | task :: rest => if java i = true then some (s.perform i rest task) else none
  | .rmpTask i passes => if java i = true ∧ 0 < (s.client i).rmp then s.readRmp i passes else none

def idle : Client := ⟨.create,[],0,0,0,[],[]⟩

def sys (size : Rmp.RingSize) (java : Nat → Bool) : System State Action :=
  .ofNext (fun s => s.rb.configBufSizeBytes = size.position ∧ s.log = [] ∧ (∀ i, s.client i = idle) ∧
    ∃ maxReaders : BitVec 16, maxReaders.toNat ≤ 32767 ∧ s.ri = .create maxReaders ∧
      ∀ i, java i = true → i < maxReaders.toNat) (next size java)

def hears (c : ChannelReader) (data : List UInt8) : Option (List UInt8) := (c.filter data).payload

def heard (c : ChannelReader) (log : List (List UInt8)) : List (List UInt8) := log.filterMap (hears c)

def inbox (q : Client) (c : ChannelReader) : List (List UInt8) := handed ChannelReader.id c.id q.invoked

def Created (data : List UInt8) : Prop :=
  ∃ writerGen postToDescendants channelName msg, NoZero channelName ∧
    data = Tp.TopicMsgBinarySerializer.serialize writerGen postToDescendants channelName msg

section
variable {c : ChannelReader} {channelReaders : List ChannelReader} {data : List UInt8}
  {messages : List (List UInt8)}

/-- What lies behind a message in the array does not matter, and parsing it does not fail. -/
theorem parse_created (created : Created data) (stale : List UInt8) :
    TopicMsgDeserializer.deserializeAndFilter (data ++ stale) data.length c.readerGen c.name
        c.handleDescendants = c.filter data ∧
      (c.filter data = .rejected ∨ ∃ message, c.filter data = .accepted message) := by
  obtain ⟨writerGen,postToDescendants,channelName,msg,noZero,rfl⟩ := created
  let data := Tp.TopicMsgBinarySerializer.serialize writerGen postToDescendants channelName msg
  have parsed (stale : List UInt8) : TopicMsgDeserializer.deserializeAndFilter (data ++ stale) data.length
      c.readerGen c.name c.handleDescendants = _ := parse_serialized noZero writerGen postToDescendants msg stale
  have filtered := parsed []
  rw [List.append_nil,← ChannelReader.filter] at filtered
  refine ⟨(parsed stale).trans filtered.symm,?_⟩
  · rw [filtered]
    split
    · exact Or.inl rfl
    split
    · exact Or.inr ⟨msg,rfl⟩
    · exact Or.inl rfl

theorem dispatch_created (index : Nat) (created : Created data) (handler : CopyConfirmHandler)
    (distinct : (channelReaders.map ChannelReader.id).Nodup) :
    ∃ calls, dispatch (filter (handler.copy data)) index channelReaders = some calls ∧
      (∀ call ∈ calls, call.reader ∈ channelReaders) ∧
      ∀ c ∈ channelReaders, handed ChannelReader.id c.id calls = (hears c data).toList := by
  have parsed (c : ChannelReader) : filter (handler.copy data) c = c.filter data :=
    (parse_created created _).1
  obtain ⟨calls,dispatched⟩ : ∃ calls, dispatch (filter (handler.copy data)) index channelReaders = some calls := by
    apply Tp.dispatch_some
    intro c _
    rw [parsed]
    exact (parse_created created []).2
  refine ⟨calls,dispatched,fun call member => (Tp.mem_dispatch dispatched member).1,fun c member => ?_⟩
  rw [Tp.handed_dispatch dispatched distinct member,parsed,hears]

/-- The calls of one task are those for the messages as they are, whatever the array has been used for. -/
theorem dispatchAll_created (index : Nat) (created : ∀ data ∈ messages, Created data) (handler : CopyConfirmHandler)
    (distinct : (channelReaders.map ChannelReader.id).Nodup) :
    ∃ calls, dispatchAll channelReaders index handler messages = some calls ∧
      (∀ call ∈ calls, call.reader ∈ channelReaders) ∧
      ∀ c ∈ channelReaders, handed ChannelReader.id c.id calls = heard c messages := by
  induction messages generalizing index handler with
  | nil => exact ⟨[],rfl,by simp,fun _ _ => rfl⟩
  | cons data messages ih =>
    obtain ⟨first,dispatched,inside,now⟩ :=
      dispatch_created index (created data List.mem_cons_self) handler distinct
    obtain ⟨later,rest,within,after⟩ :=
      ih (index + 1) (fun data member => created data (List.mem_cons_of_mem _ member)) (handler.copy data)
    refine ⟨first ++ later,?_,?_,?_⟩
    · rw [dispatchAll]
      simp only [dispatched,rest,Option.bind_some,Option.map_some]
    · intro call member
      exact (List.mem_append.mp member).elim (inside call) (within call)
    · intro c member
      rw [Tp.handed_append,now c member,after c member,heard]
      cases accepted : hears c data with
      | none => simp [heard,accepted]
      | some message => simp [heard,accepted]

end

end Subscribers
end Toroni.Java
