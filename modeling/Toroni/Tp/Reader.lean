import Toroni.Rmp.Reader
import Toroni.Rmp.ReaderInfo
import Toroni.Tp.Handlers

/-! The reader of a process: its channel readers, the tasks on its two queues, and how what the
stream reader confirms is dispatched to the handlers. -/
namespace Toroni.Tp
open Rmp TopicMsgBinaryDeserializer

structure ReaderInfo where
  readerGen : ReaderGen
  initialized : Bool
  rmpReaderInfo : Rmp.ReaderInfo

/-- `id` stands for the object and its handler. -/
structure ChannelReader where
  id : Nat
  name : Chars
  handleDescendents : Bool
  readerGen : ReaderGen
  deriving DecidableEq

inductive ChannelReaderEventType
  | firstChannelReaderCreated
  | lastChannelReaderClosed
  | allChannelReadersExpired
  deriving DecidableEq

/-- `serial` and `rmp` are the tasks waiting in the two queues; those of the second are calls of
`ReadRmp` with the list that was captured. -/
structure Reader where
  readerPos : Position
  channelReaders : List ChannelReader
  serial : List (SerialTask ChannelReader)
  rmp : List (List ChannelReader)
  events : List ChannelReaderEventType

namespace Reader

def create : Reader := ⟨0,[],[],[],[]⟩

def addChannelReader (rb : ByteRingBuffer) (slot : Nat) (info : ReaderInfo) (r : Reader)
    (c : ChannelReader) : ReaderInfo × Reader :=
  let channelReaders := r.channelReaders ++ [c]
  if channelReaders.length = 1 then
    ({ info with rmpReaderInfo := info.rmpReaderInfo.activate (some slot) rb.freePos },
      { r with channelReaders := channelReaders
               readerPos := rb.freePos
               events := r.events ++ [.firstChannelReaderCreated] })
  else (info,{ r with channelReaders := channelReaders })

def removeChannelReader (slot : Nat) (info : ReaderInfo) (r : Reader) (id : Nat) :
    ReaderInfo × Reader :=
  let channelReaders := r.channelReaders.eraseP (fun c => c.id == id)
  if r.channelReaders ≠ [] ∧ channelReaders = [] then
    ({ info with rmpReaderInfo := info.rmpReaderInfo.deactivate (some slot) },
      { r with channelReaders := channelReaders
               events := r.events ++ [.lastChannelReaderClosed] })
  else (info,{ r with channelReaders := channelReaders })

def run (r : Reader) : Reader :=
  if r.channelReaders = [] then r else { r with rmp := r.rmp ++ [r.channelReaders] }

def filter (c : ChannelReader) (data : List UInt8) : Filtered :=
  deserializeAndFilter data c.readerGen c.name c.handleDescendents

def dispatchAll (channelReaders : List ChannelReader) (index : Nat) :
    List (List UInt8) → Option (List (Invocation ChannelReader))
  | [] => some []
  | data :: messages =>
    (dispatch (filter · data) index channelReaders).bind (fun calls =>
      (dispatchAll channelReaders (index + 1) messages).map (fun rest => calls ++ rest))

/-- `ReadRmp` up to the calls of the handlers: the table, the reader, and the messages that are
confirmed. `none` where an assertion fails or the passes do not suffice. -/
def readRmp (rb : ByteRingBuffer) (slot : Nat) (info : ReaderInfo) (r : Reader)
    (channelReaders : List ChannelReader) (passes : Nat) :
    Option (ReaderInfo × Reader × List (List UInt8)) :=
  let rmpInfo := info.rmpReaderInfo
  if channelReaders = [] then none
  else if (rmpInfo.info slot).isActive then
    (Rmp.Reader.readEx (fun _ => true) rb passes r.readerPos (rmpInfo.info slot).position).bind (fun out =>
      let rmpInfo := rmpInfo.setPosition slot out.bpos
      let r := { r with readerPos := out.pos }
      match out.result with
      | some .success => some ({ info with rmpReaderInfo := rmpInfo },r,out.confirmed)
      | some .expiredPosition =>
        some ({ info with rmpReaderInfo := { rmpInfo with expiredReaders := rmpInfo.expiredReaders + 1 } },
          { r with events := r.events ++ [.allChannelReadersExpired] },out.confirmed)
      | _ => none)
  else some (info,r,[])

end Reader

namespace Reader
variable {channelReaders : List ChannelReader} {index : Nat} {data : List UInt8}
  {messages : List (List UInt8)} {calls : List (Invocation ChannelReader)}

theorem readRmp_cases {rb : ByteRingBuffer} {slot passes : Nat} {info info' : ReaderInfo}
    {r r' : Reader} {confirmed : List (List UInt8)}
    (done : readRmp rb slot info r channelReaders passes = some (info',r',confirmed)) :
    ((info.rmpReaderInfo.info slot).isActive = false ∧ info' = info ∧ r' = r ∧ confirmed = []) ∨
    ((info.rmpReaderInfo.info slot).isActive = true ∧ ∃ out,
      Rmp.Reader.readEx (fun _ => true) rb passes r.readerPos (info.rmpReaderInfo.info slot).position =
        some out ∧
      (out.result = some .success ∧ r' = { r with readerPos := out.pos } ∨
        out.result = some .expiredPosition ∧
          r' = { r with readerPos := out.pos, events := r.events ++ [.allChannelReadersExpired] }) ∧
      confirmed = out.confirmed ∧
      ∀ i, (info'.rmpReaderInfo.info i).isActive = (info.rmpReaderInfo.info i).isActive) := by
  unfold readRmp at done
  obtain ⟨_,done⟩ := Option.ite_none_left_eq_some.mp done
  split at done
  next active =>
    refine Or.inr ⟨active,?_⟩
    obtain ⟨out,read,ended⟩ := Option.bind_eq_some_iff.mp done
    refine ⟨out,read,?_⟩
    dsimp only at ended
    split at ended
    next success =>
      cases Option.some.inj ended
      exact ⟨Or.inl ⟨success,rfl⟩,rfl,fun i => ReaderInfo.isActive_setPosition _ _ _ _⟩
    next expired =>
      cases Option.some.inj ended
      exact ⟨Or.inr ⟨expired,rfl⟩,rfl,fun i => ReaderInfo.isActive_setPosition _ _ _ _⟩
    next => contradiction
  next idle =>
    cases Option.some.inj done
    exact Or.inl ⟨Bool.eq_false_iff.mpr idle,rfl,rfl,rfl⟩

theorem mem_dispatchAll (done : dispatchAll channelReaders index messages = some calls)
    {call : Invocation ChannelReader} (member : call ∈ calls) :
    call.reader ∈ channelReaders ∧ ∃ k data, messages[k]? = some data ∧ call.index = index + k ∧
      filter call.reader data = .accepted call.data := by
  induction messages generalizing index calls with
  | nil =>
    cases Option.some.inj done
    contradiction
  | cons data messages ih =>
    obtain ⟨first,dispatched,rest⟩ := Option.bind_eq_some_iff.mp done
    obtain ⟨later,more,rfl⟩ := Option.map_eq_some_iff.mp rest
    rcases List.mem_append.mp member with now | after
    · obtain ⟨inside,same,accepted⟩ := mem_dispatch dispatched now
      exact ⟨inside,0,data,rfl,same,accepted⟩
    · obtain ⟨inside,k,data,found,same,accepted⟩ := ih more after
      exact ⟨inside,k + 1,data,found,by omega,accepted⟩

theorem filter_dispatchAll (done : dispatchAll channelReaders index messages = some calls)
    (distinct : (channelReaders.map ChannelReader.id).Nodup) {c : ChannelReader}
    (member : c ∈ channelReaders) {k : Nat} {data payload : List UInt8}
    (found : messages[k]? = some data) (accepted : filter c data = .accepted payload) :
    calls.filter (fun call => call.reader.id == c.id && call.index == index + k) =
      [⟨c,index + k,payload⟩] := by
  induction messages generalizing index calls k with
  | nil => contradiction
  | cons first messages ih =>
    obtain ⟨now,dispatched,rest⟩ := Option.bind_eq_some_iff.mp done
    obtain ⟨later,more,rfl⟩ := Option.map_eq_some_iff.mp rest
    rw [List.filter_append]
    cases k with
    | zero =>
      obtain rfl := Option.some.inj found
      have once := filter_dispatch dispatched distinct member accepted
      have same : now.filter (fun call => call.reader.id == c.id && call.index == index + 0) =
          now.filter (fun call => call.reader.id == c.id) :=
        List.filter_congr (fun call inside => by simp [(mem_dispatch dispatched inside).2.1])
      have none : later.filter (fun call => call.reader.id == c.id && call.index == index + 0) = [] := by
        refine List.filter_eq_nil_iff.mpr (fun call inside => ?_)
        obtain ⟨_,k,_,_,place,_⟩ := mem_dispatchAll more inside
        have away : call.index ≠ index := by omega
        simp [away]
      rw [same,once,none]
      rfl
    | succ k =>
      have none : now.filter (fun call => call.reader.id == c.id && call.index == index + (k + 1)) = [] := by
        refine List.filter_eq_nil_iff.mpr (fun call inside => ?_)
        have place := (mem_dispatch dispatched inside).2.1
        have away : call.index ≠ index + (k + 1) := by omega
        simp [away]
      have rest := ih more found
      rw [Nat.add_assoc,Nat.add_comm 1 k] at rest
      rw [none,List.nil_append]
      exact rest

/-- A channel reader in the list is called with what the filter lets through of the messages. -/
theorem handed_dispatchAll (done : dispatchAll channelReaders index messages = some calls)
    (distinct : (channelReaders.map ChannelReader.id).Nodup) {c : ChannelReader} (member : c ∈ channelReaders) :
    handed ChannelReader.id c.id calls = messages.filterMap (fun data => (filter c data).payload) := by
  induction messages generalizing index calls with
  | nil =>
    obtain rfl := Option.some.inj done
    rfl
  | cons data messages ih =>
    obtain ⟨first,dispatched,rest⟩ := Option.bind_eq_some_iff.mp done
    obtain ⟨later,more,rfl⟩ := Option.map_eq_some_iff.mp rest
    rw [handed_append,handed_dispatch dispatched distinct member,ih more]
    cases accepted : (filter c data).payload with
    | none => simp [accepted]
    | some data => simp [accepted]

end Reader
end Toroni.Tp
