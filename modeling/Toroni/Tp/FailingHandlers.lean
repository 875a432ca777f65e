import Toroni.Java.Interchange
import Toroni.Java.TopicMsg
import Toroni.Tp.Reader

/-! Runs of `ReadRmp` with handlers that throw, in both implementations. The exception leaves
`ReadEx` and is swallowed by the queue on which `ReadRmp` runs. -/
namespace Toroni.Tp.FailingHandlers
open Transition Traits Rmp Rmp.Writer TopicMsgBinaryDeserializer

variable {ρ : Type}

def dispatch (filter : ρ → List UInt8 → Filtered) (throws : ρ → Bool) (index : Nat) (data : List UInt8) :
    List ρ → Option (List (Invocation ρ) × Bool)
  | [] => some ([],false)
  | c :: channelReaders =>
    match filter c data with
    | .accepted payload =>
      if throws c then some ([⟨c,index,payload⟩],true)
      else (dispatch filter throws index data channelReaders).map (fun rest =>
        (⟨c,index,payload⟩ :: rest.1,rest.2))
    | .rejected => dispatch filter throws index data channelReaders
    | .outOfRange | .assertionFailed => none

inductive Ending
  | success
  | expired
  | threw
  deriving DecidableEq

structure Read (ρ : Type) where
  ending : Ending
  pos : Position
  bpos : Position
  index : Nat
  calls : List (Invocation ρ)

def iterate (language : Language) (rb : ByteRingBuffer) (pos bpos : Position) : Rmp.Reader.Pass :=
  match language with
  | .cpp => Rmp.Reader.iterate (fun _ => true) rb pos bpos
  | .java => Java.Reader.iterate (fun _ => true) rb pos bpos

/-- The loop of `ReadEx` with the handlers that `Confirm` calls. Behind an exception neither
position is stored any more. -/
def loop (language : Language) (filter : ρ → List UInt8 → Filtered) (channelReaders : List ρ)
    (throws : ρ → Nat → Bool) (rb : ByteRingBuffer) :
    Nat → Position → Position → Nat → List (Invocation ρ) → Option (Read ρ)
  | 0, _, _, _, _ => none
  | passes+1, pos, bpos, index, calls =>
    match iterate language rb pos bpos with
    | .finished => some ⟨.success,pos,pos,index,calls⟩
    | .expired => some ⟨.expired,pos,bpos,index,calls⟩
    | .assertionFailed => none
    | .continues pos' bpos' [] => loop language filter channelReaders throws rb passes pos' bpos' index calls
    | .continues pos' bpos' (data :: _) =>
      (dispatch filter (throws · index) index data channelReaders).bind (fun made =>
        if made.2 then some ⟨.threw,pos,bpos,index,calls ++ made.1⟩
        else loop language filter channelReaders throws rb passes pos' bpos' (index + 1) (calls ++ made.1))

def readEx (language : Language) (filter : ρ → List UInt8 → Filtered) (channelReaders : List ρ)
    (throws : ρ → Nat → Bool) (rb : ByteRingBuffer) (passes : Nat) (pos bpos : Position) (index : Nat)
    (calls : List (Invocation ρ)) : Option (Read ρ) :=
  let invalid :=
    match language with
    | .cpp => greaterThan pos rb.freePos
    | .java => Java.Util.greaterThan pos rb.freePos
  if invalid then none
  else loop language filter channelReaders throws rb passes pos bpos index calls

/-- A ring and one reader of it. Those from `base` on are history variables: the stream position at
the start and the records written since; the real value of `readerPos`, the number of messages
before it, and how many have been handed to the channel readers; and the calls of their handlers. -/
structure State (ρ : Type) where
  rb : ByteRingBuffer
  ri : Rmp.ReaderInfo
  readerPos : Position
  events : List ChannelReaderEventType
  base : Nat
  log : List Record
  at_ : Nat
  index : Nat
  handed : Nat
  calls : List (Invocation ρ)

inductive Action (ρ : Type)
  | writeEx (self : Owner) (data : List UInt8) (answers : List BpAnswer)
  | readRmp (throws : ρ → Nat → Bool) (passes : Nat)

/-- What a call of `ReadEx` leaves behind. `_readerPos` is moved pass by pass in C++, and by the
result of the whole call in Java. -/
def leave (language : Language) (slot : Nat) (s : State ρ) (read : Read ρ) : State ρ :=
  let ri := s.ri.setPosition slot read.bpos
  let moved := language = .cpp ∨ read.ending ≠ .threw
  { s with
    ri := if read.ending = .expired then { ri with expiredReaders := ri.expiredReaders + 1 } else ri
    readerPos := if moved then read.pos else s.readerPos
    events := if read.ending = .expired then s.events ++ [.allChannelReadersExpired] else s.events
    at_ := if moved then s.at_ + (read.pos - s.readerPos).toNat else s.at_
    index := if moved then read.index else s.index
    handed := max s.handed (if read.ending = .threw then read.index + 1 else read.index)
    calls := read.calls }

def next (size : RingSize) (slot : Nat) (language : Language) (filter : ρ → List UInt8 → Filtered)
    (channelReaders : List ρ) (s : State ρ) : Action ρ → Option (State ρ)
  | .writeEx self data answers =>
    if Legal size.bytes data then
      (Rmp.Writer.writeEx self s.rb (fun _ => s.ri) data answers).bind (fun out =>
        if out.result = .running then none
        else some { s with
          rb := out.rb
          log := s.log ++
            if out.result = .returned then appended size.bytes (s.base + Rmp.sizeOf s.log) data else [] })
    else none
  | .readRmp throws passes =>
    if channelReaders.isEmpty then none
    else if (s.ri.info slot).isActive then
      (readEx language filter channelReaders throws s.rb passes s.readerPos (s.ri.info slot).position
        s.index s.calls).map (leave language slot s)
    else some s

def sys (size : RingSize) (slot : Nat) (language : Language) (filter : ρ → List UInt8 → Filtered)
    (channelReaders : List ρ) : System (State ρ) (Action ρ) :=
  .ofNext (fun s => ∃ rb ri, rb.configBufSizeBytes = size.position ∧
    s = ⟨rb,ri,rb.freePos,[],rb.freePos.toNat,[],rb.freePos.toNat,0,0,[]⟩)
    (next size slot language filter channelReaders)

def resume (rb : ByteRingBuffer) (pos : Position) : Position :=
  let rest := rb.configBufSizeBytes - bufIndex (indexMask rb.configBufSizeBytes) pos
  if rest < BitVec.ofNat 64 MsgHeader.size then pos + rest else pos

def accepts (filter : ρ → List UInt8 → Filtered) (data : List UInt8) (c : ρ) : Bool :=
  match filter c data with
  | .accepted _ => true
  | _ => false

def lastThrows (filter : ρ → List UInt8 → Filtered) (throws : ρ → Bool) (data : List UInt8) :
    List ρ → Bool
  | [] => true
  | c :: channelReaders =>
    (!(accepts filter data c && throws c) || channelReaders.all (fun c => !accepts filter data c)) &&
      lastThrows filter throws data channelReaders

def onlyLastThrows (filter : ρ → List UInt8 → Filtered) (throws : ρ → Nat → Bool) (channelReaders : List ρ) :
    Nat → List (List UInt8) → Bool
  | _, [] => true
  | index, data :: messages => lastThrows filter (throws · index) data channelReaders &&
      onlyLastThrows filter throws channelReaders (index + 1) messages

/-- A run starts less than half of the position range behind the stream end. What it reads first is
expired, or it reads no message again and throws only from a last handler. -/
def allowed (filter : ρ → List UInt8 → Filtered) (channelReaders : List ρ) (s : State ρ) : Action ρ → Bool
  | .writeEx .. => true
  | .readRmp throws _ =>
    decide (s.base + Rmp.sizeOf s.log < s.at_ + 2^63) &&
      ((s.index == s.handed &&
        onlyLastThrows filter throws channelReaders s.index ((messages s.log).drop s.index)) ||
      expired (resume s.rb s.readerPos) s.rb.freePos s.rb.configBufSizeBytes)

/-- Every call is one for a message that was written and that the channel reader accepts; no handler
is called twice for a message; and a message handed to one is handed to all that accept it. -/
structure Delivered (filter : ρ → List UInt8 → Filtered) (channelReaders : List ρ) (s : State ρ) : Prop where
  genuine : ∀ call ∈ s.calls, call.reader ∈ channelReaders ∧
    ∃ data, (messages s.log)[call.index]? = some data ∧ filter call.reader data = .accepted call.data
  once : (s.calls.map (fun call => (call.reader,call.index))).Nodup
  others : ∀ call ∈ s.calls, ∀ c ∈ channelReaders, ∀ data payload,
    (messages s.log)[call.index]? = some data → filter c data = .accepted payload →
      ⟨c,call.index,payload⟩ ∈ s.calls

def handedTo (filter : ρ → List UInt8 → Filtered) (index : Nat) (data : List UInt8)
    (channelReaders : List ρ) : List (Invocation ρ) :=
  channelReaders.filterMap (fun c =>
    match filter c data with
    | .accepted payload => some ⟨c,index,payload⟩
    | _ => none)

def callsOf (filter : ρ → List UInt8 → Filtered) (channelReaders : List ρ) :
    Nat → List (List UInt8) → List (Invocation ρ)
  | _, [] => []
  | index, data :: messages => handedTo filter index data channelReaders ++
      callsOf filter channelReaders (index + 1) messages

section
variable {size : RingSize} {slot : Nat} {language : Language} {filter : ρ → List UInt8 → Filtered}
  {channelReaders : List ρ} {s t : State ρ} {action : Action ρ} {index : Nat} {data : List UInt8}

theorem callsOf_append (first rest : List (List UInt8)) :
    callsOf filter channelReaders index (first ++ rest) =
      callsOf filter channelReaders index first ++
        callsOf filter channelReaders (index + first.length) rest := by
  induction first generalizing index with
  | nil => rfl
  | cons data first ih =>
    rw [List.cons_append,callsOf,ih,callsOf,List.append_assoc,List.length_cons,
      Nat.add_right_comm index 1,Nat.add_assoc]

theorem mem_handedTo {call : Invocation ρ} : call ∈ handedTo filter index data channelReaders ↔
    call.index = index ∧ call.reader ∈ channelReaders ∧ filter call.reader data = .accepted call.data := by
  rw [handedTo,List.mem_filterMap]
  constructor
  · rintro ⟨c,member,found⟩
    split at found
    next payload accepted =>
      obtain rfl := Option.some.inj found
      exact ⟨rfl,member,accepted⟩
    next => contradiction
  · rintro ⟨rfl,member,accepted⟩
    exact ⟨call.reader,member,by rw [accepted]⟩

theorem mem_callsOf {messages : List (List UInt8)} {call : Invocation ρ} :
    call ∈ callsOf filter channelReaders index messages ↔
      index ≤ call.index ∧ call.reader ∈ channelReaders ∧
        ∃ data, messages[call.index - index]? = some data ∧ filter call.reader data = .accepted call.data := by
  induction messages generalizing index with
  | nil => simp [callsOf]
  | cons data messages ih =>
    rw [callsOf,List.mem_append,mem_handedTo,ih]
    constructor
    · rintro (⟨rfl,member,accepted⟩ | ⟨later,member,data',found,accepted⟩)
      · exact ⟨Nat.le_refl _,member,data,by simp,accepted⟩
      · refine ⟨by omega,member,data',?_,accepted⟩
        rwa [show call.index - index = call.index - (index + 1) + 1 by omega,List.getElem?_cons_succ]
    · rintro ⟨later,member,data',found,accepted⟩
      by_cases first : call.index = index
      · rw [first,Nat.sub_self,List.getElem?_cons_zero,Option.some.injEq] at found
        exact Or.inl ⟨first,member,found ▸ accepted⟩
      · rw [show call.index - index = call.index - (index + 1) + 1 by omega,List.getElem?_cons_succ] at found
        exact Or.inr ⟨by omega,member,data',found,accepted⟩

theorem nodup_handedTo (distinct : channelReaders.Nodup) :
    ((handedTo filter index data channelReaders).map (fun call => (call.reader,call.index))).Nodup := by
  induction channelReaders with
  | nil => exact List.nodup_nil
  | cons c channelReaders ih =>
    obtain ⟨new,distinct⟩ := List.nodup_cons.mp distinct
    have rest := ih distinct
    rw [handedTo,List.filterMap_cons]
    split
    next => exact rest
    next call found =>
      split at found
      next payload accepted =>
        obtain rfl := Option.some.inj found
        refine List.nodup_cons.mpr ⟨?_,rest⟩
        intro again
        obtain ⟨call,member,same⟩ := List.mem_map.mp again
        have reader : call.reader = c := congrArg Prod.fst same
        exact new (reader ▸ (mem_handedTo.mp member).2.1)
      next => contradiction

theorem nodup_callsOf (distinct : channelReaders.Nodup) (messages : List (List UInt8)) :
    ((callsOf filter channelReaders index messages).map (fun call => (call.reader,call.index))).Nodup := by
  induction messages generalizing index with
  | nil => exact List.nodup_nil
  | cons data messages ih =>
    rw [callsOf,List.map_append]
    refine List.nodup_append.mpr ⟨nodup_handedTo distinct,ih,?_⟩
    intro first member second member' same
    obtain ⟨call,here,rfl⟩ := List.mem_map.mp member
    obtain ⟨call',later,rfl⟩ := List.mem_map.mp member'
    have indices : call.index = call'.index := congrArg Prod.snd same
    have := (mem_handedTo.mp here).1
    have := (mem_callsOf.mp later).1
    omega

theorem delivered_of_calls (distinct : channelReaders.Nodup)
    (calls : s.calls = callsOf filter channelReaders 0 ((messages s.log).take s.handed)) :
    Delivered filter channelReaders s where
  genuine := by
    intro call member
    rw [calls,mem_callsOf] at member
    obtain ⟨_,reader,data,found,accepted⟩ := member
    rw [Nat.sub_zero,List.getElem?_take] at found
    exact ⟨reader,data,(Option.ite_none_right_eq_some.mp found).2,accepted⟩
  once := by
    rw [calls]
    exact nodup_callsOf distinct _
  others := by
    intro call member c reader data payload found accepted
    rw [calls,mem_callsOf] at member ⊢
    obtain ⟨_,_,data',found',_⟩ := member
    refine ⟨Nat.zero_le _,reader,data,?_,accepted⟩
    rw [Nat.sub_zero,List.getElem?_take] at found' ⊢
    rw [if_pos (Option.ite_none_right_eq_some.mp found').1]
    exact found

/-- Where no handler throws, the calls are those of a dispatch that does not look for exceptions. -/
theorem dispatch_quiet : dispatch filter (fun _ => false) index data channelReaders =
    (Tp.dispatch (filter · data) index channelReaders).map (fun calls => (calls,false)) := by
  induction channelReaders with
  | nil => rfl
  | cons c channelReaders ih =>
    rw [dispatch,Tp.dispatch]
    cases filter c data with
    | accepted payload =>
      simp only [Bool.false_eq_true,if_false,ih,Option.map_map]
      rfl
    | rejected => exact ih
    | outOfRange | assertionFailed => rfl

/-- Where only a last handler throws, every channel reader that accepts the message is called. -/
theorem dispatch_eq {throws : ρ → Bool} {made : List (Invocation ρ) × Bool}
    (fair : lastThrows filter throws data channelReaders = true)
    (dispatched : dispatch filter throws index data channelReaders = some made) :
    made.1 = handedTo filter index data channelReaders := by
  induction channelReaders generalizing made with
  | nil =>
    obtain rfl := Option.some.inj dispatched
    rfl
  | cons c channelReaders ih =>
    rw [lastThrows,Bool.and_eq_true] at fair
    obtain ⟨last,fair⟩ := fair
    rw [dispatch] at dispatched
    rw [handedTo,List.filterMap_cons]
    cases decision : filter c data with
    | accepted payload =>
      rw [decision] at dispatched
      dsimp only at dispatched ⊢
      split at dispatched
      next thrown =>
        obtain rfl := Option.some.inj dispatched
        have nobody : channelReaders.all (fun c => !accepts filter data c) = true := by
          simpa [accepts,decision,thrown] using last
        rw [List.filterMap_eq_nil_iff.mpr]
        intro c' member
        have refused := List.all_eq_true.mp nobody c' member
        simp only [accepts] at refused
        split
        next payload accepted => simp [accepted] at refused
        next => rfl
      next =>
        obtain ⟨rest,further,rfl⟩ := Option.map_eq_some_iff.mp dispatched
        exact congrArg _ (ih fair further)
    | rejected =>
      rw [decision] at dispatched
      exact ih fair dispatched
    | outOfRange | assertionFailed =>
      rw [decision] at dispatched
      contradiction

end

section
variable {size : RingSize} {language : Language} {rb : ByteRingBuffer} {g : Ledger} {pending : List UInt8}
  {before rest after : List Record} {r : Record} {p : Nat}

theorem seen_iterate (narrow : language = .java → size.bytes ≤ 2^31) (rep : Represents size rb g pending)
    (split : g.log = before ++ r :: after) (start : p = g.base + Rmp.sizeOf before)
    (near : g.free < p + size.bytes + 2^63) (fresh : g.top ≤ p + size.bytes ∨ p + size.bytes ≤ g.free)
    (bpos : Position) :
    Java.seen (iterate language rb (BitVec.ofNat 64 p) bpos) =
      Java.seen (Rmp.Reader.iterate (fun _ => true) rb (BitVec.ofNat 64 p) bpos) := by
  cases language with
  | cpp => rfl
  | java =>
    refine Java.iterate_eq (fun _ => true) bpos bpos rep.config (narrow rfl) (fun kept room => ?_)
    exact lt_of_lt_of_le (Java.header_short rep split start near fresh kept room) (narrow rfl)

/-- At a record boundary a pass ends with a record that stops it, and otherwise goes on behind the
record with its message. -/
theorem iterate_boundary (narrow : language = .java → size.bytes ≤ 2^31) (rep : Represents size rb g pending)
    (split : g.log = before ++ r :: after) (start : p = g.base + Rmp.sizeOf before)
    (near : g.free < p + size.bytes + 2^63) (fresh : g.top ≤ p + size.bytes ∨ p + size.bytes ≤ g.free)
    (bpos : Position) :
    (Rmp.Reader.Stops size.bytes g.free p r ∧ iterate language rb (BitVec.ofNat 64 p) bpos = .expired) ∨
      (¬ Rmp.Reader.Stops size.bytes g.free p r ∧ ∃ bpos', iterate language rb (BitVec.ofNat 64 p) bpos =
        .continues (BitVec.ofNat 64 (p + r.size)) bpos' r.message.toList) := by
  have same := seen_iterate narrow rep split start near fresh bpos
  obtain ⟨next,passed⟩ := Rmp.Reader.passOver_continues (fun _ => true) rb p bpos r
  rw [List.filter_true] at passed
  rw [Rmp.Reader.iterate_spec (fun _ => true) bpos rep split start near fresh] at same
  by_cases stop : Rmp.Reader.Stops size.bytes g.free p r
  · rw [if_pos stop] at same
    exact Or.inl ⟨stop,Java.of_seen_expired same⟩
  · rw [if_neg stop,passed] at same
    exact Or.inr ⟨stop,Java.of_seen_continues same⟩

theorem iterate_end (ended : BitVec.ofNat 64 p = rb.freePos) (bpos : Position) :
    iterate language rb (BitVec.ofNat 64 p) bpos = .finished := by
  cases language with
  | cpp => exact if_pos ended
  | java => exact if_pos ended

variable {filter : ρ → List UInt8 → Filtered} {channelReaders : List ρ} {throws : ρ → Nat → Bool}

structure Ran (filter : ρ → List UInt8 → Filtered) (channelReaders : List ρ) (p index : Nat)
    (calls : List (Invocation ρ)) (rest went left : List Record) (read : Read ρ) : Prop where
  split : rest = went ++ left
  pos : read.pos = BitVec.ofNat 64 (p + Rmp.sizeOf went)
  count : read.index = index + (messages went).length
  calls : read.calls = calls ++ callsOf filter channelReaders index ((messages rest).take
    ((messages went).length + if read.ending = .threw then 1 else 0))
  thrown : read.ending = .threw → ∃ data tail, left = .msg data :: tail

theorem loop_spec (narrow : language = .java → size.bytes ≤ 2^31) (rep : Represents size rb g pending)
    (split : g.log = before ++ rest) (start : p = g.base + Rmp.sizeOf before)
    (near : g.free < p + size.bytes + 2^63) (fresh : g.top ≤ p + size.bytes ∨ p + size.bytes ≤ g.free)
    {passes index : Nat} {bpos : Position} {calls : List (Invocation ρ)} {read : Read ρ}
    (fair : onlyLastThrows filter throws channelReaders index (messages rest) = true)
    (done : loop language filter channelReaders throws rb passes (BitVec.ofNat 64 p) bpos index calls = some read) :
    ∃ went left, Ran filter channelReaders p index calls rest went left read := by
  induction passes generalizing before rest p bpos index calls with
  | zero => simp [loop] at done
  | succ passes ih =>
    rw [loop] at done
    cases rest with
    | nil =>
      have ended : BitVec.ofNat 64 p = rb.freePos := by
        rw [start,rep.freePos,Ledger.free,split,List.append_nil]
      rw [iterate_end ended] at done
      obtain rfl := Option.some.inj done
      exact ⟨[],[],rfl,rfl,rfl,by simp [callsOf],by simp⟩
    | cons r rest =>
      rcases iterate_boundary narrow rep split start near fresh bpos with ⟨_,expired⟩ | ⟨goes,bpos',passed⟩
      · rw [expired] at done
        obtain rfl := Option.some.inj done
        exact ⟨[],r :: rest,rfl,rfl,rfl,by simp [callsOf],by simp⟩
      · rw [passed] at done
        obtain ⟨split,start,near,fresh⟩ := Rmp.Reader.next_boundary rep split start near fresh goes
        have further {index : Nat} {calls : List (Invocation ρ)}
            (fair : onlyLastThrows filter throws channelReaders index (messages rest) = true)
            (done : loop language filter channelReaders throws rb passes (BitVec.ofNat 64 (p + r.size)) bpos' index
              calls = some read) :
            ∃ went left, Ran filter channelReaders (p + r.size) index calls rest went left read :=
          ih split start near fresh fair done
        cases message : r.message with
        | none =>
          rw [message] at done
          have same : messages (r :: rest) = messages rest := by rw [messages_cons,message]; rfl
          rw [same] at fair
          obtain ⟨went,left,ran⟩ := further fair done
          have skipped : messages (r :: went) = messages went := by rw [messages_cons,message]; rfl
          refine ⟨r :: went,left,?_,?_,?_,?_,ran.thrown⟩
          · rw [ran.split,List.cons_append]
          · rw [ran.pos,sizeOf_cons,Nat.add_assoc]
          · rw [ran.count,skipped]
          · rw [ran.calls,same,skipped]
        | some data =>
          obtain rfl : r = .msg data := by
            cases r <;> cases message
            rfl
          have whole (records : List Record) : messages (.msg data :: records) = data :: messages records := rfl
          obtain ⟨made,dispatched,done⟩ := Option.bind_eq_some_iff.mp done
          rw [whole,onlyLastThrows,Bool.and_eq_true] at fair
          have all := dispatch_eq fair.1 dispatched
          split at done
          next thrown =>
            obtain rfl := Option.some.inj done
            refine ⟨[],.msg data :: rest,rfl,rfl,rfl,?_,fun _ => ⟨data,rest,rfl⟩⟩
            simp [whole,callsOf,all]
          next =>
            obtain ⟨went,left,ran⟩ := further fair.2 done
            refine ⟨.msg data :: went,left,?_,?_,?_,?_,ran.thrown⟩
            · rw [ran.split,List.cons_append]
            · rw [ran.pos,sizeOf_cons,Nat.add_assoc]
            · rw [ran.count,whole,List.length_cons]
              omega
            · rw [ran.calls,whole,whole,List.length_cons,Nat.add_right_comm,List.take_succ_cons,callsOf,all,
                List.append_assoc]

theorem resume_blank {n : Nat} (config : rb.configBufSizeBytes = size.position)
    (fits : (Record.blank n).Fits size.bytes p) : resume rb (BitVec.ofNat 64 p) = BitVec.ofNat 64 (p + n) := by
  have short := bufEnd_lt size p MsgHeader.size (by decide)
  have five : MsgHeader.size = 5 := rfl
  obtain ⟨ends,few⟩ := fits
  have tail : size.position - bufIndex (indexMask size.position) (BitVec.ofNat 64 p) = BitVec.ofNat 64 n := by
    apply BitVec.eq_of_toNat_eq
    rw [toNat_bufEnd,BitVec.toNat_ofNat]
    omega
  rw [resume,config,if_pos (short.mpr (by omega)),tail,SerialNumber.ofNat_add_ofNat]

theorem resume_room (config : rb.configBufSizeBytes = size.position)
    (room : p % size.bytes + MsgHeader.size ≤ size.bytes) : resume rb (BitVec.ofNat 64 p) = BitVec.ofNat 64 p := by
  have short := bufEnd_lt size p MsgHeader.size (by decide)
  rw [resume,config,if_neg (by rw [short]; omega)]

theorem stops_of_expired (rep : Represents size rb g pending) (split : g.log = before ++ r :: after)
    (start : p = g.base + Rmp.sizeOf before) (near : g.free < p + size.bytes + 2^63)
    (room : p % size.bytes + MsgHeader.size ≤ size.bytes)
    (gone : expired (BitVec.ofNat 64 p) rb.freePos rb.configBufSizeBytes = true) :
    Rmp.Reader.Stops size.bytes g.free p r := by
  have fits := (rep.laid before r after split).1
  rw [← start] at fits
  have positive := fits.size_pos (by have := size.bounds; omega)
  have behind : p < g.free := by
    rw [Ledger.free,split,sizeOf_append,sizeOf_cons]
    omega
  rw [rep.config,rep.freePos,expired_behind size behind (by omega)] at gone
  cases r with
  | msg data => exact Or.inl gone
  | padding n => exact Or.inl gone
  | blank n =>
    have := fits.1
    have := fits.2
    omega

theorem loop_stopped (narrow : language = .java → size.bytes ≤ 2^31) (rep : Represents size rb g pending)
    (split : g.log = before ++ r :: after) (start : p = g.base + Rmp.sizeOf before)
    (near : g.free < p + size.bytes + 2^63) (fresh : g.top ≤ p + size.bytes ∨ p + size.bytes ≤ g.free)
    (stops : Rmp.Reader.Stops size.bytes g.free p r)
    {passes index : Nat} {bpos : Position} {calls : List (Invocation ρ)} {read : Read ρ}
    (done : loop language filter channelReaders throws rb passes (BitVec.ofNat 64 p) bpos index calls = some read) :
    read = ⟨.expired,BitVec.ofNat 64 p,bpos,index,calls⟩ := by
  cases passes with
  | zero => simp [loop] at done
  | succ passes =>
    rcases iterate_boundary narrow rep split start near fresh bpos with ⟨_,expired⟩ | ⟨goes,_⟩
    · rw [loop,expired] at done
      exact (Option.some.inj done).symm
    · exact absurd stops goes

theorem loop_expired (narrow : language = .java → size.bytes ≤ 2^31) (rep : Represents size rb g pending)
    (split : g.log = before ++ rest) (start : p = g.base + Rmp.sizeOf before)
    (near : g.free < p + size.bytes + 2^63) (fresh : g.top ≤ p + size.bytes ∨ p + size.bytes ≤ g.free)
    (unread : messages rest ≠ [])
    (gone : expired (resume rb (BitVec.ofNat 64 p)) rb.freePos rb.configBufSizeBytes = true)
    {passes index : Nat} {bpos : Position} {calls : List (Invocation ρ)} {read : Read ρ}
    (done : loop language filter channelReaders throws rb passes (BitVec.ofNat 64 p) bpos index calls = some read) :
    read.ending = .expired ∧ read.index = index ∧ read.calls = calls ∧
      ∃ went left, rest = went ++ left ∧ messages went = [] ∧
        read.pos = BitVec.ofNat 64 (p + Rmp.sizeOf went) := by
  have bounds := size.bounds
  have five : MsgHeader.size = 5 := rfl
  cases rest with
  | nil => exact absurd rfl unread
  | cons r tail =>
    have fits := (rep.laid before r tail split).1
    rw [← start] at fits
    by_cases room : p % size.bytes + MsgHeader.size ≤ size.bytes
    · rw [resume_room rep.config room] at gone
      have stops := stops_of_expired rep split start near room gone
      obtain rfl := loop_stopped narrow rep split start near fresh stops done
      exact ⟨rfl,rfl,rfl,[],r :: tail,rfl,rfl,rfl⟩
    · obtain ⟨n,rfl⟩ : ∃ n, r = .blank n := by
        cases r with
        | blank n => exact ⟨n,rfl⟩
        | msg data =>
          have := fits.1
          omega
        | padding n =>
          have := fits.1
          omega
      rw [resume_blank rep.config fits] at gone
      cases passes with
      | zero => simp [loop] at done
      | succ passes =>
        rcases iterate_boundary narrow rep split start near fresh bpos with ⟨stops,_⟩ | ⟨goes,bpos',passed⟩
        · exact absurd stops id
        · rw [loop,passed] at done
          obtain ⟨split',start',near',fresh'⟩ := Rmp.Reader.next_boundary rep split start near fresh goes
          replace done : loop language filter channelReaders throws rb passes (BitVec.ofNat 64 (p + n)) bpos' index
              calls = some read := done
          cases tail with
          | nil => exact absurd rfl unread
          | cons r' tail =>
            have room' : (p + n) % size.bytes + MsgHeader.size ≤ size.bytes := by
              have ends := fits.1
              have turn : (p + n) % size.bytes = 0 := by
                rw [← Nat.mod_add_mod,ends,Nat.mod_self]
              omega
            have stops := stops_of_expired rep split' start' near' room' gone
            obtain rfl := loop_stopped narrow rep split' start' near' fresh' stops done
            exact ⟨rfl,rfl,rfl,[.blank n],r' :: tail,rfl,rfl,rfl⟩

end

structure Inv (size : RingSize) (filter : ρ → List UInt8 → Filtered) (channelReaders : List ρ) (s : State ρ) :
    Prop where
  represents : Represents size s.rb ⟨s.base,s.log,s.base + Rmp.sizeOf s.log⟩ []
  boundary : ∃ before rest, s.log = before ++ rest ∧ s.at_ = s.base + Rmp.sizeOf before ∧
    s.index = (messages before).length
  readerPos : s.readerPos = BitVec.ofNat 64 s.at_
  order : s.index ≤ s.handed ∧ s.handed ≤ (messages s.log).length
  calls : s.calls = callsOf filter channelReaders 0 ((messages s.log).take s.handed)

section
variable {size : RingSize} {slot : Nat} {language : Language} {filter : ρ → List UInt8 → Filtered}
  {channelReaders : List ρ} {s t : State ρ} {action : Action ρ}

theorem Inv.writeEx {self : Owner} {data : List UInt8} {answers : List BpAnswer}
    (inv : Inv size filter channelReaders s)
    (stepped : next size slot language filter channelReaders s (.writeEx self data answers) = some t) :
    Inv size filter channelReaders t := by
  obtain ⟨legal,stepped⟩ := Option.ite_none_right_eq_some.mp stepped
  obtain ⟨out,done,stepped⟩ := Option.bind_eq_some_iff.mp stepped
  obtain ⟨_,same⟩ := Option.ite_none_left_eq_some.mp stepped
  obtain rfl := Option.some.inj same
  obtain ⟨before,rest,split,at_,index⟩ := inv.boundary
  refine ⟨represents_ended inv.represents legal done,?_,inv.readerPos,?_,?_⟩
  · exact ⟨before,_,by rw [split,List.append_assoc],at_,index⟩
  · have := inv.order
    simp only [messages_append,List.length_append]
    omega
  · dsimp only
    rw [messages_append,List.take_append_of_le_length inv.order.2]
    exact inv.calls

theorem leave_boundary (language : Language) (slot : Nat) {before rest went left : List Record} {read : Read ρ}
    (split : s.log = before ++ rest) (divided : rest = went ++ left)
    (at_ : s.at_ = s.base + Rmp.sizeOf before) (index : s.index = (messages before).length)
    (readerPos : s.readerPos = BitVec.ofNat 64 s.at_) (near : Rmp.sizeOf rest < 2^63)
    (pos : read.pos = BitVec.ofNat 64 (s.at_ + Rmp.sizeOf went))
    (count : read.index = s.index + (messages went).length) :
    let t := leave language slot s read
    (∃ before rest, t.log = before ++ rest ∧ t.at_ = t.base + Rmp.sizeOf before ∧
      t.index = (messages before).length) ∧ t.readerPos = BitVec.ofNat 64 t.at_ := by
  have distance : (read.pos - s.readerPos).toNat = Rmp.sizeOf went := by
    rw [divided,sizeOf_append] at near
    rw [pos,readerPos,SerialNumber.toNat_ofNat_sub_ofNat (Nat.le_add_right _ _) (by omega),Nat.add_sub_cancel_left]
  simp only [leave]
  by_cases moved : language = .cpp ∨ read.ending ≠ .threw
  · simp only [if_pos moved,distance]
    refine ⟨⟨before ++ went,left,by rw [split,divided,List.append_assoc],?_,?_⟩,pos⟩
    · rw [at_,sizeOf_append,Nat.add_assoc]
    · rw [count,index,messages_append,List.length_append]
  · simp only [if_neg moved]
    exact ⟨⟨before,rest,split,at_,index⟩,readerPos⟩

theorem Inv.ran {before rest went left : List Record} {read : Read ρ} (inv : Inv size filter channelReaders s)
    (split : s.log = before ++ rest) (at_ : s.at_ = s.base + Rmp.sizeOf before)
    (index : s.index = (messages before).length) (near : Rmp.sizeOf rest < 2^63) (current : s.index = s.handed)
    (ran : Ran filter channelReaders s.at_ s.index s.calls rest went left read) :
    Inv size filter channelReaders (leave language slot s read) := by
  have all : messages s.log = messages before ++ messages rest := by rw [split,messages_append]
  obtain ⟨boundary,readerPos⟩ := leave_boundary language slot split ran.split at_ index inv.readerPos near ran.pos
    ran.count
  have last : (messages went).length + (if read.ending = .threw then 1 else 0) ≤ (messages rest).length := by
    rw [ran.split,messages_append,List.length_append]
    split
    next threw =>
      obtain ⟨data,tail,rfl⟩ := ran.thrown threw
      rw [show messages (.msg data :: tail) = data :: messages tail from rfl,List.length_cons]
      omega
    next => omega
  have handed : (leave language slot s read).handed =
      s.index + ((messages went).length + if read.ending = .threw then 1 else 0) := by
    simp only [leave,← current,ran.count]
    split <;> omega
  refine ⟨inv.represents,boundary,readerPos,?_,?_⟩
  · rw [handed]
    refine ⟨?_,?_⟩
    · simp only [leave]
      split
      · have := ran.count
        omega
      · omega
    · rw [show (leave language slot s read).log = s.log from rfl,all,List.length_append,← index]
      omega
  · have known := inv.calls
    rw [← current,all,index,List.take_left] at known
    rw [handed,show (leave language slot s read).calls = read.calls from rfl,
      show (leave language slot s read).log = s.log from rfl,ran.calls,known,all,index,
      List.take_length_add_append,callsOf_append,Nat.zero_add]

theorem Inv.expired {before rest went left : List Record} {read : Read ρ} (inv : Inv size filter channelReaders s)
    (split : s.log = before ++ rest) (at_ : s.at_ = s.base + Rmp.sizeOf before)
    (index : s.index = (messages before).length) (near : Rmp.sizeOf rest < 2^63)
    (ending : read.ending = .expired) (count : read.index = s.index) (calls : read.calls = s.calls)
    (divided : rest = went ++ left) (silent : messages went = [])
    (pos : read.pos = BitVec.ofNat 64 (s.at_ + Rmp.sizeOf went)) :
    Inv size filter channelReaders (leave language slot s read) := by
  obtain ⟨boundary,readerPos⟩ := leave_boundary language slot split divided at_ index inv.readerPos near pos
    (by rw [count,silent]; rfl)
  have handed : (leave language slot s read).handed = s.handed := by
    simp only [leave,ending,count]
    exact Nat.max_eq_left inv.order.1
  refine ⟨inv.represents,boundary,readerPos,?_,?_⟩
  · rw [handed]
    refine ⟨?_,inv.order.2⟩
    simp only [leave]
    split
    · exact count ▸ inv.order.1
    · exact inv.order.1
  · rw [handed,show (leave language slot s read).calls = read.calls from rfl,calls]
    exact inv.calls

theorem Inv.readRmp {throws : ρ → Nat → Bool} {passes : Nat} (narrow : language = .java → size.bytes ≤ 2^31)
    (inv : Inv size filter channelReaders s)
    (ok : allowed filter channelReaders s (.readRmp throws passes) = true)
    (stepped : next size slot language filter channelReaders s (.readRmp throws passes) = some t) :
    Inv size filter channelReaders t := by
  obtain ⟨before,rest,split,at_,index⟩ := inv.boundary
  simp only [allowed,Bool.and_eq_true,Bool.or_eq_true,decide_eq_true_eq,beq_iff_eq] at ok
  obtain ⟨near,ok⟩ := ok
  have all : messages s.log = messages before ++ messages rest := by rw [split,messages_append]
  have free : s.base + Rmp.sizeOf s.log = s.at_ + Rmp.sizeOf rest := by
    rw [split,sizeOf_append,at_,Nat.add_assoc]
  have unread : (messages s.log).drop s.index = messages rest := by rw [all,index,List.drop_left]
  rw [unread] at ok
  obtain ⟨_,stepped⟩ := Option.ite_none_left_eq_some.mp stepped
  split at stepped
  next =>
    obtain ⟨read,done,rfl⟩ := Option.map_eq_some_iff.mp stepped
    have looped : loop language filter channelReaders throws s.rb passes (BitVec.ofNat 64 s.at_)
        (s.ri.info slot).position s.index s.calls = some read := by
      rw [← inv.readerPos]
      exact (Option.ite_none_left_eq_some.mp done).2
    have close : s.base + Rmp.sizeOf s.log < s.at_ + size.bytes + 2^63 := by omega
    have fresh : s.base + Rmp.sizeOf s.log ≤ s.at_ + size.bytes ∨ s.at_ + size.bytes ≤ s.base + Rmp.sizeOf s.log := by
      omega
    by_cases sound : s.index = s.handed ∧
        onlyLastThrows filter throws channelReaders s.index (messages rest) = true
    · obtain ⟨went,left,ran⟩ := loop_spec narrow inv.represents split at_ close fresh sound.2 looped
      exact inv.ran split at_ index (by omega) sound.1 ran
    · have gone := ok.resolve_left sound
      rw [inv.readerPos] at gone
      have some : messages rest ≠ [] := by
        intro none
        have := inv.order
        rw [all,none,List.append_nil,← index] at this
        exact sound ⟨by omega,by rw [none]; rfl⟩
      obtain ⟨ending,count,calls,went,left,divided,silent,pos⟩ :=
        loop_expired narrow inv.represents split at_ close fresh some gone looped
      exact inv.expired split at_ index (by omega) ending count calls divided silent pos
  next =>
    obtain rfl := Option.some.inj stepped
    exact inv

/-- In every run in which only a last handler throws, and behind that no call of `ReadRmp` finds
messages to read again, the handlers are called exactly once, also those of the other readers. -/
theorem delivered_once (narrow : language = .java → size.bytes ≤ 2^31) (distinct : channelReaders.Nodup)
    (reached : Reachable ((sys size slot language filter channelReaders).restrict (fun s action =>
      allowed filter channelReaders s action = true)) s) : Delivered filter channelReaders s := by
  have inv : Inv size filter channelReaders s := by
    refine reached.invariant (Inv size filter channelReaders) ?_ ?_
    · rintro s ⟨rb,ri,config,rfl⟩
      exact ⟨Represents.fresh rb config,⟨[],[],rfl,rfl,rfl⟩,by simp,⟨le_rfl,le_rfl⟩,rfl⟩
    · rintro s action t inv ⟨ok,stepped⟩
      cases action with
      | writeEx self data answers => exact inv.writeEx stepped
      | readRmp throws passes => exact inv.readRmp narrow ok stepped
  exact delivered_of_calls distinct inv.calls

end
theorem ring32_powerOfTwo : ∃ k, 3 ≤ k ∧ k ≤ 63 ∧ 32 = 2^k := by
  exact ⟨5,by decide,by decide,rfl⟩

def ring32 : RingSize := ⟨32,ring32_powerOfTwo⟩

def half : List UInt8 := TopicMsgBinarySerializer.serialize 1 false [] [7]

def start32 (ρ : Type) : State ρ :=
  ⟨.create ring32.position (fun _ => 0),(Rmp.ReaderInfo.create 1).activate (some 0) 0,0,[],0,[],0,0,0,[]⟩

def readers : List ChannelReader := [⟨0,[],false,1⟩,⟨1,[],false,1⟩]

def javaReaders : List Java.ChannelReader := [⟨0,[],false,1⟩,⟨1,[],false,1⟩]

/-- The second handler throws, and the message is overwritten before the next call of `ReadRmp`. -/
theorem delivered_once_overwritten : ∃ s : State ChannelReader,
    s.calls.map (fun call => (call.reader.id,call.index)) = [(0,0),(1,0)] ∧
      s.events = [.allChannelReadersExpired] ∧ Delivered Reader.filter readers s := by
  obtain ⟨s,reached,seen⟩ := exec_reaches (sys ring32 0 .cpp Reader.filter readers)
    (allowed Reader.filter readers) (next ring32 0 .cpp Reader.filter readers) (fun _ _ _ taken => taken)
    (s := start32 ChannelReader) ⟨_,_,rfl,rfl⟩
    [.writeEx 0 half [],.readRmp (fun c _ => c.id == 1) 5,.writeEx 0 half [.returns false],
      .readRmp (fun _ _ => true) 5]
    (fun s => (s.calls.map (fun call => (call.reader.id,call.index)),s.events))
    ([(0,0),(1,0)],[.allChannelReadersExpired]) (by decide +kernel)
  obtain ⟨calls,events⟩ := Prod.mk.inj seen
  exact ⟨s,calls,events,delivered_once (by decide) (by decide) reached⟩

/-- The first handler throws. The next call of `ReadRmp` hands it the message again, or the message
is overwritten first and the second handler is never called. -/
theorem handler_called_twice :
    (∃ s : State ChannelReader, Reachable (sys ring32 0 .cpp Reader.filter readers) s ∧
      s.calls.map (fun call => (call.reader.id,call.index)) = [(0,0),(0,0),(1,0)]) ∧
    (∃ s : State ChannelReader, Reachable (sys ring32 0 .cpp Reader.filter readers) s ∧
      s.calls.map (fun call => (call.reader.id,call.index)) = [(0,0)] ∧
        s.events = [.allChannelReadersExpired]) ∧
    ∃ s : State Java.ChannelReader, Reachable (sys ring32 0 .java Java.ChannelReader.filter javaReaders) s ∧
      s.calls.map (fun call => (call.reader.id,call.index)) = [(0,0),(1,0),(0,0),(1,0)] := by
  refine ⟨?_,?_,?_⟩
  · obtain ⟨s,reached,seen⟩ := exec_reaches (sys ring32 0 .cpp Reader.filter readers)
      (fun _ _ => true) (next ring32 0 .cpp Reader.filter readers) (fun _ _ _ taken => taken)
      (s := start32 ChannelReader) ⟨_,_,rfl,rfl⟩
      [.writeEx 0 half [],.readRmp (fun c _ => c.id == 0) 5,.readRmp (fun _ _ => false) 5]
      (fun s => s.calls.map (fun call => (call.reader.id,call.index))) [(0,0),(0,0),(1,0)] (by decide +kernel)
    exact ⟨s,reached.unrestrict,seen⟩
  · obtain ⟨s,reached,seen⟩ := exec_reaches (sys ring32 0 .cpp Reader.filter readers)
      (fun _ _ => true) (next ring32 0 .cpp Reader.filter readers) (fun _ _ _ taken => taken)
      (s := start32 ChannelReader) ⟨_,_,rfl,rfl⟩
      [.writeEx 0 half [],.readRmp (fun c _ => c.id == 0) 5,.writeEx 0 half [.returns false],
        .readRmp (fun _ _ => false) 5]
      (fun s => (s.calls.map (fun call => (call.reader.id,call.index)),s.events))
      ([(0,0)],[.allChannelReadersExpired]) (by decide +kernel)
    obtain ⟨calls,events⟩ := Prod.mk.inj seen
    exact ⟨s,reached.unrestrict,calls,events⟩
  · obtain ⟨s,reached,seen⟩ := exec_reaches (sys ring32 0 .java Java.ChannelReader.filter javaReaders)
      (fun _ _ => true) (next ring32 0 .java Java.ChannelReader.filter javaReaders) (fun _ _ _ taken => taken)
      (s := start32 Java.ChannelReader) ⟨_,_,rfl,rfl⟩
      [.writeEx 0 half [],.readRmp (fun c _ => c.id == 1) 5,.readRmp (fun _ _ => false) 5]
      (fun s => s.calls.map (fun call => (call.reader.id,call.index))) [(0,0),(1,0),(0,0),(1,0)]
      (by decide +kernel)
    exact ⟨s,reached.unrestrict,seen⟩

end Toroni.Tp.FailingHandlers
