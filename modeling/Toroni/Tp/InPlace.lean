import Toroni.Tp.TopicMsgBinary

/-! How a topic message is parsed where it lies: with a pointer into memory that goes on behind the
message. Memory ends somewhere, and nothing can be loaded from there on. -/
namespace Toroni.Tp.InPlace
open LittleEndian TopicMsgBinarySerializer TopicMsgBinaryDeserializer

inductive Failure
  | assertionFailed
  | outOfRange
  deriving DecidableEq

/-- What a call returns, how far it has moved the pointer `data`, and what it leaves in `dataSize`.
`reach` is where the bytes end that it has read; no code reads that. -/
structure Parsed where
  result : Bool
  data : Nat
  dataSize : BitVec 32
  reach : Nat
  deriving DecidableEq

def load (memory : List UInt8) (start length : Nat) : Except Failure (List UInt8) :=
  if start + length ≤ memory.length then .ok ((memory.drop start).take length) else .error .outOfRange

def loadName (memory : List UInt8) (start : Nat) : Except Failure Chars :=
  let name := (memory.drop start).takeWhile (· != 0)
  if start + name.length < memory.length then .ok name else .error .outOfRange

def deserializeAndFilter (memory : List UInt8) (dataSize : BitVec 32) (readerGen : ReaderGen)
    (channelName : Chars) (handleDescendants : Bool) : Except Failure Parsed := do
  if dataSize < TopicMsgBinarySerializer.sizeOf [] 0 then
    .error .assertionFailed
  else
    let writerGen ← load memory 0 8
    if ofBytes writerGen < readerGen.toNat then
      return {result := false,data := 0,dataSize,reach := 8}
    else
      let writerPd ← load memory 8 1
      let writerChName ← loadName memory 9
      let msg := 9 + writerChName.length + 1
      if topicMatches channelName handleDescendants writerChName (writerPd.headD 0 != 0) then
        -- the subtraction wraps
        return {result := true,data := msg,dataSize := dataSize - BitVec.ofNat 32 msg,reach := msg}
      else
        return {result := false,data := 0,dataSize,reach := msg}

def Parsed.bytes (parsed : Parsed) (memory : List UInt8) : List UInt8 :=
  (memory.drop parsed.data).take parsed.dataSize.toNat

def Refines (memory : List UInt8) (length : Nat) : Filtered → Except Failure Parsed → Prop
  | .rejected, .ok parsed =>
      parsed.result = false ∧ parsed.data = 0 ∧ parsed.dataSize.toNat = length ∧ parsed.reach ≤ length
  | .accepted data, .ok parsed =>
      parsed.result = true ∧ parsed.data + data.length = length ∧ parsed.dataSize.toNat = data.length ∧
        parsed.bytes memory = data ∧ parsed.reach ≤ length ∧ 10 ≤ parsed.data
  | .outOfRange, .ok parsed => length < parsed.reach
  | .outOfRange, .error failure => failure = .outOfRange
  | .assertionFailed, .error failure => failure = .assertionFailed ∧ length < 10
  | _, _ => False

section
variable {message beyond channel name data : List UInt8} {readerGen writerGen : ReaderGen}
  {handleDescendants postToDescendants : Bool}

@[simp] theorem ok_bind {α β : Type} (a : α) (f : α → Except Failure β) : (Except.ok a >>= f) = f a := rfl

@[simp] theorem error_bind {α β : Type} (failure : Failure) (f : α → Except Failure β) :
    (Except.error failure >>= f) = .error failure := rfl

theorem load_ok {memory : List UInt8} {start length : Nat} (inside : start + length ≤ memory.length) :
    load memory start length = .ok ((memory.drop start).take length) := by
  exact if_pos inside

theorem load_message {start length : Nat} (inside : start + length ≤ message.length) :
    load (message ++ beyond) start length = .ok ((message.drop start).take length) := by
  rw [load_ok (by rw [List.length_append]; omega),List.drop_append_of_le_length (by omega),
    List.take_append_of_le_length (by rw [List.length_drop]; omega)]

theorem name_inside {start : Nat} (beyond : List UInt8)
    (ends : start + ((message.drop start).takeWhile (· != 0)).length < message.length) :
    ((message ++ beyond).drop start).takeWhile (· != 0) = (message.drop start).takeWhile (· != 0) := by
  rw [List.drop_append_of_le_length (by omega),List.takeWhile_append,
    if_neg (by rw [List.length_drop]; omega)]

theorem name_outside {start : Nat} (beyond : List UInt8) (start_le : start ≤ message.length)
    (open_ : message.length ≤ start + ((message.drop start).takeWhile (· != 0)).length) :
    message.length ≤ start + (((message ++ beyond).drop start).takeWhile (· != 0)).length := by
  have whole : ((message.drop start).takeWhile (· != 0)).length = (message.drop start).length := by
    have := (List.takeWhile_prefix (· != 0) (l := message.drop start)).length_le
    rw [List.length_drop] at this ⊢
    omega
  rw [List.drop_append_of_le_length start_le,List.takeWhile_append,if_pos whole,List.length_append,
    List.length_drop]
  omega

theorem loadName_inside {start : Nat}
    (ends : start + ((message.drop start).takeWhile (· != 0)).length < message.length) :
    loadName (message ++ beyond) start = .ok ((message.drop start).takeWhile (· != 0)) := by
  simp only [loadName,name_inside beyond ends]
  rw [if_pos (by rw [List.length_append]; omega)]

theorem loadName_outside {start : Nat} (beyond : List UInt8) (start_le : start ≤ message.length)
    (open_ : message.length ≤ start + ((message.drop start).takeWhile (· != 0)).length) :
    loadName (message ++ beyond) start = .error .outOfRange ∨
      ∃ name, loadName (message ++ beyond) start = .ok name ∧ message.length ≤ start + name.length := by
  have longer := name_outside beyond start_le open_
  simp only [loadName]
  split
  · exact Or.inr ⟨_,rfl,longer⟩
  · exact Or.inl rfl

theorem deserializeAndFilter_refines (beyond : List UInt8) (readerGen : ReaderGen) (channel : Chars)
    (handleDescendants : Bool) (small : message.length < 2^32) :
    Refines (message ++ beyond) message.length
      (TopicMsgBinaryDeserializer.deserializeAndFilter message readerGen channel handleDescendants)
      (deserializeAndFilter (message ++ beyond) (BitVec.ofNat 32 message.length) readerGen channel
        handleDescendants) := by
  have size : (BitVec.ofNat 32 message.length).toNat = message.length := by
    rw [BitVec.toNat_ofNat,Nat.mod_eq_of_lt small]
  have guard : BitVec.ofNat 32 message.length < TopicMsgBinarySerializer.sizeOf [] 0 ↔ message.length < 10 := by
    rw [BitVec.lt_def,size,toNat_sizeOf_empty]
  simp only [deserializeAndFilter,TopicMsgBinaryDeserializer.deserializeAndFilter,guard,toNat_sizeOf_empty]
  by_cases short : message.length < 10
  · simp only [if_pos short]
    exact ⟨rfl,short⟩
  simp only [if_neg short]
  rw [load_message (by omega),List.drop_zero,ok_bind]
  by_cases old : ofBytes (message.take 8) < readerGen.toNat
  · simp only [if_pos old]
    exact ⟨rfl,rfl,size,Nat.le_trans (show 8 ≤ 10 by decide) (Nat.le_of_not_lt short)⟩
  simp only [if_neg old]
  rw [load_message (by omega),ok_bind,List.length_drop]
  have flag : ((message.drop 8).take 1).headD 0 = (message.drop 8).headD 0 := by
    cases message.drop 8 <;> rfl
  generalize own : (message.drop 9).takeWhile (· != 0) = name
  by_cases ends : 9 + name.length < message.length
  · rw [loadName_inside (by rw [own]; exact ends),ok_bind,own,flag,if_neg (by omega)]
    have rest : (message ++ beyond).drop (9 + name.length + 1) = message.drop (9 + name.length + 1) ++ beyond :=
      List.drop_append_of_le_length (by omega)
    have left : (BitVec.ofNat 32 message.length - BitVec.ofNat 32 (9 + name.length + 1)).toNat =
        message.length - (9 + name.length + 1) := by
      rw [BitVec.toNat_sub_of_le (by simp [BitVec.le_def]; omega),size,BitVec.toNat_ofNat,
        Nat.mod_eq_of_lt (by omega)]
    split
    · rw [List.drop_drop]
      refine ⟨rfl,?_,?_,?_,?_,?_⟩
      · simp
        omega
      · rw [left]
        simp
        omega
      · rw [Parsed.bytes,left,rest]
        exact List.take_left' (by simp)
      · change 9 + name.length + 1 ≤ message.length
        omega
      · change 10 ≤ 9 + name.length + 1
        omega
    · exact ⟨rfl,rfl,size,ends⟩
  · rw [if_pos (by omega)]
    obtain stops | ⟨longer,loaded,past⟩ :=
      loadName_outside beyond (show 9 ≤ message.length by omega) (by rw [own]; omega)
    · rw [stops]
      rfl
    · rw [loaded,ok_bind]
      split
      · exact Nat.lt_succ_of_le past
      · exact Nat.lt_succ_of_le past

def Safe (message beyond : List UInt8) (readerGen : ReaderGen) (channel : Chars)
    (handleDescendants : Bool) : Prop :=
  ∃ parsed, deserializeAndFilter (message ++ beyond) (BitVec.ofNat 32 message.length) readerGen channel
      handleDescendants = .ok parsed ∧ parsed.reach ≤ message.length ∧
    (parsed.result = true → parsed.bytes (message ++ beyond) <:+ message ∧
      (parsed.bytes (message ++ beyond)).length = parsed.dataSize.toNat ∧
      parsed.dataSize.toNat ≤ message.length - 10)

theorem length_takeWhile_lt {bytes : List UInt8} :
    (bytes.takeWhile (· != 0)).length < bytes.length ↔ 0 ∈ bytes := by
  have never := (List.takeWhile_prefix (· != 0) (l := bytes)).length_le
  constructor
  · intro shorter
    by_contra absent
    have nonzero : NoZero bytes := fun c member zero => absent (zero ▸ member)
    rw [nonzero.takeWhile] at shorter
    omega
  · intro member
    apply Nat.lt_of_le_of_ne never
    intro same
    have whole := (List.takeWhile_prefix (· != 0) (l := bytes)).eq_of_length same
    have nonzero := List.takeWhile_eq_self_iff.mp whole 0 member
    contradiction

theorem Refines.safe {alone : Filtered} {call : Except Failure Parsed}
    (parse : Refines (message ++ beyond) message.length alone call) (inside : alone ≠ .outOfRange)
    (enough : 10 ≤ message.length) :
    ∃ parsed, call = .ok parsed ∧ parsed.reach ≤ message.length ∧
      (parsed.result = true → parsed.bytes (message ++ beyond) <:+ message ∧
        (parsed.bytes (message ++ beyond)).length = parsed.dataSize.toNat ∧
        parsed.dataSize.toNat ≤ message.length - 10) := by
  cases alone with
  | outOfRange => contradiction
  | assertionFailed =>
    cases call with
    | error failure => exact absurd parse.2 (Nat.not_lt.mpr enough)
    | ok parsed => exact parse.elim
  | rejected =>
    cases call with
    | error failure => exact parse.elim
    | ok parsed =>
      obtain ⟨result,_,_,reach⟩ := parse
      exact ⟨parsed,rfl,reach,by simp [result]⟩
  | accepted data =>
    cases call with
    | error failure => exact parse.elim
    | ok parsed =>
      obtain ⟨_,covers,left,bytes,reach,header⟩ := parse
      refine ⟨parsed,rfl,reach,fun _ => ⟨?_,by rw [bytes,left],by omega⟩⟩
      have inside : parsed.bytes (message ++ beyond) = message.drop parsed.data := by
        rw [Parsed.bytes,left,List.drop_append_of_le_length (by omega)]
        exact List.take_left' (by rw [List.length_drop]; omega)
      rw [inside]
      exact List.drop_suffix _ _

theorem outOfRange_iff (readerGen : ReaderGen) (channel : Chars) (handleDescendants : Bool)
    (enough : 10 ≤ message.length) :
    TopicMsgBinaryDeserializer.deserializeAndFilter message readerGen channel handleDescendants = .outOfRange ↔
      ¬ (ofBytes (message.take 8) < readerGen.toNat ∨ 0 ∈ message.drop 9) := by
  rw [← length_takeWhile_lt]
  simp only [TopicMsgBinaryDeserializer.deserializeAndFilter,
    toNat_sizeOf_empty,if_neg (Nat.not_lt.mpr enough)]
  split
  case isTrue old => simp [old]
  case isFalse young =>
    split
    case isTrue runs => simpa [young] using runs
    case isFalse ends =>
      have closed := Nat.lt_of_not_le ends
      refine ⟨fun stuck => ?_,fun open_ => absurd (Or.inr closed) open_⟩
      split at stuck
      · contradiction
      · contradiction

theorem safe_iff (enough : 10 ≤ message.length) (small : message.length < 2^32) :
    Safe message beyond readerGen channel handleDescendants ↔
      ofBytes (message.take 8) < readerGen.toNat ∨ 0 ∈ message.drop 9 := by
  have parse := deserializeAndFilter_refines beyond readerGen channel handleDescendants small
  rw [← not_iff_not,← outOfRange_iff readerGen channel handleDescendants enough]
  constructor
  · intro unsafe_
    by_contra inside
    exact unsafe_ (parse.safe inside enough)
  · intro runs ⟨parsed,call,reach,_⟩
    rw [runs,call] at parse
    exact absurd reach (Nat.not_le.mpr parse)

theorem sizeOf_eq (small : 10 + name.length + data.length < 2^32) :
    TopicMsgBinarySerializer.sizeOf name (BitVec.ofNat 32 data.length) =
      BitVec.ofNat 32 (serialize writerGen postToDescendants name data).length := by
  rw [TopicMsgBinarySerializer.sizeOf,BitVec.toNat_ofNat,Nat.mod_eq_of_lt (by omega),length_serialize]

/-- A serialized message is accepted exactly by the readers of its topic that are not younger, and
then the data is what is left of it; otherwise the pointer and the size stay as they are. -/
theorem roundTrip (noZero : NoZero name) (small : 10 + name.length + data.length < 2^32) :
    let memory := serialize writerGen postToDescendants name data ++ beyond
    let dataSize := TopicMsgBinarySerializer.sizeOf name (BitVec.ofNat 32 data.length)
    ∃ parsed, deserializeAndFilter memory dataSize readerGen channel handleDescendants = .ok parsed ∧
      (parsed.result = true ↔ readerGen ≤ writerGen ∧ (name = channel ∨
        (postToDescendants = true ∧ name <+: channel) ∨ (handleDescendants = true ∧ channel <+: name))) ∧
      (parsed.result = true → parsed.dataSize.toNat = data.length ∧ parsed.bytes memory = data) ∧
      (parsed.result = false → parsed.data = 0 ∧ parsed.dataSize = dataSize) := by
  intro memory dataSize
  have size : dataSize = BitVec.ofNat 32 (serialize writerGen postToDescendants name data).length :=
    sizeOf_eq small
  have length : (serialize writerGen postToDescendants name data).length < 2^32 := by
    rw [length_serialize]
    omega
  have parse := deserializeAndFilter_refines beyond readerGen channel handleDescendants length
  rw [deserializeAndFilter_serialize noZero,← size] at parse
  change Refines memory _ _ (deserializeAndFilter memory dataSize readerGen channel handleDescendants) at parse
  rw [eq_comm (a := name),← topicMatches_iff]
  cases call : deserializeAndFilter memory dataSize readerGen channel handleDescendants with
  | error failure =>
    rw [call] at parse
    split at parse
    · exact parse.elim
    · exact parse.elim
  | ok parsed =>
    rw [call] at parse
    refine ⟨parsed,rfl,?_⟩
    split at parse
    case isTrue matching =>
      obtain ⟨result,_,left,bytes,_⟩ := parse
      exact ⟨by simp [result,matching],fun _ => ⟨left,bytes⟩,by simp [result]⟩
    case isFalse other =>
      obtain ⟨result,moved,left,_⟩ := parse
      refine ⟨by simp [result,other],by simp [result],fun _ => ⟨moved,?_⟩⟩
      rw [← BitVec.toNat_inj,left,size,BitVec.toNat_ofNat,Nat.mod_eq_of_lt length]

end

/-- A reader of an ancestor that handles descendants, and a payload with a zero in it. -/
theorem roundTrip_ancestor : ∃ parsed, deserializeAndFilter (serialize 3 false [97,47] [1,0,2] ++ [5])
      (TopicMsgBinarySerializer.sizeOf [97,47] (BitVec.ofNat 32 3)) 2 [97] true = .ok parsed ∧
    (parsed.result = true ↔ (2 : ReaderGen) ≤ 3 ∧ (([97,47] : Chars) = [97] ∨
      (false = true ∧ ([97,47] : Chars) <+: [97]) ∨ (true = true ∧ ([97] : Chars) <+: [97,47]))) ∧
    (parsed.result = true → parsed.dataSize.toNat = 3 ∧
      parsed.bytes (serialize 3 false [97,47] [1,0,2] ++ [5]) = [1,0,2]) ∧
    (parsed.result = false →
      parsed.data = 0 ∧ parsed.dataSize = TopicMsgBinarySerializer.sizeOf [97,47] (BitVec.ofNat 32 3)) := by
  exact roundTrip (by simp [NoZero]) (by decide)

end Toroni.Tp.InPlace
