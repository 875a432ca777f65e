import Toroni.Java.Membership

/-! Java readers in whole runs: how their tasks and the calls of others meet, and what each channel
reader has been handed. -/
namespace Toroni.Java.Subscribers
open Rmp (ByteRingBuffer Position Event)
open Rmp.Writer (BpAnswer WriteExOutcome)
open Rmp.Reader (Outcome)
open Tp (ChannelReaderEventType Chars Invocation NoZero SerialTask handed waiting)
open Transition Traits

structure Inv (size : Rmp.RingSize) (java : Nat → Bool) (s : State) : Prop where
  created : ∀ data ∈ s.log, Created data
  slots : ∀ i, java i = true → i < s.ri.configMaxReaders.toNat
  related : ∃ a, Mixed.Related size s.shared a ∧ a.log = s.log ∧
    ∀ i, java i = true → Good s.clock s.log (a.reader i) (s.client i)

section
variable {size : Rmp.RingSize} {java : Nat → Bool} {s t : State} {i : Nat} {action : Action}

theorem shared_set (ri : Rmp.ReaderInfo) (since : Nat → Nat) (client : Client) :
    ({ s with
      ri := ri
      since := since }.set i client).shared =
      ⟨s.rb,ri,Function.update s.shared.readerPos i client.reader.readerPos,since⟩ := by
  rw [State.shared]
  congr 1
  funext j
  rw [State.set,State.shared]
  by_cases own : j = i
  · subst own
    simp
  · simp [own]

theorem shared_added (rest : List (SerialTask ChannelReader)) (c : ChannelReader) :
    (s.perform i rest (.addChannelReader c)).shared =
      if (s.client i).reader.channelReaders = [] then Mixed.activated .java s.shared i else s.shared := by
  rw [State.perform,shared_set,Reader.addChannelReader]
  by_cases opens : (s.client i).reader.channelReaders = []
  · simp only [opens,if_true,List.nil_append,List.length_singleton]
    rfl
  · have more : ¬ ((s.client i).reader.channelReaders ++ [c]).length = 1 := by
      rw [List.length_append,List.length_singleton]
      have := List.length_pos_iff.mpr opens
      omega
    simp only [if_neg opens,if_neg more]
    exact congrArg (fun f => Rmp.Protocol.State.mk s.rb s.ri f s.since) (Function.update_eq_self i _)

theorem shared_removed (rest : List (SerialTask ChannelReader)) (id : Nat) :
    (s.perform i rest (.removeChannelReader id)).shared =
      if (s.client i).reader.channelReaders.eraseP (fun c => c.id == id) = [] then
        Mixed.deactivated .java s.shared i else s.shared := by
  have whole : (s.perform i rest (.removeChannelReader id)).shared = _ := shared_set _ s.since _
  rw [whole,Reader.removeChannelReader]
  split
  next => exact congrArg (fun f => Rmp.Protocol.State.mk s.rb _ f s.since) (Function.update_eq_self i _)
  next => exact congrArg (fun f => Rmp.Protocol.State.mk s.rb s.ri f s.since) (Function.update_eq_self i _)

/-- A client that stays where it is. -/
theorem shared_kept (clock : Nat) (client : Client)
    (same : client.reader.readerPos = (s.client i).reader.readerPos) :
    ({ s with clock := clock }.set i client).shared = s.shared := by
  have whole : ({ s with clock := clock }.set i client).shared = _ :=
    shared_set (s := { s with clock := clock }) s.ri s.since client
  rw [whole,same]
  exact congrArg (fun f => Rmp.Protocol.State.mk s.rb s.ri f s.since) (Function.update_eq_self i _)

theorem shared_enqueued (clock : Nat) (task : SerialTask ChannelReader) :
    ({ s with clock := clock }.enqueueSerial i task).shared = s.shared := by
  exact shared_kept clock _ rfl

theorem shared_ran (rest : List (SerialTask ChannelReader)) : (s.perform i rest .run).shared = s.shared := by
  exact shared_kept s.clock _ rfl

theorem shared_idle (n failed : Nat) : (s.set i { s.client i with
    rmp := n
    failed := failed }).shared = s.shared := by
  exact shared_kept s.clock _ rfl

theorem shared_finishRmp (out : Outcome) (calls : List (Invocation ChannelReader)) :
    (s.finishRmp i out calls).shared = s.shared.finishRead i out := by
  exact shared_set _ s.since _

theorem slots_finishRead (s : Rmp.Protocol.State) (i : Nat) (out : Outcome) :
    (s.finishRead i out).ri.configMaxReaders = s.ri.configMaxReaders := by
  rw [Rmp.Protocol.State.finishRead]
  split <;> rfl

/-- Steps of others move nothing of a Java reader. -/
theorem Inv.foreign {a b : Rmp.Broadcast.State} {after : Rmp.Protocol.State} (inv : Inv size java s)
    (more : List (List UInt8)) (goods : ∀ j, java j = true → Good s.clock s.log (a.reader j) (s.client j))
    (related : Mixed.Related size after b) (log : b.log = s.log ++ more) (created : ∀ data ∈ more, Created data)
    (slots : after.ri.configMaxReaders = s.ri.configMaxReaders)
    (others : ∀ j, java j = true → after.readerPos j = s.shared.readerPos j)
    (cursors : ∀ j, java j = true → b.reader j = a.reader j) :
    Inv size java { s.resume after with log := s.log ++ more } := by
  refine ⟨?_,fun j own => ?_,b,related,log,fun j own => ?_⟩
  · intro data member
    exact (List.mem_append.mp member).elim (inv.created data) (created data)
  · rw [show (s.resume after).ri = after.ri from rfl,slots]
    exact inv.slots j own
  · have kept : (s.resume after).client j = s.client j := by
      change { s.client j with reader := { (s.client j).reader with readerPos := after.readerPos j } } = s.client j
      rw [others j own]
      rfl
    rw [cursors j own]
    exact kept ▸ (goods j own).grow le_rfl

theorem Inv.own {a b : Rmp.Broadcast.State} (inv : Inv size java s)
    (goods : ∀ j, java j = true → Good s.clock s.log (a.reader j) (s.client j))
    (related : Mixed.Related size t.shared b) (log : b.log = s.log) (same : t.log = s.log)
    (clock : s.clock ≤ t.clock) (slots : t.ri.configMaxReaders = s.ri.configMaxReaders)
    (others : ∀ j, j ≠ i → t.client j = s.client j) (cursors : ∀ j, j ≠ i → b.reader j = a.reader j)
    (good : Good t.clock s.log (b.reader i) (t.client i)) : Inv size java t := by
  refine ⟨?_,fun j own => ?_,b,related,log.trans same.symm,fun j own => ?_⟩
  · rw [same]
    exact inv.created
  · rw [slots]
    exact inv.slots j own
  · rw [same]
    by_cases here : j = i
    · exact here ▸ good
    · rw [cursors j here,others j here,← List.append_nil s.log]
      exact (goods j own).grow clock

theorem Inv.enqueued {task : SerialTask ChannelReader} {clock : Nat} (inv : Inv size java s) (own : java i = true)
    (later : s.clock ≤ clock) (new : ∀ id ∈ (waiting [task]).map ChannelReader.id, s.clock ≤ id ∧ id < clock) :
    Inv size java ({ s with clock := clock }.enqueueSerial i task) := by
  obtain ⟨a,related,log,goods⟩ := inv.related
  have here : ({ s with clock := clock }.enqueueSerial i task).client i =
      { s.client i with serial := (s.client i).serial ++ [task] } := Function.update_self _ _ _
  refine inv.own (i := i) goods ?_ log rfl later rfl (fun j away => ?_) (fun _ _ => rfl) ?_
  · rwa [shared_enqueued]
  · exact Function.update_of_ne away _ _
  · rw [here]
    exact (goods i own).enqueued later new

theorem Inv.perform_added {c : ChannelReader} {rest : List (SerialTask ChannelReader)} (moderate : size.bytes ≤ 2^30)
    (inv : Inv size java s) (recent : Rmp.Protocol.Moderate s.shared) (own : java i = true)
    (serial : (s.client i).serial = .addChannelReader c :: rest) :
    Inv size java (s.perform i rest (.addChannelReader c)) := by
  obtain ⟨a,related,log,goods⟩ := inv.related
  have list : ((s.client i).reader.addChannelReader s.rb i s.ri c).2.channelReaders =
      (s.client i).reader.channelReaders ++ [c] := by
    rw [Reader.addChannelReader]
    split <;> rfl
  have slots : ((s.client i).reader.addChannelReader s.rb i s.ri c).1.configMaxReaders = s.ri.configMaxReaders := by
    rw [Reader.addChannelReader]
    split <;> rfl
  have good : Good s.clock s.log
      (if (s.client i).reader.channelReaders = [] then some ⟨s.log.length,false⟩ else a.reader i)
      ((s.perform i rest (.addChannelReader c)).client i) := by
    rw [show (s.perform i rest (.addChannelReader c)).client i = _ from Function.update_self _ _ _]
    exact (goods i own).added serial list
  have others (j : Nat) (away : j ≠ i) : (s.perform i rest (.addChannelReader c)).client j = s.client j :=
    Function.update_of_ne away _ _
  have shared := shared_added (s := s) (i := i) rest c
  by_cases opens : (s.client i).reader.channelReaders = []
  · obtain ⟨b,stepped,after⟩ := (Mixed.simulates moderate).step s.shared _ _ a related
      ⟨recent,.activated .java (inv.slots i own)⟩
    rw [if_pos opens] at shared
    rw [← shared] at after
    cases stepped with
    | activated =>
      have cursor : Function.update a.reader i (some ⟨a.log.length,false⟩) i = some ⟨s.log.length,false⟩ := by
        rw [Function.update_self,log]
      rw [if_pos opens,← cursor] at good
      exact inv.own goods after log rfl le_rfl slots others (fun j away => Function.update_of_ne away _ _) good
  · rw [if_neg opens] at shared
    rw [← shared] at related
    rw [if_neg opens] at good
    exact inv.own goods related log rfl le_rfl slots others (fun _ _ => rfl) good

theorem Inv.perform_removed {id : Nat} {rest : List (SerialTask ChannelReader)} (moderate : size.bytes ≤ 2^30)
    (inv : Inv size java s) (recent : Rmp.Protocol.Moderate s.shared) (own : java i = true)
    (serial : (s.client i).serial = .removeChannelReader id :: rest) :
    Inv size java (s.perform i rest (.removeChannelReader id)) := by
  obtain ⟨a,related,log,goods⟩ := inv.related
  have list : ((s.client i).reader.removeChannelReader i s.ri id).2.channelReaders =
      (s.client i).reader.channelReaders.eraseP (fun c => c.id == id) := by
    rw [Reader.removeChannelReader]
    split <;> rfl
  have slots : ((s.client i).reader.removeChannelReader i s.ri id).1.configMaxReaders = s.ri.configMaxReaders := by
    rw [Reader.removeChannelReader]
    split <;> rfl
  have good : Good s.clock s.log
      (if (s.client i).reader.channelReaders.eraseP (fun c => c.id == id) = [] then none else a.reader i)
      ((s.perform i rest (.removeChannelReader id)).client i) := by
    rw [show (s.perform i rest (.removeChannelReader id)).client i = _ from Function.update_self _ _ _,← list]
    exact (goods i own).removed serial list
  have others (j : Nat) (away : j ≠ i) : (s.perform i rest (.removeChannelReader id)).client j = s.client j :=
    Function.update_of_ne away _ _
  have shared := shared_removed (s := s) (i := i) rest id
  by_cases empty : (s.client i).reader.channelReaders.eraseP (fun c => c.id == id) = []
  · obtain ⟨b,stepped,after⟩ := (Mixed.simulates moderate).step s.shared _ _ a related
      ⟨recent,.deactivated .java (inv.slots i own)⟩
    rw [if_pos empty] at shared
    rw [← shared] at after
    cases stepped with
    | deactivated =>
      have cursor : Function.update a.reader i none i = none := Function.update_self _ _ _
      rw [if_pos empty,← cursor] at good
      exact inv.own goods after log rfl le_rfl slots others (fun j away => Function.update_of_ne away _ _) good
  · rw [if_neg empty] at shared
    rw [← shared] at related
    rw [if_neg empty] at good
    exact inv.own goods related log rfl le_rfl slots others (fun _ _ => rfl) good

theorem Inv.perform_ran {rest : List (SerialTask ChannelReader)} (inv : Inv size java s) (own : java i = true)
    (serial : (s.client i).serial = .run :: rest) : Inv size java (s.perform i rest .run) := by
  obtain ⟨a,related,log,goods⟩ := inv.related
  have here : (s.perform i rest .run).client i = _ := Function.update_self _ _ _
  rw [← shared_ran rest] at related
  refine inv.own (i := i) goods related log rfl le_rfl rfl (fun j away => ?_) (fun _ _ => rfl) ?_
  · exact Function.update_of_ne away _ _
  · rw [here]
    exact (goods i own).tasks (by rw [serial]; rfl)

theorem isActive_iff {a : Rmp.Broadcast.State} (related : Mixed.Related size s.shared a) :
    (s.ri.info i).isActive = (a.reader i).isSome := by
  obtain ⟨⟨_,_,_,_,readers⟩,_⟩ := related
  have place := readers i
  split at place
  next idle =>
    rw [idle]
    exact place
  next c following =>
    rw [following]
    exact place.active

/-- What a call confirms, and where it leaves the abstract reader. -/
theorem read_step {a b : Rmp.Broadcast.State} {c : Rmp.Broadcast.Cursor} {result : Option Rmp.Reader.Result}
    {confirmed : List (List UInt8)} (stepped : Rmp.Broadcast.Step a (.read i result confirmed) b)
    (found : a.reader i = some c) (inside : c.next ≤ a.log.length) :
    (∃ lost, b = { a with reader := Function.update a.reader i (some ⟨c.next + confirmed.length,lost⟩) }) ∧
      c.next + confirmed.length ≤ a.log.length ∧
      confirmed = (a.log.drop c.next).take confirmed.length ∧
      (result = some .success ∧ c.next + confirmed.length = a.log.length ∨ result = some .expiredPosition) := by
  cases stepped with
  | success _ d active _ =>
    obtain rfl := Option.some.inj (active.symm.trans found)
    have whole : d.next + (a.log.drop d.next).length = a.log.length := by
      rw [List.length_drop]
      omega
    exact ⟨⟨false,by rw [whole]⟩,whole.le,List.take_length.symm,Or.inl ⟨rfl,whole⟩⟩
  | expired _ d count active bound _ =>
    obtain rfl := Option.some.inj (active.symm.trans found)
    have length : ((a.log.drop d.next).take count).length = count := by
      rw [List.length_take,List.length_drop]
      omega
    rw [length]
    exact ⟨⟨true,rfl⟩,bound,rfl,Or.inr rfl⟩

/-- The messages that a call of a Java reader confirms are the next ones of the log. -/
theorem Inv.confirms {a b : Rmp.Broadcast.State} {c : Rmp.Broadcast.Cursor} {result : Option Rmp.Reader.Result}
    {confirmed : List (List UInt8)} (inv : Inv size java s) (log : a.log = s.log)
    (good : Good s.clock s.log (some c) (s.client i)) (found : a.reader i = some c)
    (stepped : Rmp.Broadcast.Step a (.read i result confirmed) b) :
    (∃ lost, b = { a with
      reader := Function.update a.reader i (some ⟨(s.client i).read + confirmed.length,lost⟩) }) ∧
      (s.client i).read + confirmed.length ≤ s.log.length ∧
      confirmed = (s.log.drop (s.client i).read).take confirmed.length ∧
      (∀ data ∈ confirmed, Created data) ∧
      (result = some .success ∧ (s.client i).read + confirmed.length = s.log.length ∨
        result = some .expiredPosition) := by
  have next := good.follows.2
  obtain ⟨after,bound,taken,ends⟩ := read_step stepped found (by rw [next,log]; exact good.inside)
  rw [next] at after
  rw [next,log] at bound taken ends
  refine ⟨after,bound,taken,?_,ends⟩
  intro data member
  rw [taken] at member
  exact inv.created data (List.mem_of_mem_drop (List.mem_of_mem_take member))

theorem Inv.done {n failed : Nat} (inv : Inv size java s) (own : java i = true) :
    Inv size java (s.set i { s.client i with
      rmp := n
      failed := failed }) := by
  obtain ⟨a,related,log,goods⟩ := inv.related
  have here : (s.set i { s.client i with
      rmp := n
      failed := failed }).client i = _ := Function.update_self _ _ _
  rw [← shared_idle n failed] at related
  refine inv.own (i := i) goods related log rfl le_rfl rfl (fun j away => ?_) (fun _ _ => rfl) ?_
  · exact Function.update_of_ne away _ _
  · rw [here]
    exact (goods i own).tasks rfl

def Ends (i : Nat) (s t : State) : Prop :=
  if (s.client i).reader.channelReaders = [] then
    t = s.set i { s.client i with
      rmp := (s.client i).rmp - 1
      failed := (s.client i).failed + 1 }
  else (t.client i).failed = (s.client i).failed ∧ ((t.client i).read = t.log.length ∨
    (t.client i).reader.events = (s.client i).reader.events ++ [.allChannelReadersExpired])

theorem Inv.readRmp {passes : Nat} (moderate : size.bytes ≤ 2^30) (inv : Inv size java s)
    (recent : Rmp.Protocol.Moderate s.shared) (own : java i = true) (done : s.readRmp i passes = some t) :
    Inv size java t ∧ Ends i s t := by
  obtain ⟨a,related,log,goods⟩ := inv.related
  have good := goods i own
  have isActive := isActive_iff (i := i) related
  rw [State.readRmp] at done
  by_cases empty : (s.client i).reader.channelReaders = []
  · rw [if_pos empty] at done
    obtain rfl := Option.some.inj done
    rw [Ends,if_pos empty]
    exact ⟨inv.done own,rfl⟩
  rw [if_neg empty] at done
  rw [Ends,if_neg empty]
  split at done
  next active =>
    obtain ⟨out,called,ended⟩ := Option.bind_eq_some_iff.mp done
    obtain ⟨_,mapped⟩ := Option.ite_none_right_eq_some.mp ended
    obtain ⟨calls,dispatched,rfl⟩ := Option.map_eq_some_iff.mp mapped
    obtain ⟨b,stepped,after⟩ := (Mixed.simulates moderate).step s.shared _ _ a related
      ⟨recent,.read .java passes (show s.shared.isActive i = true from active) out called⟩
    cases found : a.reader i with
    | none =>
      rw [active,found] at isActive
      contradiction
    | some c =>
      rw [found] at good
      obtain ⟨⟨lost,rfl⟩,bound,confirmed,made,ends⟩ := inv.confirms log good found stepped
      obtain ⟨calls',same,inside,handed⟩ :=
        dispatchAll_created (s.client i).read made .create good.distinctList
      obtain rfl := Option.some.inj (same.symm.trans dispatched)
      have here : (s.finishRmp i out calls').client i = _ := Function.update_self _ _ _
      refine ⟨?_,?_⟩
      · rw [← shared_finishRmp out calls'] at after
        refine inv.own (i := i) goods after log rfl le_rfl (slots_finishRead _ _ _) (fun j away => ?_) (fun j away => ?_) ?_
        · exact Function.update_of_ne away _ _
        · exact Function.update_of_ne away _ _
        · rw [here]
          rw [confirmed] at handed
          change Good _ _ (Function.update a.reader i (some ⟨(s.client i).read + out.confirmed.length,lost⟩) i) _
          rw [Function.update_self]
          refine good.read ?_ bound inside handed lost
          rfl
      · rw [here]
        refine ⟨rfl,?_⟩
        rcases ends with ⟨_,whole⟩ | expired
        · exact Or.inl whole
        · exact Or.inr (if_pos expired)
  next idle =>
    have closed : (s.client i).reader.channelReaders = [] := by
      cases found : a.reader i with
      | none =>
        rw [found] at good
        exact good.follows
      | some c =>
        rw [found] at isActive
        exact absurd isActive idle
    exact absurd closed empty

theorem Inv.write {language : Language} {self : Owner} {postToDescendants : Bool} {channelName : Chars}
    {msg : List UInt8} {answers : List BpAnswer} (moderate : size.bytes ≤ 2^30) (inv : Inv size java s)
    (recent : Rmp.Protocol.Moderate s.shared)
    (stepped : next size java s (.writeEx language self postToDescendants channelName msg answers) = some t) :
    Inv size java t := by
  obtain ⟨a,related,log,goods⟩ := inv.related
  obtain ⟨⟨noZero,legal⟩,called⟩ := Option.ite_none_right_eq_some.mp stepped
  obtain ⟨out,done,ended⟩ := Option.bind_eq_some_iff.mp called
  split at ended
  next returned =>
    obtain rfl := Option.some.inj ended
    obtain ⟨b,stepped,after⟩ := (Mixed.simulates moderate).step s.shared _ _ a related
      ⟨recent,.wrote language self answers out legal done returned⟩
    cases stepped with
    | wrote =>
      refine inv.foreign [_] goods after (by rw [log]) ?_ rfl (fun _ _ => rfl) (fun _ _ => rfl)
      intro data member
      refine ⟨_,_,_,_,fun c inside => ?_,List.mem_singleton.mp member⟩
      exact bne_iff_ne.mp (List.all_eq_true.mp noZero c inside)
  next threw =>
    obtain rfl := Option.some.inj ended
    obtain ⟨b,stepped,after⟩ := (Mixed.simulates moderate).step s.shared _ _ a related
      ⟨recent,.gaveUp language self answers out legal done threw⟩
    cases stepped with
    | gaveUp =>
      have same := inv.foreign [] goods after (by rw [log,List.append_nil]) (by simp) rfl
        (fun _ _ => rfl) (fun _ _ => rfl)
      rwa [List.append_nil] at same
  next => contradiction

theorem Inv.step (moderate : size.bytes ≤ 2^30) (inv : Inv size java s)
    (recent : Rmp.Protocol.Moderate s.shared) (stepped : next size java s action = some t) : Inv size java t := by
  obtain ⟨a,related,log,goods⟩ := inv.related
  -- a call of another reader
  have call {j : Nat} {event : Event} {after : Rmp.Protocol.State} (foreign : java j = false)
      (taken : Mixed.Step size s.shared event after)
      (slots : after.ri.configMaxReaders = s.ri.configMaxReaders)
      (others : ∀ i, i ≠ j → after.readerPos i = s.shared.readerPos i)
      (cursors : ∀ b, Rmp.Broadcast.Step a event b → b.log = a.log ∧ ∀ i, i ≠ j → b.reader i = a.reader i) :
      Inv size java (s.resume after) := by
    obtain ⟨b,moved,after⟩ := (Mixed.simulates moderate).step s.shared _ _ a related ⟨recent,taken⟩
    obtain ⟨same,kept⟩ := cursors b moved
    have away (i : Nat) (own : java i = true) : i ≠ j := by
      rintro rfl
      rw [own] at foreign
      contradiction
    have whole := inv.foreign [] goods after (by rw [same,log,List.append_nil]) (by simp) slots
      (fun i own => others i (away i own)) (fun i own => kept i (away i own))
    rwa [List.append_nil] at whole
  cases action with
  | writeEx language self postToDescendants channelName msg answers => exact inv.write moderate recent stepped
  | activate j =>
    obtain ⟨⟨foreign,inside⟩,taken⟩ := Option.ite_none_right_eq_some.mp stepped
    obtain rfl := Option.some.inj taken
    refine call foreign (.activated .cpp inside) rfl (fun i away => Function.update_of_ne away _ _) ?_
    rintro b ⟨⟩
    exact ⟨rfl,fun i away => Function.update_of_ne away _ _⟩
  | deactivate j =>
    obtain ⟨⟨foreign,inside⟩,taken⟩ := Option.ite_none_right_eq_some.mp stepped
    obtain rfl := Option.some.inj taken
    refine call foreign (.deactivated .cpp inside) rfl (fun i away => rfl) ?_
    rintro b ⟨⟩
    exact ⟨rfl,fun i away => Function.update_of_ne away _ _⟩
  | readEx j passes =>
    obtain ⟨⟨foreign,active⟩,taken⟩ := Option.ite_none_right_eq_some.mp stepped
    obtain ⟨out,called,rfl⟩ := Option.map_eq_some_iff.mp taken
    refine call foreign (.read .cpp passes active out called) (slots_finishRead _ _ _) (fun i away => Function.update_of_ne away _ _) ?_
    intro b moved
    generalize out.result = result at moved
    generalize out.confirmed = confirmed at moved
    cases moved with
    | success | expired => exact ⟨rfl,fun i away => Function.update_of_ne away _ _⟩
  | createChannelReader j name handleDescendants =>
    obtain ⟨own,taken⟩ := Option.ite_none_right_eq_some.mp stepped
    obtain rfl := Option.some.inj taken
    refine inv.enqueued own (Nat.le_succ _) (fun id member => ?_)
    obtain rfl := List.mem_singleton.mp member
    exact ⟨le_rfl,Nat.lt_succ_self _⟩
  | closeChannelReader j id =>
    obtain ⟨own,taken⟩ := Option.ite_none_right_eq_some.mp stepped
    obtain rfl := Option.some.inj taken
    exact inv.enqueued own le_rfl (fun id member => absurd member List.not_mem_nil)
  | run j =>
    obtain ⟨own,taken⟩ := Option.ite_none_right_eq_some.mp stepped
    obtain rfl := Option.some.inj taken
    exact inv.enqueued own le_rfl (fun id member => absurd member List.not_mem_nil)
  | serialTask j =>
    simp only [next] at stepped
    split at stepped
    next => contradiction
    next task rest serial =>
      obtain ⟨own,taken⟩ := Option.ite_none_right_eq_some.mp stepped
      obtain rfl := Option.some.inj taken
      cases task with
      | addChannelReader c => exact inv.perform_added moderate recent own serial
      | removeChannelReader id => exact inv.perform_removed moderate recent own serial
      | run => exact inv.perform_ran own serial
  | rmpTask j passes =>
    obtain ⟨⟨own,_⟩,taken⟩ := Option.ite_none_right_eq_some.mp stepped
    exact (inv.readRmp moderate recent own taken).1

theorem reachable_inv (moderate : size.bytes ≤ 2^30)
    (reached : Reachable ((sys size java).restrict (fun s _ => Rmp.Protocol.Moderate s.shared)) s) :
    Inv size java s := by
  refine reached.invariant (Inv size java) ?_ ?_
  · rintro s ⟨config,log,idle,maxReaders,few,table,slots⟩
    obtain ⟨a,⟨empty,none⟩,related⟩ := (Mixed.simulates moderate).start s.shared ⟨config,maxReaders,few,table⟩
    refine ⟨by rw [log]; simp,by rw [table]; exact slots,a,related,empty.trans log.symm,fun i _ => ?_⟩
    rw [none i,idle i,log]
    exact ⟨rfl,le_rfl,List.nodup_nil,by simp [known,Subscribers.idle,waiting],rfl,
      by simp [Subscribers.idle],by simp [Subscribers.idle]⟩
  · rintro s action t inv ⟨recent,stepped⟩
    exact inv.step moderate recent stepped

end

section
variable {size : Rmp.RingSize} {java : Nat → Bool} {s t : State} {action : Action}

structure Bounded (java : Nat → Bool) (s : State) : Prop where
  slots : ∀ i, java i = true → i < s.ri.configMaxReaders.toNat
  idle : ∀ i, s.ri.configMaxReaders.toNat ≤ i → s.shared.isActive i = false

theorem Bounded.call {event : Event} (bounded : Bounded java s) (taken : Mixed.Step size s.shared event t.shared) :
    Bounded java t := by
  obtain ⟨slots,idle⟩ := bounded
  have kept : t.ri.configMaxReaders = s.ri.configMaxReaders ∧
      ∀ i, s.ri.configMaxReaders.toNat ≤ i → t.shared.isActive i = s.shared.isActive i := by
    rw [show t.ri = t.shared.ri from rfl]
    generalize t.shared = after at taken ⊢
    cases taken with
    | wrote | gaveUp => exact ⟨rfl,fun _ _ => rfl⟩
    | activated language inside =>
      rw [Mixed.activated_cpp]
      refine ⟨rfl,fun i away => ?_⟩
      rw [Rmp.Protocol.State.isActive_activate,if_neg]
      rintro rfl
      exact absurd inside (by exact not_lt.mpr away)
    | deactivated language inside =>
      rw [Mixed.deactivated_cpp]
      refine ⟨rfl,fun i away => ?_⟩
      rw [Rmp.Protocol.State.isActive_deactivate,if_neg]
      rintro rfl
      exact absurd inside (by exact not_lt.mpr away)
    | read => exact ⟨slots_finishRead _ _ _,fun i _ => Rmp.Protocol.State.isActive_finishRead _ _ _⟩
  refine ⟨?_,fun i away => ?_⟩
  · rw [kept.1]
    exact slots
  · rw [kept.1] at away
    rw [kept.2 i away]
    exact idle i away

/-- All that topics do to the ring and the table is to make calls of the stream protocol. -/
theorem calls_only (slots : ∀ i, java i = true → i < s.ri.configMaxReaders.toNat)
    (stepped : next size java s action = some t) :
    t.shared = s.shared ∨ ∃ event, Mixed.Step size s.shared event t.shared := by
  have call {event : Event} (taken : Mixed.Step size s.shared event t.shared) :
      t.shared = s.shared ∨ ∃ event, Mixed.Step size s.shared event t.shared := Or.inr ⟨event,taken⟩
  cases action with
  | writeEx language self postToDescendants channelName msg answers =>
    obtain ⟨⟨_,legal⟩,called⟩ := Option.ite_none_right_eq_some.mp stepped
    obtain ⟨out,done,ended⟩ := Option.bind_eq_some_iff.mp called
    split at ended
    next returned =>
      obtain rfl := Option.some.inj ended
      exact call (.wrote language self answers out legal done returned)
    next threw =>
      obtain rfl := Option.some.inj ended
      exact call (.gaveUp language self answers out legal done threw)
    next => contradiction
  | activate i =>
    obtain ⟨⟨_,inside⟩,taken⟩ := Option.ite_none_right_eq_some.mp stepped
    obtain rfl := Option.some.inj taken
    exact call (.activated .cpp inside)
  | deactivate i =>
    obtain ⟨⟨_,inside⟩,taken⟩ := Option.ite_none_right_eq_some.mp stepped
    obtain rfl := Option.some.inj taken
    exact call (.deactivated .cpp inside)
  | readEx i passes =>
    obtain ⟨⟨_,active⟩,taken⟩ := Option.ite_none_right_eq_some.mp stepped
    obtain ⟨out,called,rfl⟩ := Option.map_eq_some_iff.mp taken
    exact call (.read .cpp passes active out called)
  | createChannelReader i name handleDescendants | closeChannelReader i id | run i =>
    obtain ⟨_,taken⟩ := Option.ite_none_right_eq_some.mp stepped
    obtain rfl := Option.some.inj taken
    exact Or.inl (shared_enqueued _ _)
  | serialTask i =>
    simp only [next] at stepped
    split at stepped
    next => contradiction
    next task rest _ =>
      obtain ⟨own,taken⟩ := Option.ite_none_right_eq_some.mp stepped
      obtain rfl := Option.some.inj taken
      cases task with
      | addChannelReader c =>
        have shared := shared_added (s := s) (i := i) rest c
        split at shared
        next =>
          refine Or.inr ⟨.activated i,?_⟩
          rw [shared]
          exact .activated .java (slots i own)
        next => exact Or.inl shared
      | removeChannelReader id =>
        have shared := shared_removed (s := s) (i := i) rest id
        split at shared
        next =>
          refine Or.inr ⟨.deactivated i,?_⟩
          rw [shared]
          exact .deactivated .java (slots i own)
        next => exact Or.inl shared
      | run => exact Or.inl (shared_ran rest)
  | rmpTask i passes =>
    obtain ⟨_,taken⟩ := Option.ite_none_right_eq_some.mp stepped
    rw [State.readRmp] at taken
    split at taken
    next =>
      obtain rfl := Option.some.inj taken
      exact Or.inl (shared_idle _ _)
    next =>
      split at taken
      next active =>
        obtain ⟨out,called,ended⟩ := Option.bind_eq_some_iff.mp taken
        obtain ⟨_,mapped⟩ := Option.ite_none_right_eq_some.mp ended
        obtain ⟨calls,_,rfl⟩ := Option.map_eq_some_iff.mp mapped
        refine Or.inr ⟨.read i out.result out.confirmed,?_⟩
        rw [shared_finishRmp]
        exact .read .java passes (show s.shared.isActive i = true from active) out called
      next =>
        obtain rfl := Option.some.inj taken
        exact Or.inl (shared_idle _ (s.client i).failed)

theorem Bounded.step (bounded : Bounded java s) (stepped : next size java s action = some t) : Bounded java t := by
  rcases calls_only bounded.slots stepped with same | ⟨event,taken⟩
  · have table : t.ri = s.ri := congrArg Rmp.Protocol.State.ri same
    refine ⟨?_,?_⟩
    · rw [table]
      exact bounded.slots
    · rw [same,table]
      exact bounded.idle
  · exact bounded.call taken

def checked (s : State) : Bool :=
  (List.range s.ri.configMaxReaders.toNat).all (fun i => s.since i < 2^63)

end

def only (i : Nat) : Bool := i == 0

end Toroni.Java.Subscribers
