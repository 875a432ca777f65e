import Toroni.Tp.Members

/-! Whether channel readers only receive messages that were created after them. -/
namespace Toroni.Tp.Generations
open Rmp Transition Pipeline TopicMsgBinarySerializer TopicMsgBinaryDeserializer

def Stale (m : Message) (c : ChannelReader) : Prop :=
  ∃ o, m.origin = some o ∧ o.born < c.id ∧
    topicMatches c.name c.handleDescendents o.channelName o.postToDescendants = true

def OnlyNewer (log : List Message) (q : Process) : Prop :=
  ∀ call ∈ q.invoked, ∀ m o, log[call.index]? = some m → m.origin = some o → call.reader.id ≤ o.born

def Current (log : List Message) (q : Process) : Prop :=
  ∀ c, Holds q c → ∀ index m, q.read ≤ index → log[index]? = some m → ¬ Stale m c

/-- A message is written while no active process has a channel reader for which it is stale, and
no message that is stale for a channel reader waits in front of the position when it joins others. -/
def allowed (s : State) : Action → Prop
  | .write p _ => ∀ m rest, (s.process p).writing = some (m :: rest) →
      ∀ q, s.isActive q = true → ∀ c, Holds (s.process q) c → ¬ Stale m c
  | .serialTask p => ∀ c, (s.process p).reader.serial.head? = some (.addChannelReader c) →
      (s.process p).reader.channelReaders ≠ [] →
        ∀ index m, (s.process p).read ≤ index → s.log[index]? = some m → ¬ Stale m c
  | .rmpTask p _ => s.isActive p = true → (s.process p).lag < 2^63
  | _ => True

section
variable {size : RingSize} {s t : State} {p : Nat}

theorem recent_of_allowed (s : State) (a : Action) (condition : allowed s a) : Recent s a := by
  cases a with
  | rmpTask p passes => exact condition
  | _ => trivial

theorem Current.mono {log : List Message} {q q' : Process} (current : Current log q)
    (held : ∀ c, Holds q' c → Holds q c) (read : q'.read = q.read) : Current log q' := by
  intro c holds index m ahead
  rw [read] at ahead
  exact current c (held c holds) index m ahead

theorem Current.caughtUp {log : List Message} {q : Process} (read : q.read = log.length) : Current log q := by
  intro c _ index m ahead found
  have bound := (List.getElem?_eq_some_iff.mp found).1
  omega

theorem matches_of_accepted {m : Message} {c : ChannelReader} {o : Origin} {data : List UInt8}
    (genuine : m.Genuine) (origin : m.origin = some o)
    (accepted : Tp.Reader.filter c m.rbMsg = .accepted data) :
    topicMatches c.name c.handleDescendents o.channelName o.postToDescendants = true := by
  obtain ⟨noZero,_,readerGen,payload,content⟩ := genuine o origin
  rw [Tp.Reader.filter,content,deserializeAndFilter_serialize noZero] at accepted
  split at accepted
  next both => exact both.2
  next => contradiction

theorem holds_perform {task : SerialTask ChannelReader} {rest : List (SerialTask ChannelReader)} {c : ChannelReader}
    (holds : Holds ((s.perform p rest task).process p) c) :
    Holds (s.process p) c ∨ task = .addChannelReader c := by
  obtain ⟨_,rmp,channelReaders⟩ := perform_reader s p rest task
  rcases holds with listed | ⟨captured,member,inside⟩
  · rw [channelReaders] at listed
    cases task with
    | addChannelReader d =>
      rcases List.mem_append.mp listed with old | new
      · exact Or.inl (Or.inl old)
      · exact Or.inr (by rw [List.mem_singleton.mp new])
    | removeChannelReader id => exact Or.inl (Or.inl (List.mem_of_mem_eraseP listed))
    | run => exact Or.inl (Or.inl listed)
  · rcases rmp with rmp | rmp
    · exact Or.inl (Or.inr ⟨captured,rmp ▸ member,inside⟩)
    · rw [rmp,List.mem_append,List.mem_singleton] at member
      rcases member with old | rfl
      · exact Or.inl (Or.inr ⟨captured,old,inside⟩)
      · exact Or.inl (Or.inl inside)

theorem current_perform {task : SerialTask ChannelReader} {rest : List (SerialTask ChannelReader)} (inv : Inv size s)
    (current : ∀ p, s.isActive p = true → Current s.log (s.process p))
    (serial : (s.process p).reader.serial = task :: rest) (condition : allowed s (.serialTask p)) (q : Nat)
    (active : (s.perform p rest task).isActive q = true) :
    Current (s.perform p rest task).log ((s.perform p rest task).process q) := by
  obtain ⟨_,log,others⟩ := perform_frame s p rest task
  rw [log]
  by_cases own : q = p
  · subst own
    cases task with
    | addChannelReader c =>
      by_cases empty : (s.process q).reader.channelReaders = []
      · rw [perform_add_first empty,State.process_set,if_pos rfl]
        exact .caughtUp rfl
      · have on := (inv.settled q).active.mpr empty
        intro d holds index m ahead found
        have same : ((s.perform q rest (.addChannelReader c)).process q).read = (s.process q).read := by
          rw [perform_add_more empty,State.process_set,if_pos rfl]
        rw [same] at ahead
        rcases holds_perform holds with old | new
        · exact current q on d old index m ahead found
        · obtain rfl := SerialTask.addChannelReader.inj new
          exact condition c (by rw [serial]; rfl) empty index m ahead found
    | removeChannelReader id =>
      have on : s.isActive q = true := by
        by_contra idle
        have none := mt (inv.settled q).active.mpr idle
        rw [not_not] at none
        rw [perform_remove_more (fun both => both.1 none)] at active
        exact idle active
      refine (current q on).mono (fun c holds => (holds_perform holds).resolve_right (by simp)) ?_
      simp only [State.perform,State.process_set,if_true]
    | run =>
      refine (current q active).mono (fun c holds => (holds_perform holds).resolve_right (by simp)) ?_
      simp only [State.perform,State.process_set,if_true]
  · obtain ⟨same,still⟩ := others q own
    rw [same]
    exact current q (still ▸ active)

theorem current_step {a : Action} (inv : Inv size s)
    (current : ∀ p, s.isActive p = true → Current s.log (s.process p)) (condition : allowed s a)
    (stepped : next s a = some t) (p : Nat) (active : t.isActive p = true) :
    Current t.log (t.process p) := by
  have quiet (same : Quiet s t) (channelReaders : (t.process p).reader.channelReaders =
      (s.process p).reader.channelReaders) (rmp : (t.process p).reader.rmp = (s.process p).reader.rmp) :
      Current t.log (t.process p) := by
    have on : s.isActive p = true := by rwa [State.isActive,same.info] at active
    rw [same.log]
    refine (current p on).mono (fun c holds => ?_) (same.process p).read
    rwa [Holds,channelReaders,rmp] at holds
  have stocked := stocked_step inv.config (fun p => inv.stocked p) stepped
  cases effect stepped with
  | quiet same _ kept => exact quiet same (by rw [kept.reader]) (by rw [kept.reader])
  | gaveUp _ _ _ same _ kept => exact quiet same (by rw [kept.reader]) (by rw [kept.reader])
  | @created q c =>
    have same := reader_enqueueSerial { s with clock := s.clock + 1 } q (.addChannelReader c) p
    exact quiet (quiet_enqueueSerial _) same.1 same.2
  | @queued q task =>
    have same := reader_enqueueSerial s q task p
    exact quiet (quiet_enqueueSerial s.clock) same.1 same.2
  | @wrote q m rest answers out writing =>
    rw [State.process_wrote]
    intro c holds index m' ahead found
    by_cases old : index < s.log.length
    · refine current p active c holds index m' ahead ?_
      rwa [State.wrote,State.set,List.getElem?_append_left old] at found
    · rw [State.wrote,State.set,List.getElem?_append_right (Nat.le_of_not_lt old)] at found
      obtain ⟨_,rfl⟩ := List.getElem?_eq_some_iff.mp found
      simpa [Stale,Message.written] using condition m rest writing p active c holds
  | @added q c rest serial => exact current_perform inv current serial condition p active
  | @removed q id rest serial => exact current_perform inv current serial condition p active
  | @ran q rest serial => exact current_perform inv current serial condition p active
  | @read q passes _ captured rest rmp done =>
    have dispatched := (dispatched_readRmp inv condition stocked done).1
    rw [dispatched.active] at active
    rw [dispatched.log]
    by_cases own : p = q
    · subst own
      obtain ⟨n,_,_,moved,_⟩ := dispatched.calls
      intro c holds index m ahead
      refine current p active c ?_ index m (by omega)
      rw [Holds,dispatched.channelReaders,dispatched.rmp] at holds
      rw [Holds,rmp]
      rcases holds with now | ⟨list,member,inside⟩
      · exact Or.inl now
      · exact Or.inr ⟨list,List.mem_cons_of_mem _ member,inside⟩
    · rw [dispatched.others p own]
      exact current p active

theorem newer_step {a : Action} (inv : Inv size s)
    (current : ∀ p, s.isActive p = true → Current s.log (s.process p))
    (newer : ∀ p, OnlyNewer s.log (s.process p)) (condition : allowed s a) (stepped : next s a = some t)
    (p : Nat) : OnlyNewer t.log (t.process p) := by
  have same (log : t.log = s.log) (invoked : (t.process p).invoked = (s.process p).invoked) :
      OnlyNewer t.log (t.process p) := by
    rw [OnlyNewer,log,invoked]
    exact newer p
  have quiet (still : Quiet s t) : OnlyNewer t.log (t.process p) := same still.log (still.process p).invoked
  have perform (q : Nat) (rest : List (SerialTask ChannelReader)) (task : SerialTask ChannelReader) (now : t = s.perform q rest task) :
      OnlyNewer t.log (t.process p) := by
    subst now
    obtain ⟨_,log,others⟩ := perform_frame s q rest task
    by_cases own : p = q
    · exact same log (own ▸ perform_invoked s q rest task)
    · exact same log (by rw [(others p own).1])
  have stocked := stocked_step inv.config (fun p => inv.stocked p) stepped
  cases effect stepped with
  | quiet still => exact quiet still
  | gaveUp _ _ _ still => exact quiet still
  | created => exact quiet (quiet_enqueueSerial _)
  | queued => exact quiet (quiet_enqueueSerial s.clock)
  | added => exact perform _ _ _ rfl
  | removed => exact perform _ _ _ rfl
  | ran => exact perform _ _ _ rfl
  | wrote =>
    rw [State.process_wrote]
    intro call member m o found
    have settled := inv.settled p
    have behind := (settled.called call member).trans_le settled.read
    rw [State.wrote,State.set,List.getElem?_append_left behind] at found
    exact newer p call member m o found
  | @read q passes _ captured rest rmp done =>
    have dispatched := (dispatched_readRmp inv condition stocked done).1
    by_cases own : p = q
    · subst own
      obtain ⟨calls,invoked,new⟩ := dispatched.new_calls
      intro call member m o found origin
      rw [dispatched.log] at found
      rw [invoked] at member
      rcases List.mem_append.mp member with old | member
      · exact newer p call old m o found origin
      · obtain ⟨active,inside,ahead,m',there,accepted⟩ := new call member
        obtain rfl := Option.some.inj (there.symm.trans found)
        have matching := matches_of_accepted (inv.logged m' (List.mem_of_getElem? found)) origin accepted
        have fresh := current p active call.reader (Or.inr ⟨captured,by rw [rmp]; simp,inside⟩) call.index m'
          ahead found
        exact Nat.le_of_not_lt (fun older => fresh ⟨o,origin,older,matching⟩)
    · exact same dispatched.log (by rw [dispatched.others p own])

/-- In every run all of whose steps meet the condition, no handler is called for a message that
was created before its channel reader. -/
theorem only_newer_messages (reached : Reachable ((sys size).restrict allowed) s) (p : Nat) :
    OnlyNewer s.log (s.process p) := by
  have both : (∀ p, s.isActive p = true → Current s.log (s.process p)) ∧
      ∀ p, OnlyNewer s.log (s.process p) := by
    refine reached.invariant_with (Inv size) (fun s =>
      (∀ p, s.isActive p = true → Current s.log (s.process p)) ∧ ∀ p, OnlyNewer s.log (s.process p))
      ?_ (fun s => reachable_inv recent_of_allowed) ?_
    · rintro s ⟨rb,info,_,_,rfl⟩
      refine ⟨fun p _ => .caughtUp rfl,fun p => ?_⟩
      rintro call ⟨⟩
    · rintro s a t inv ⟨current,newer⟩ ⟨condition,stepped⟩
      exact ⟨current_step inv current condition stepped,newer_step inv current newer condition stepped⟩
  exact both.2 p

end

def checked (s : State) : Action → Bool
  | .write p _ => (s.process p).writing.all (fun batch =>
      batch.all (fun m => m.origin.all (fun o => o.born + 1 == s.clock)))
  | .serialTask _ => s.log.isEmpty
  | .rmpTask p _ => (s.process p).lag < 2^63
  | _ => true

theorem recent_of_checked (s : State) (a : Action) (passed : checked s a = true) : Recent s a := by
  cases a with
  | rmpTask p passes => exact fun _ => by simpa [checked] using passed
  | _ => trivial

theorem allowed_of_checked {size : RingSize} (s : State) (a : Action)
    (reached : Reachable ((sys size).restrict (fun s a => checked s a = true)) s)
    (passed : checked s a = true) : allowed s a := by
  cases a with
  | write p answers =>
    intro m rest writing q _ c holds
    rintro ⟨o,origin,older,_⟩
    simp only [checked,writing,Option.all_some,List.all_cons,origin,Bool.and_eq_true,beq_iff_eq] at passed
    have newest := passed.1
    have created := (reachable_distinct recent_of_checked reached q).holds holds
    omega
  | serialTask p =>
    intro c _ _ index m _ found
    rw [List.isEmpty_iff.mp passed] at found
    contradiction
  | rmpTask p passes => exact recent_of_checked s _ passed
  | _ => trivial

/-- One channel reader, and a message created after it. -/
theorem only_newer_messages_one_message : ∃ s : State, (s.process 0).invoked = [⟨⟨0,[97],false,0⟩,0,[7]⟩] ∧
    OnlyNewer s.log (s.process 0) := by
  obtain ⟨s,reached,saw⟩ := exec_reaches (sys ring64) checked next (fun _ _ _ step => step) start64_init
    [.createChannelReader 0 [97] false,.serialTask 0,.run 0,.serialTask 0,.createMessage 0 [97] [7] false,
      .post 0 0,.startWriter 0,.drain 0,.write 0 [],.rmpTask 0 3]
    (fun s => (s.process 0).invoked) [⟨⟨0,[97],false,0⟩,0,[7]⟩] rfl
  exact ⟨s,saw,only_newer_messages (reached.weaken allowed_of_checked) 0⟩

/-- A message is created, then a channel reader; the message is posted and read. -/
theorem older_message_received : ∃ s : State, Reachable (sys ring64) s ∧ ¬ OnlyNewer s.log (s.process 0) := by
  obtain ⟨s,reached,saw⟩ := exec_reaches (sys ring64) (fun _ _ => true) next (fun _ _ _ step => step)
    start64_init
    [.createMessage 0 [97] [7] false,.createChannelReader 0 [97] false,.serialTask 0,.post 0 0,
      .startWriter 0,.drain 0,.write 0 [],.run 0,.serialTask 0,.rmpTask 0 3]
    (fun s => (s.log,(s.process 0).invoked))
    ([⟨[0,0,0,0,0,0,0,0,0,97,0,7],some ⟨0,[97],false⟩⟩],[⟨⟨1,[97],false,0⟩,0,[7]⟩]) rfl
  obtain ⟨log,invoked⟩ := Prod.mk.inj saw
  refine ⟨s,reached.unrestrict,fun newer => ?_⟩
  have born := newer ⟨⟨1,[97],false,0⟩,0,[7]⟩ (by simp [invoked]) _ _ (by rw [log]; rfl) rfl
  exact absurd born (by decide)

end Toroni.Tp.Generations
