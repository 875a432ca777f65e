import Toroni.Tp.Members

/-! Which written messages each channel reader is offered, over all orders of the two queues of
its reader. -/
namespace Toroni.Tp.Dispatch
open Rmp Transition Pipeline

/-- The message with this index was written after the channel reader had been added and before it
was removed, and the filter accepts it for the channel reader. -/
def Due (log : List Message) (q : Process) (c : ChannelReader) (index : Nat) (data : List UInt8) : Prop :=
  (∃ since ≤ index, (c,since) ∈ q.joined) ∧ (∀ last, q.left c.id = some last → index < last) ∧
    ∃ m, log[index]? = some m ∧ Tp.Reader.filter c m.rbMsg = .accepted data

/-- Such a message is passed to the handler once when the position moves past it, and not before. -/
def Offered (log : List Message) (q : Process) : Prop :=
  ∀ c index data, Due log q c index data →
    q.invoked.filter (fun call => call.reader.id == c.id && call.index == index) =
      if index < q.read then [⟨c,index,data⟩] else []

/-- A task on the second queue was given every channel reader that is due a message in front of
the position, and the list is not refilled while a message in front of the position is due. -/
def allowed (s : State) : Action → Prop
  | .rmpTask p _ => s.isActive p = true → (s.process p).lag < 2^63 ∧
      ∀ captured, (s.process p).reader.rmp.head? = some captured →
        ∀ c index data, Due s.log (s.process p) c index data → (s.process p).read ≤ index → c ∈ captured
  | .serialTask p => ∀ new, (s.process p).reader.serial.head? = some (.addChannelReader new) →
      (s.process p).reader.channelReaders = [] →
        ∀ c index data, Due s.log (s.process p) c index data → index < (s.process p).read
  | _ => True

section
variable {size : RingSize} {s t : State} {p : Nat}

theorem recent_of_allowed (s : State) (a : Action) (condition : allowed s a) : Recent s a := by
  cases a with
  | rmpTask p passes => exact fun active => (condition active).1
  | _ => trivial

theorem Due.bound {log : List Message} {q : Process} {c : ChannelReader} {index : Nat} {data : List UInt8}
    (due : Due log q c index data) : index < log.length := by
  obtain ⟨_,_,m,found,_⟩ := due
  exact (List.getElem?_eq_some_iff.mp found).1

theorem none_called {isActive : Bool} {written : Nat} {q : Process} (settled : Settled isActive written q)
    {id index : Nat} (ahead : q.read ≤ index) :
    q.invoked.filter (fun call => call.reader.id == id && call.index == index) = [] := by
  refine List.filter_eq_nil_iff.mpr (fun call member => ?_)
  have behind := settled.called call member
  have away : call.index ≠ index := by omega
  simp [away]

theorem Offered.undisturbed {log : List Message} {q q' : Process} (offered : Offered log q)
    (same : Undisturbed q q') : Offered log q' := by
  intro c index data due
  rw [Due,same.joined,same.left] at due
  rw [same.invoked,same.read]
  exact offered c index data due

theorem Offered.written {isActive : Bool} {log more : List Message} {q : Process}
    (offered : Offered log q) (settled : Settled isActive log.length q) : Offered (log ++ more) q := by
  intro c index data due
  obtain ⟨joined,left,m,found,accepted⟩ := due
  by_cases old : index < log.length
  · rw [List.getElem?_append_left old] at found
    exact offered c index data ⟨joined,left,m,found,accepted⟩
  · have ahead : q.read ≤ index := settled.read.trans (by omega)
    rw [none_called settled ahead,if_neg (by omega)]

theorem Offered.added {log : List Message} {q q' : Process} {new : ChannelReader} (offered : Offered log q)
    (joined : q'.joined = q.joined ++ [(new,log.length)]) (left : q'.left = q.left)
    (invoked : q'.invoked = q.invoked)
    (read : q'.read = q.read ∨ q'.read = log.length ∧ ∀ c index data, Due log q c index data → index < q.read) :
    Offered log q' := by
  intro c index data due
  have bound := due.bound
  have old : Due log q c index data := by
    obtain ⟨⟨since,before,member⟩,rest⟩ := due
    rw [joined,List.mem_append,List.mem_singleton] at member
    rw [left] at rest
    rcases member with member | new
    · exact ⟨⟨since,before,member⟩,rest⟩
    · cases new
      omega
  rw [invoked,offered c index data old]
  rcases read with same | ⟨skipped,reached⟩
  · rw [same]
  · rw [if_pos (reached c index data old),if_pos (by omega)]

theorem Offered.removed {clock : Nat} {log : List Message} {q q' : Process} {id : Nat}
    (offered : Offered log q) (distinct : Distinct clock q) (joined : q'.joined = q.joined)
    (invoked : q'.invoked = q.invoked) (read : q'.read = q.read)
    (left : q'.left = if q.reader.channelReaders.any (fun c => c.id == id)
      then Function.update q.left id (some log.length) else q.left) : Offered log q' := by
  intro c index data due
  rw [invoked,read]
  apply offered
  obtain ⟨since,last,accepted⟩ := due
  rw [joined] at since
  refine ⟨since,fun before found => last before ?_,accepted⟩
  rw [left]
  split
  next present =>
    have away : c.id ≠ id := by
      rintro rfl
      obtain ⟨d,inside,equal⟩ := List.any_eq_true.mp present
      refine (distinct.gone _ _ found).2 ?_
      rw [← beq_iff_eq.mp equal]
      exact List.mem_map_of_mem (List.mem_append_left _ inside)
    rw [Function.update_of_ne away,found]
  next => exact found

/-- A task on the second queue calls the handlers that are due the messages it moves over. -/
theorem Offered.read {captured : List ChannelReader} {rest : List (List ChannelReader)}
    (offered : Offered s.log (s.process p)) (dispatched : Dispatched s p captured rest t)
    (distinct : (captured.map ChannelReader.id).Nodup)
    (given : s.isActive p = true → ∀ c index data, Due s.log (s.process p) c index data →
      (s.process p).read ≤ index → c ∈ captured) : Offered t.log (t.process p) := by
  intro c index data due
  rw [Due,dispatched.log,dispatched.joined,dispatched.left] at due
  obtain ⟨n,calls,none,moved,inside,called,invoked⟩ := dispatched.calls
  rw [invoked,moved,List.filter_append,offered c index data due]
  by_cases before : index < (s.process p).read
  · have later : calls.filter (fun call => call.reader.id == c.id && call.index == index) = [] := by
      refine List.filter_eq_nil_iff.mpr (fun call member => ?_)
      obtain ⟨_,k,_,_,place,_⟩ := Tp.Reader.mem_dispatchAll called member
      have away : call.index ≠ index := by omega
      simp [away]
    rw [later,if_pos before,if_pos (by omega)]
    rfl
  · rw [if_neg before,List.nil_append]
    by_cases reached : index < (s.process p).read + n
    · obtain ⟨k,rfl⟩ := Nat.exists_eq_add_of_le (Nat.le_of_not_lt before)
      have active : s.isActive p = true := by
        by_contra idle
        have zero := none (Bool.eq_false_iff.mpr idle)
        omega
      obtain ⟨_,_,m,found,accepted⟩ := id due
      have member := given active c _ data due (Nat.le_add_right _ _)
      have front : (((s.log.map Message.rbMsg).drop (s.process p).read).take n)[k]? = some m.rbMsg := by
        rw [List.getElem?_take_of_lt (by omega),List.getElem?_drop,List.getElem?_map,found]
        rfl
      rw [if_pos reached]
      exact Tp.Reader.filter_dispatchAll called distinct member front accepted
    · rw [if_neg reached]
      refine List.filter_eq_nil_iff.mpr (fun call member => ?_)
      obtain ⟨_,k,_,found,place,_⟩ := Tp.Reader.mem_dispatchAll called member
      have bound := (List.getElem?_eq_some_iff.mp found).1
      rw [List.length_take] at bound
      have away : call.index ≠ index := by omega
      simp [away]

theorem offered_step {a : Action} (inv : Inv size s) (distinct : ∀ p, Distinct s.clock (s.process p))
    (offered : ∀ p, Offered s.log (s.process p)) (condition : allowed s a) (stepped : next s a = some t)
    (p : Nat) : Offered t.log (t.process p) := by
  have quiet (same : Quiet s t) : Offered t.log (t.process p) :=
    same.log ▸ (offered p).undisturbed (same.process p)
  have perform (q : Nat) (rest : List (SerialTask ChannelReader)) (task : SerialTask ChannelReader)
      (changed : Offered s.log ((s.perform q rest task).process q)) :
      Offered (s.perform q rest task).log ((s.perform q rest task).process p) := by
    obtain ⟨_,log,others⟩ := perform_frame s q rest task
    rw [log]
    by_cases own : p = q
    · exact own ▸ changed
    · rw [(others p own).1]
      exact offered p
  have stocked := stocked_step inv.config (fun p => inv.stocked p) stepped
  cases effect stepped with
  | quiet same => exact quiet same
  | gaveUp _ _ _ same => exact quiet same
  | created => exact quiet (quiet_enqueueSerial _)
  | queued => exact quiet (quiet_enqueueSerial s.clock)
  | ran => exact quiet quiet_run
  | wrote =>
    rw [State.process_wrote]
    exact (offered p).written (inv.settled p)
  | @added q c rest serial =>
    refine perform q rest _ ?_
    by_cases empty : (s.process q).reader.channelReaders = []
    · rw [perform_add_first empty,State.process_set,if_pos rfl]
      refine (offered q).added rfl rfl rfl (Or.inr ⟨rfl,?_⟩)
      exact condition c (by rw [serial]; rfl) empty
    · rw [perform_add_more empty,State.process_set,if_pos rfl]
      exact (offered q).added rfl rfl rfl (Or.inl rfl)
  | @removed q id rest serial =>
    refine perform q rest _ ?_
    refine (offered q).removed (distinct q) ?_ ?_ ?_ (perform_left s q rest (.removeChannelReader id)) <;>
      simp only [State.perform,State.process_set,if_true]
  | @read q passes _ captured rest rmp done =>
    have recent : Recent s (.rmpTask q passes) := recent_of_allowed _ _ condition
    have dispatched := (dispatched_readRmp inv recent stocked done).1
    by_cases own : p = q
    · subst own
      refine (offered p).read dispatched ((distinct p).captured captured (by rw [rmp]; simp)).1 ?_
      exact fun active => (condition active).2 captured (by rw [rmp]; rfl)
    · rw [dispatched.others p own,dispatched.log]
      exact offered p

/-- In every run all of whose steps meet the condition, every message that a channel reader is due
is passed to its handler exactly once, when the position of the process moves past it. -/
theorem no_reader_skipped (reached : Reachable ((sys size).restrict allowed) s) (p : Nat) :
    Offered s.log (s.process p) := by
  revert p
  refine reached.invariant_with
    (fun s => Inv size s ∧ ∀ p, Distinct s.clock (s.process p)) (fun s => ∀ p, Offered s.log (s.process p)) ?_
    (fun s known => ⟨reachable_inv recent_of_allowed known,reachable_distinct recent_of_allowed known⟩) ?_
  · rintro s ⟨rb,info,_,_,rfl⟩ p c index data due
    exact absurd due.bound (Nat.not_lt_zero _)
  · rintro s a t ⟨inv,distinct⟩ offered ⟨condition,stepped⟩
    exact offered_step inv distinct offered condition stepped

end

def checked (s : State) : Action → Bool
  | .rmpTask p _ => (s.process p).lag < 2^63 && (s.process p).joined.all (fun joined =>
      ((s.process p).reader.rmp.headD []).contains joined.1)
  | .serialTask _ => s.log.isEmpty
  | _ => true

theorem allowed_of_checked (s : State) (a : Action) (passed : checked s a = true) : allowed s a := by
  cases a with
  | rmpTask p passes =>
    simp only [checked,Bool.and_eq_true,decide_eq_true_eq,List.all_eq_true] at passed
    refine fun _ => ⟨passed.1,fun captured head c index data due _ => ?_⟩
    obtain ⟨⟨since,_,member⟩,_⟩ := due
    have given := passed.2 _ member
    rw [List.headD_eq_head?_getD,head] at given
    exact List.contains_iff_mem.mp given
  | serialTask p =>
    intro new _ _ c index data due
    have bound := due.bound
    rw [List.isEmpty_iff.mp passed] at bound
    exact absurd bound (Nat.not_lt_zero _)
  | _ => trivial

/-- One channel reader, one message. -/
theorem no_reader_skipped_one_message : ∃ s : State, (s.process 0).invoked = [⟨⟨0,[97],false,0⟩,0,[7]⟩] ∧
    Offered s.log (s.process 0) := by
  obtain ⟨s,reached,saw⟩ := exec_reaches (sys ring64) checked next (fun _ _ _ step => step) start64_init
    [.createChannelReader 0 [97] false,.serialTask 0,.run 0,.serialTask 0,.createMessage 0 [97] [7] false,
      .post 0 0,.startWriter 0,.drain 0,.write 0 [],.rmpTask 0 3]
    (fun s => (s.process 0).invoked) [⟨⟨0,[97],false,0⟩,0,[7]⟩] rfl
  exact ⟨s,saw,no_reader_skipped (reached.weaken (fun s a _ => allowed_of_checked s a)) 0⟩

/-- The second channel reader is added after the first queue has captured the list, a message for
both is written, and the task with the captured list moves the position over it. -/
theorem reader_skipped : ∃ s : State, Reachable (sys ring64) s ∧
    ChannelReaderEventType.allChannelReadersExpired ∉ (s.process 0).reader.events ∧ ¬ Offered s.log (s.process 0) := by
  obtain ⟨s,reached,saw⟩ := exec_reaches (sys ring64) (fun _ _ => true) next (fun _ _ _ step => step)
    start64_init
    [.createChannelReader 0 [97] false,.serialTask 0,.run 0,.serialTask 0,.createChannelReader 0 [97] false,
      .serialTask 0,.createMessage 0 [97] [7] false,.post 0 0,.startWriter 0,.drain 0,.write 0 [],
      .rmpTask 0 3]
    (fun s => (s.log,(s.process 0).joined,(s.process 0).left 1,(s.process 0).read,(s.process 0).invoked,
      (s.process 0).reader.events))
    ([⟨[0,0,0,0,0,0,0,0,0,97,0,7],some ⟨2,[97],false⟩⟩],
      [(⟨0,[97],false,0⟩,0),(⟨1,[97],false,0⟩,0)],none,1,[⟨⟨0,[97],false,0⟩,0,[7]⟩],
      [.firstChannelReaderCreated]) rfl
  simp only [Prod.mk.injEq] at saw
  obtain ⟨log,joined,left,read,invoked,events⟩ := saw
  refine ⟨s,reached.unrestrict,by simp [events],fun offered => ?_⟩
  have due : Due s.log (s.process 0) ⟨1,[97],false,0⟩ 0 [7] := by
    refine ⟨⟨0,le_rfl,by simp [joined]⟩,fun last found => ?_,_,by rw [log]; rfl,by decide⟩
    rw [left] at found
    contradiction
  have once := offered _ _ _ due
  rw [invoked,read] at once
  simp at once

end Toroni.Tp.Dispatch
