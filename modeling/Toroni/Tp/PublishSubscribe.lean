import Toroni.Library.Refinement
import Toroni.Library.Stretch
import Toroni.Tp.Members

/-! The pipeline from `Post` to the handlers: in which order messages come into the one log, and
which of them each channel reader has been handed. -/
namespace Toroni.Tp.PublishSubscribe
open Rmp Transition Pipeline Writer TopicMsgBinaryDeserializer.Filtered

/-- `written` and `dropped` are what becomes of the messages that a running `ProcWriter` has drained:
the next one is written, or the handler throws and they are all lost. -/
inductive Label
  | posted (p : Nat) (m : Message)
  | written (p : Nat) (m : Message)
  | dropped (p : Nat) (batch : List Message)
  deriving DecidableEq

def view (s : State) : Action → Option Label
  | .post p k => (s.process p).messages[k]?.map (.posted p)
  | .postBytes p rbMsg => some (.posted p ⟨rbMsg,none⟩)
  | .write p answers =>
    match (s.process p).writing with
    | some (m :: rest) =>
      if (writeEx p s.rb (fun _ => s.info.rmpReaderInfo) m.written.rbMsg answers).any
          (fun out => out.result = .threw)
      then some (.dropped p (m :: rest)) else some (.written p m)
    | _ => none
  | _ => none

def Label.writes : Label → List Message
  | written _ m => [m.written]
  | _ => []

def pending (q : Process) : List Message := q.writing.getD [] ++ q.queue.queue

section
variable {size : RingSize} {s t : State} {p : Nat} {a : Action}

end

def hears (c : ChannelReader) (m : Message) : Option (List UInt8) := payload (Tp.Reader.filter c m.rbMsg)

def heard (c : ChannelReader) (log : List Message) : List (List UInt8) := log.filterMap (hears c)

def inbox (q : Process) (c : ChannelReader) : List (List UInt8) := handed ChannelReader.id c.id q.invoked

/-- The task at the head of the second queue that finds the slot active passes no message over a channel
reader that has been added since it captured its list and would accept it, and calls none that has
been removed since. -/
def allowed (s : State) : Action → Prop
  | .rmpTask p _ => s.isActive p = true → (s.process p).lag < 2^63 ∧
      ∀ captured, (s.process p).reader.rmp.head? = some captured →
        (∀ c since, (c,since) ∈ (s.process p).joined → (s.process p).left c.id = none →
          c.id ∉ captured.map ChannelReader.id →
            heard c (s.log.drop (max since (s.process p).read)) = []) ∧
        ∀ c ∈ captured, (s.process p).left c.id ≠ none → heard c (s.log.drop (s.process p).read) = []
  | _ => True

structure Enrolled (clock written : Nat) (q : Process) : Prop where
  unique : (q.joined.map (fun entry => entry.1.id)).Nodup
  fresh : ∀ c since, (c,since) ∈ q.joined → c.id ∉ (waiting q.reader.serial).map ChannelReader.id
  known : ∀ c, Holds q c → ∃ since, (c,since) ∈ q.joined
  called : ∀ call ∈ q.invoked, ∃ since, (call.reader,since) ∈ q.joined
  present : ∀ c since, (c,since) ∈ q.joined → q.left c.id = none → c ∈ q.reader.channelReaders
  old : ∀ c since, (c,since) ∈ q.joined → c.id < clock ∧ since ≤ written

def Lined (rmp : List (List ChannelReader)) (c : ChannelReader) (early : Prop) : Prop :=
  ∃ before after, rmp = before ++ after ∧ (∀ captured ∈ before, c.id ∉ captured.map ChannelReader.id) ∧
    (∀ captured ∈ after, c ∈ captured) ∧ (before ≠ [] → early)

structure Served (log : List Message) (q : Process) (c : ChannelReader) (since : Nat) : Prop where
  stretch : ∃ first last, first ≤ since ∧ Stretch (hears c) log (inbox q c) first last ∧
    (q.left c.id = none → last = q.read) ∧ ∀ removed, q.left c.id = some removed → last ≤ removed
  lists : q.left c.id = none → Lined q.reader.rmp c (inbox q c = [])

structure Good (clock : Nat) (log : List Message) (q : Process) : Prop where
  enrolled : Enrolled clock log.length q
  served : ∀ c since, (c,since) ∈ q.joined → Served log q c since

section
variable {size : RingSize} {s t : State} {p : Nat} {a : Action} {c : ChannelReader} {since clock clock' written written' : Nat}
  {log more : List Message} {q q' : Process}

theorem recent_of_allowed (s : State) (a : Action) (condition : allowed s a) : Recent s a := by
  cases a with
  | rmpTask p passes => exact fun active => (condition active).1
  | _ => trivial

theorem inbox_of_invoked (same : q'.invoked = q.invoked) (c : ChannelReader) : inbox q' c = inbox q c := by
  rw [inbox,inbox,same]

/-- No channel reader is added, and those that are not removed stay in the list. -/
theorem Enrolled.same (enrolled : Enrolled clock written q) (later : clock ≤ clock') (grown : written ≤ written')
    (joined : q'.joined = q.joined)
    (fresh : ∀ c since, (c,since) ∈ q.joined → c.id ∉ (waiting q'.reader.serial).map ChannelReader.id)
    (known : ∀ c, Holds q' c → ∃ since, (c,since) ∈ q.joined)
    (called : ∀ call ∈ q'.invoked, ∃ since, (call.reader,since) ∈ q.joined)
    (present : ∀ c since, (c,since) ∈ q.joined → q'.left c.id = none → c ∈ q'.reader.channelReaders) :
    Enrolled clock' written' q' := by
  rw [← joined] at fresh known called present
  refine ⟨?_,fresh,known,called,present,?_⟩
  · rw [joined]
    exact enrolled.unique
  · rw [joined]
    intro c since member
    obtain ⟨older,before⟩ := enrolled.old c since member
    exact ⟨older.trans_le later,before.trans grown⟩

/-- The readers' part of the process is the same, and the log may have grown. -/
theorem Good.frame (good : Good clock log q) (later : clock ≤ clock')
    (channelReaders : q'.reader.channelReaders = q.reader.channelReaders)
    (rmp : q'.reader.rmp = q.reader.rmp)
    (fresh : ∀ c since, (c,since) ∈ q.joined → c.id ∉ (waiting q'.reader.serial).map ChannelReader.id)
    (joined : q'.joined = q.joined) (left : q'.left = q.left) (invoked : q'.invoked = q.invoked)
    (read : q'.read = q.read) : Good clock' (log ++ more) q' := by
  obtain ⟨enrolled,served⟩ := good
  refine ⟨enrolled.same later (by simp) joined fresh ?_ ?_ ?_,?_⟩
  · intro c holds
    apply enrolled.known
    rwa [Holds,channelReaders,rmp] at holds
  · rw [invoked]
    exact enrolled.called
  · rw [left,channelReaders]
    exact enrolled.present
  · rw [joined]
    intro c since member
    obtain ⟨⟨first,last,start,stretch,upTo,ended⟩,lists⟩ := served c since member
    have kept := inbox_of_invoked invoked c
    refine ⟨⟨first,last,start,?_,?_,?_⟩,?_⟩
    · rw [kept]
      exact stretch.grow more
    · rw [left,read]
      exact upTo
    · rw [left]
      exact ended
    · rw [left,rmp,kept]
      exact lists

theorem perform_joined (s : State) (p : Nat) (rest : List (SerialTask ChannelReader)) (task : SerialTask ChannelReader) :
    ((s.perform p rest task).process p).joined = match task with
      | .addChannelReader c => (s.process p).joined ++ [(c,s.log.length)]
      | _ => (s.process p).joined := by
  cases task <;> simp only [State.perform,State.process_set,if_true]

theorem perform_read (s : State) (p : Nat) (rest : List (SerialTask ChannelReader)) (task : SerialTask ChannelReader) :
    ((s.perform p rest task).process p).read = match task with
      | .addChannelReader _ => if (s.process p).reader.channelReaders = [] then s.log.length else (s.process p).read
      | _ => (s.process p).read := by
  cases task <;> simp only [State.perform,State.process_set,if_true]

theorem Lined.captured {rmp rmp' : List (List ChannelReader)} {list : List ChannelReader} {early : Prop}
    (lined : Lined rmp c early) (grown : rmp' = rmp ∨ rmp' = rmp ++ [list]) (member : c ∈ list) :
    Lined rmp' c early := by
  rcases grown with rfl | rfl
  · exact lined
  · obtain ⟨before,after,rfl,without,within,early⟩ := lined
    refine ⟨before,after ++ [list],by rw [List.append_assoc],without,?_,early⟩
    intro captured inside
    rcases List.mem_append.mp inside with old | new
    · exact within captured old
    · rw [List.mem_singleton.mp new]
      exact member

theorem Enrolled.holds (enrolled : Enrolled clock written q)
    (rmp : q'.reader.rmp = q.reader.rmp ∨ q'.reader.rmp = q.reader.rmp ++ [q.reader.channelReaders])
    {captured : List ChannelReader} (listed : captured ∈ q'.reader.rmp) (inside : c ∈ captured) :
    ∃ since, (c,since) ∈ q.joined := by
  apply enrolled.known
  rcases rmp with same | grown
  · rw [same] at listed
    exact Or.inr ⟨captured,listed,inside⟩
  · rw [grown,List.mem_append,List.mem_singleton] at listed
    rcases listed with old | rfl
    · exact Or.inr ⟨captured,old,inside⟩
    · exact Or.inl inside

/-- A task of the first queue hands nothing over, and moves no position of channel readers that it keeps. -/
theorem Served.kept {list : List ChannelReader} (served : Served log q c since)
    (stays : q'.left c.id = none → q.left c.id = none)
    (gone : ∀ removed, q'.left c.id = some removed → q.left c.id = some removed ∨ removed = log.length)
    (invoked : q'.invoked = q.invoked) (read : q.left c.id = none → q'.read = q.read)
    (rmp : q'.reader.rmp = q.reader.rmp ∨ q'.reader.rmp = q.reader.rmp ++ [list])
    (listed : q.left c.id = none → c ∈ list) : Served log q' c since := by
  obtain ⟨⟨first,last,start,stretch,upTo,ended⟩,lists⟩ := served
  rw [← inbox_of_invoked invoked c] at stretch lists
  refine ⟨⟨first,last,start,stretch,fun still => ?_,fun removed found => ?_⟩,fun still => ?_⟩
  · rw [read (stays still)]
    exact upTo (stays still)
  · rcases gone removed found with old | rfl
    · exact ended removed old
    · exact stretch.inside
  · exact (lists (stays still)).captured rmp (listed (stays still))

theorem Good.ran {rest : List (SerialTask ChannelReader)} (good : Good s.clock s.log (s.process p))
    (serial : (s.process p).reader.serial = .run :: rest) :
    Good s.clock s.log ((s.perform p rest .run).process p) := by
  obtain ⟨serial',rmp,channelReaders⟩ := perform_reader s p rest .run
  have left := perform_left s p rest .run
  have invoked := perform_invoked s p rest .run
  have joined := perform_joined s p rest .run
  have read := perform_read s p rest .run
  generalize (s.perform p rest .run).process p = q at *
  dsimp only at channelReaders left joined read
  obtain ⟨enrolled,served⟩ := good
  refine ⟨enrolled.same le_rfl le_rfl joined ?_ ?_ ?_ ?_,?_⟩
  · rw [serial']
    intro c since member
    have fresh := enrolled.fresh c since member
    rwa [serial] at fresh
  · rintro c (listed | ⟨captured,listed,inside⟩)
    · exact enrolled.known c (Or.inl (channelReaders ▸ listed))
    · exact enrolled.holds rmp listed inside
  · rw [invoked]
    exact enrolled.called
  · rw [left,channelReaders]
    exact enrolled.present
  · rw [joined]
    intro c since member
    refine (served c since member).kept ?_ ?_ invoked (fun _ => read) rmp (enrolled.present c since member)
    · rw [left]
      exact id
    · rw [left]
      exact fun _ found => Or.inl found

theorem Enrolled.apart {d : ChannelReader} {rest : List (SerialTask ChannelReader)}
    (enrolled : Enrolled clock written q) (serial : q.reader.serial = .addChannelReader d :: rest)
    (member : (c,since) ∈ q.joined) : c.id ≠ d.id ∧ c.id ∉ (waiting rest).map ChannelReader.id := by
  have fresh := enrolled.fresh c since member
  rw [serial,waiting,List.map_cons,List.mem_cons,not_or] at fresh
  exact fresh

theorem Enrolled.added {d : ChannelReader} {rest : List (SerialTask ChannelReader)}
    (enrolled : Enrolled clock written q) (distinct : Distinct clock q)
    (serial : q.reader.serial = .addChannelReader d :: rest) (serial' : q'.reader.serial = rest)
    (channelReaders : q'.reader.channelReaders = q.reader.channelReaders ++ [d])
    (rmp : q'.reader.rmp = q.reader.rmp ∨ q'.reader.rmp = q.reader.rmp ++ [q.reader.channelReaders])
    (joined : q'.joined = q.joined ++ [(d,written)]) (left : q'.left = q.left)
    (invoked : q'.invoked = q.invoked) : Enrolled clock written q' := by
  have all := distinct.distinct
  rw [members,serial,waiting,List.map_append,List.map_cons] at all
  obtain ⟨_,new,_⟩ := List.nodup_append.mp all
  have grown (c : ChannelReader) (known : ∃ since, (c,since) ∈ q.joined) :
      ∃ since, (c,since) ∈ q.joined ++ [(d,written)] := by
    obtain ⟨since,member⟩ := known
    exact ⟨since,List.mem_append_left _ member⟩
  have entries (c : ChannelReader) (since : Nat) (member : (c,since) ∈ q.joined ++ [(d,written)]) :
      (c,since) ∈ q.joined ∨ c = d ∧ since = written := by
    rw [List.mem_append,List.mem_singleton] at member
    exact member.imp_right (fun same => ⟨congrArg Prod.fst same,congrArg Prod.snd same⟩)
  rw [← joined] at grown entries
  refine ⟨?_,?_,?_,?_,?_,?_⟩
  · rw [joined,List.map_append]
    refine List.nodup_append.mpr ⟨enrolled.unique,List.nodup_singleton _,?_⟩
    intro id old id' single
    obtain ⟨⟨c,since⟩,member,rfl⟩ := List.mem_map.mp old
    rw [List.mem_singleton.mp single]
    exact (enrolled.apart serial member).1
  · rw [serial']
    intro c since member
    rcases entries c since member with old | ⟨rfl,_⟩
    · exact (enrolled.apart serial old).2
    · exact (List.nodup_cons.mp new).1
  · rintro c (listed | ⟨captured,listed,inside⟩)
    · rw [channelReaders,List.mem_append,List.mem_singleton] at listed
      rcases listed with old | rfl
      · exact grown c (enrolled.known c (Or.inl old))
      · rw [joined]
        exact ⟨written,by simp⟩
    · exact grown c (enrolled.holds rmp listed inside)
  · rw [invoked]
    exact fun call member => grown _ (enrolled.called call member)
  · rw [left,channelReaders]
    intro c since member still
    rcases entries c since member with old | ⟨rfl,_⟩
    · exact List.mem_append_left _ (enrolled.present c since old still)
    · simp
  · intro c since member
    rcases entries c since member with old | ⟨rfl,rfl⟩
    · exact enrolled.old c since old
    · refine ⟨distinct.fresh c ?_,le_rfl⟩
      rw [members,serial,waiting]
      simp

/-- A channel reader that is added now is in no list that was captured before. -/
theorem Served.new (silent : inbox q c = []) (bound : q.read ≤ log.length) (stays : q.left c.id = none)
    (without : ∀ captured ∈ q.reader.rmp, c.id ∉ captured.map ChannelReader.id) :
    Served log q c log.length := by
  refine ⟨⟨q.read,q.read,bound,?_,fun _ => rfl,?_⟩,fun _ => ?_⟩
  · rw [silent]
    exact .start bound
  · rw [stays]
    simp
  · exact ⟨q.reader.rmp,[],(List.append_nil _).symm,without,by simp,fun _ => silent⟩

theorem Good.added {d : ChannelReader} {rest : List (SerialTask ChannelReader)} (good : Good s.clock s.log (s.process p))
    (distinct : Distinct s.clock (s.process p)) (within : (s.process p).read ≤ s.log.length)
    (serial : (s.process p).reader.serial = .addChannelReader d :: rest) :
    Good s.clock s.log ((s.perform p rest (.addChannelReader d)).process p) := by
  obtain ⟨serial',rmp,channelReaders⟩ := perform_reader s p rest (.addChannelReader d)
  have left := perform_left s p rest (.addChannelReader d)
  have invoked := perform_invoked s p rest (.addChannelReader d)
  have joined := perform_joined s p rest (.addChannelReader d)
  have read := perform_read s p rest (.addChannelReader d)
  generalize (s.perform p rest (.addChannelReader d)).process p = q at *
  dsimp only at channelReaders left joined read
  obtain ⟨enrolled,served⟩ := good
  refine ⟨enrolled.added distinct serial serial' channelReaders rmp joined left invoked,?_⟩
  intro c since member
  rw [joined,List.mem_append,List.mem_singleton] at member
  rcases member with old | new
  · refine (served c since old).kept ?_ ?_ invoked (fun still => ?_) rmp (enrolled.present c since old)
    · rw [left]
      exact id
    · rw [left]
      exact fun _ found => Or.inl found
    · rw [read,if_neg (List.ne_nil_of_mem (enrolled.present c since old still))]
  · obtain ⟨rfl,rfl⟩ := Prod.mk.inj new
    refine Served.new ?_ ?_ ?_ ?_
    · rw [inbox_of_invoked invoked]
      apply handed_none
      intro call member
      obtain ⟨since,known⟩ := enrolled.called call member
      exact (enrolled.apart serial known).1
    · rw [read]
      split
      · exact le_rfl
      · exact within
    · rw [left,Option.eq_none_iff_forall_not_mem]
      intro last found
      refine (distinct.gone c.id last found).2 ?_
      rw [members,serial,waiting]
      simp
    · intro captured listed inside
      obtain ⟨e,member,same⟩ := List.mem_map.mp inside
      obtain ⟨since,known⟩ := enrolled.holds rmp listed member
      exact (enrolled.apart serial known).1 same

theorem Good.removed {id : Nat} {rest : List (SerialTask ChannelReader)} (good : Good s.clock s.log (s.process p))
    (serial : (s.process p).reader.serial = .removeChannelReader id :: rest) :
    Good s.clock s.log ((s.perform p rest (.removeChannelReader id)).process p) := by
  obtain ⟨serial',rmp,channelReaders⟩ := perform_reader s p rest (.removeChannelReader id)
  have left := perform_left s p rest (.removeChannelReader id)
  have invoked := perform_invoked s p rest (.removeChannelReader id)
  have joined := perform_joined s p rest (.removeChannelReader id)
  have read := perform_read s p rest (.removeChannelReader id)
  generalize (s.perform p rest (.removeChannelReader id)).process p = q at *
  dsimp only at channelReaders left joined read
  obtain ⟨enrolled,served⟩ := good
  -- a channel reader that has not been removed now is neither the one the task names nor was removed before
  have stays (c : ChannelReader) (since : Nat) (member : (c,since) ∈ (s.process p).joined)
      (still : q.left c.id = none) : (s.process p).left c.id = none ∧ c.id ≠ id := by
    rw [left] at still
    split at still
    next present =>
      by_cases own : c.id = id
      · rw [own,Function.update_self] at still
        contradiction
      · rw [Function.update_of_ne own] at still
        exact ⟨still,own⟩
    next absent =>
      refine ⟨still,fun own => absent ?_⟩
      exact List.any_eq_true.mpr ⟨c,enrolled.present c since member still,by simpa using own⟩
  refine ⟨enrolled.same le_rfl le_rfl joined ?_ ?_ ?_ ?_,?_⟩
  · rw [serial']
    intro c since member
    have fresh := enrolled.fresh c since member
    rwa [serial] at fresh
  · rintro c (listed | ⟨captured,listed,inside⟩)
    · rw [channelReaders] at listed
      exact enrolled.known c (Or.inl (List.mem_of_mem_eraseP listed))
    · exact enrolled.holds rmp listed inside
  · rw [invoked]
    exact enrolled.called
  · rw [channelReaders]
    intro c since member still
    obtain ⟨before,away⟩ := stays c since member still
    exact (List.mem_eraseP_of_neg (by simpa using away)).mpr (enrolled.present c since member before)
  · rw [joined]
    intro c since member
    refine (served c since member).kept (fun still => (stays c since member still).1) (fun removed gone => ?_)
      invoked (fun _ => read) rmp (enrolled.present c since member)
    rw [left] at gone
    split at gone
    next =>
      by_cases own : c.id = id
      · rw [own,Function.update_self] at gone
        exact Or.inr (Option.some.inj gone).symm
      · rw [Function.update_of_ne own] at gone
        exact Or.inl gone
    next => exact Or.inl gone

theorem heard_calls {captured : List ChannelReader} {calls : List (Invocation ChannelReader)} {read n : Nat}
    (called : Tp.Reader.dispatchAll captured read (((log.map Message.rbMsg).drop read).take n) = some calls)
    (apart : (captured.map ChannelReader.id).Nodup) (member : c ∈ captured) :
    handed ChannelReader.id c.id calls = heard c ((log.drop read).take n) := by
  rw [Tp.Reader.handed_dispatchAll called apart member,← List.map_drop,← List.map_take,List.filterMap_map,heard]
  rfl

theorem heard_ne_nil {index : Nat} {m : Message} {data : List UInt8} {read : Nat} (ahead : read ≤ index)
    (found : log[index]? = some m) (accepted : Tp.Reader.filter c m.rbMsg = .accepted data) :
    heard c (log.drop read) ≠ [] := by
  obtain ⟨k,rfl⟩ := Nat.exists_eq_add_of_le ahead
  apply List.ne_nil_of_mem
  refine List.mem_filterMap.mpr ⟨m,List.mem_of_getElem? (i := k) ?_,by rw [hears,accepted,payload]⟩
  rw [List.getElem?_drop,found]

theorem Enrolled.read {captured : List ChannelReader} {rest : List (List ChannelReader)}
    {calls : List (Invocation ChannelReader)} (enrolled : Enrolled clock log.length q)
    (rmp : q.reader.rmp = captured :: rest) (rmp' : q'.reader.rmp = rest)
    (channelReaders : q'.reader.channelReaders = q.reader.channelReaders)
    (serial : q'.reader.serial = q.reader.serial) (joined : q'.joined = q.joined) (left : q'.left = q.left)
    (invoked : q'.invoked = q.invoked ++ calls) (listed : ∀ call ∈ calls, call.reader ∈ captured) :
    Enrolled clock log.length q' := by
  refine enrolled.same le_rfl le_rfl joined ?_ ?_ ?_ ?_
  · rw [serial]
    exact enrolled.fresh
  · rintro c (listed | ⟨list,listed,inside⟩)
    · exact enrolled.known c (Or.inl (channelReaders ▸ listed))
    · rw [rmp'] at listed
      exact enrolled.known c (Or.inr ⟨list,by rw [rmp]; exact List.mem_cons_of_mem _ listed,inside⟩)
  · rw [invoked]
    intro call member
    rcases List.mem_append.mp member with old | new
    · exact enrolled.called call old
    · exact enrolled.known _ (Or.inr ⟨captured,by rw [rmp]; exact List.mem_cons_self,listed call new⟩)
  · rw [left,channelReaders]
    exact enrolled.present

/-- A channel reader that has been removed is handed nothing more. -/
theorem Served.silent (served : Served log q c since) (left : q'.left = q.left) (gone : q.left c.id ≠ none)
    (silent : inbox q' c = inbox q c) : Served log q' c since := by
  obtain ⟨⟨first,last,start,stretch,_,ended⟩,_⟩ := served
  rw [← left] at gone ended
  rw [← silent] at stretch
  exact ⟨⟨first,last,start,stretch,fun still => absurd still gone,ended⟩,fun still => absurd still gone⟩

/-- One that is in the captured list is handed what the filter lets through. -/
theorem Served.called {n : Nat} {captured : List ChannelReader} {rest : List (List ChannelReader)}
    (served : Served log q c since) (left : q'.left = q.left) (still : q.left c.id = none)
    (read : q'.read = q.read + n) (bound : q.read + n ≤ log.length) (rmp : q.reader.rmp = captured :: rest)
    (rmp' : q'.reader.rmp = rest) (listed : ∀ list ∈ q.reader.rmp, c ∈ list)
    (more : inbox q' c = inbox q c ++ heard c ((log.drop q.read).take n)) : Served log q' c since := by
  obtain ⟨⟨first,last,start,stretch,upTo,_⟩,_⟩ := served
  obtain rfl := upTo still
  refine ⟨⟨first,_,start,?_,fun _ => read.symm,?_⟩,fun _ => ⟨[],rest,rmp',nofun,fun list member => ?_,nofun⟩⟩
  · rw [more]
    exact stretch.pass bound
  · rw [left,still]
    exact nofun
  · apply listed
    rw [rmp]
    exact List.mem_cons_of_mem _ member

/-- One that is not in it yet has been handed nothing, and is handed nothing: then there is nothing for it
in front of the position, or the position stays where it is. -/
theorem Served.waits {n : Nat} (served : Served log q c since) (left : q'.left = q.left)
    (still : q.left c.id = none) (read : q'.read = q.read + n) (bound : q.read + n ≤ log.length)
    (nothing : inbox q c = []) (silent : inbox q' c = [])
    (clear : n = 0 ∨ heard c (log.drop (max since q.read)) = [])
    (lined : Lined q'.reader.rmp c (inbox q' c = [])) : Served log q' c since := by
  obtain ⟨⟨first,last,start,stretch,upTo,_⟩,_⟩ := served
  obtain rfl := upTo still
  rw [nothing] at stretch
  have later : ∃ first ≤ since, Stretch (hears c) log [] first (q.read + n) := by
    rcases clear with rfl | clear
    · exact ⟨first,start,stretch⟩
    by_cases ahead : q.read ≤ since
    · rw [max_eq_left ahead] at clear
      refine ⟨min since (q.read + n),min_le_left _ _,min_le_right _ _,bound,?_⟩
      by_cases short : q.read + n ≤ since
      · rw [min_eq_right short,List.drop_eq_nil_of_le (by rw [List.length_take]; omega)]
        rfl
      · rw [min_eq_left (by omega)]
        exact (Stretch.nothing clear le_rfl).symm
    · rw [max_eq_right (by omega)] at clear
      exact ⟨first,start,stretch.skip bound clear⟩
  obtain ⟨first,start,stretch⟩ := later
  refine ⟨⟨first,_,start,?_,fun _ => read.symm,?_⟩,fun _ => lined⟩
  · rw [silent]
    exact stretch
  · rw [left,still]
    exact nofun

/-- A task with a captured list hands the stretch it passes over to those in the list, and by the
condition there is nothing in it for the others. -/
theorem Good.read {captured : List ChannelReader} {rest : List (List ChannelReader)}
    (good : Good s.clock s.log (s.process p))
    (rmp : (s.process p).reader.rmp = captured :: rest) (apart : (captured.map ChannelReader.id).Nodup)
    (condition : s.isActive p = true →
      (∀ c since, (c,since) ∈ (s.process p).joined → (s.process p).left c.id = none →
        c.id ∉ captured.map ChannelReader.id → heard c (s.log.drop (max since (s.process p).read)) = []) ∧
      ∀ c ∈ captured, (s.process p).left c.id ≠ none → heard c (s.log.drop (s.process p).read) = [])
    (dispatched : Dispatched s p captured rest t) : Good t.clock t.log (t.process p) := by
  obtain ⟨n,calls,none,moved,inside,called,invoked⟩ := dispatched.calls
  obtain ⟨enrolled,served⟩ := good
  have before (c : ChannelReader) :
      inbox (t.process p) c = inbox (s.process p) c ++ handed ChannelReader.id c.id calls := by
    rw [inbox,invoked,handed_append]
    rfl
  have reader (call : Invocation ChannelReader) (member : call ∈ calls) :
      call.reader ∈ captured ∧ heard call.reader (s.log.drop (s.process p).read) ≠ [] ∧ s.isActive p = true := by
    obtain ⟨calls',same,new⟩ := dispatched.new_calls
    obtain rfl := List.append_cancel_left (same.symm.trans invoked)
    obtain ⟨active,listed,ahead,m,found,accepted⟩ := new call member
    exact ⟨listed,heard_ne_nil ahead found accepted,active⟩
  have joined := dispatched.joined
  have left := dispatched.left
  rw [dispatched.clock,dispatched.log]
  refine ⟨enrolled.read rmp dispatched.rmp dispatched.channelReaders dispatched.serial joined left invoked
    (fun call member => (reader call member).1),?_⟩
  rw [joined]
  intro c since member
  have known := served c since member
  cases gone : (s.process p).left c.id with
  | some removed =>
    refine known.silent left (by simp [gone]) ?_
    rw [before,handed_none,List.append_nil]
    intro call new own
    obtain ⟨listed,some,active⟩ := reader call new
    exact some ((condition active).2 call.reader listed (by simp [own,gone]))
  | none =>
    obtain ⟨early,late,split,without,listed,empty⟩ := known.lists gone
    cases early with
    | nil =>
      rw [List.nil_append] at split
      rw [← split] at listed
      refine known.called left gone moved inside rmp dispatched.rmp listed ?_
      rw [before,heard_calls called apart (listed captured (by rw [rmp]; exact List.mem_cons_self))]
    | cons head early =>
      obtain ⟨rfl,tail⟩ := List.cons.inj (rmp.symm.trans split)
      have outside := without captured List.mem_cons_self
      have nothing : inbox (s.process p) c = [] := empty nofun
      have silent : inbox (t.process p) c = [] := by
        rw [before,nothing,handed_none,List.append_nil]
        intro call new own
        exact outside (own ▸ List.mem_map_of_mem (reader call new).1)
      refine known.waits left gone moved inside nothing silent ?_ ⟨early,late,dispatched.rmp.trans tail,
        fun list member => without list (List.mem_cons_of_mem _ member),listed,fun _ => silent⟩
      by_cases active : s.isActive p = true
      · exact Or.inr ((condition active).1 c since member gone outside)
      · exact Or.inl (none (by simpa using active))

end

def checked (s : State) : Action → Bool
  | .rmpTask p _ =>
    let q := s.process p
    let captured := q.reader.rmp.headD []
    q.lag < 2^63 &&
      q.joined.all (fun entry => (q.left entry.1.id).isSome ||
        (captured.map ChannelReader.id).contains entry.1.id ||
        (heard entry.1 (s.log.drop (max entry.2 q.read))).isEmpty) &&
      captured.all (fun c => (q.left c.id).isNone || (heard c (s.log.drop q.read)).isEmpty)
  | _ => true

theorem allowed_of_checked (s : State) (a : Action) (passed : checked s a = true) : allowed s a := by
  cases a with
  | rmpTask p passes =>
    simp only [checked,Bool.and_eq_true,decide_eq_true_eq,List.all_eq_true,Bool.or_eq_true,List.isEmpty_iff] at passed
    obtain ⟨⟨recent,joined⟩,removed⟩ := passed
    refine fun _ => ⟨recent,fun captured head => ⟨fun c since member still outside => ?_,fun c inside gone => ?_⟩⟩
    · rw [List.headD_eq_head?_getD,head] at joined
      rcases joined (c,since) member with (left | listed) | none
      · rw [still] at left
        contradiction
      · exact absurd (List.contains_iff_mem.mp listed) outside
      · exact none
    · rw [List.headD_eq_head?_getD,head] at removed
      exact (removed c inside).resolve_left (fun none => gone (Option.isNone_iff_eq_none.mp none))
  | _ => trivial

end Toroni.Tp.PublishSubscribe
