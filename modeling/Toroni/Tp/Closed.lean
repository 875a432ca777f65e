import Toroni.Tp.Positions

/-! Whether the handler of a channel reader is still called after the channel reader was removed. -/
namespace Toroni.Tp.Closed
open Rmp Transition Pipeline

def callsOf (id : Nat) (q : Process) : List (Invocation ChannelReader) :=
  q.invoked.filter (fun call => call.reader.id == id)

/-- A task on the second queue that finds the slot active has not captured a channel reader that
was removed and accepts a message in front of the position. -/
def allowed (s : State) : Action → Prop
  | .rmpTask p _ => s.isActive p = true → (s.process p).lag < 2^63 ∧
      ∀ captured, (s.process p).reader.rmp.head? = some captured →
        ∀ c ∈ captured, (s.process p).left c.id ≠ none →
          ∀ index m data, (s.process p).read ≤ index → s.log[index]? = some m →
            Tp.Reader.filter c m.rbMsg ≠ .accepted data
  | _ => True

section
variable {size : RingSize} {s t : State} {p id last : Nat}

theorem recent_of_allowed (s : State) (a : Action) (condition : allowed s a) : Recent s a := by
  cases a with
  | rmpTask p passes => exact fun active => (condition active).1
  | _ => trivial

theorem left_perform {task : SerialTask ChannelReader} {rest : List (SerialTask ChannelReader)} (q : Nat)
    (left : (s.process p).left id = some last) :
    ∃ last', ((s.perform q rest task).process p).left id = some last' := by
  by_cases own : p = q
  · subst own
    rw [perform_left]
    cases task with
    | removeChannelReader other =>
      dsimp only
      split
      · by_cases same : id = other
        · exact ⟨s.log.length,by rw [same,Function.update_self]⟩
        · exact ⟨last,by rw [Function.update_of_ne same,left]⟩
      · exact ⟨last,left⟩
    | _ => exact ⟨last,left⟩
  · rw [((perform_frame s q rest task).2.2 p own).1]
    exact ⟨last,left⟩

theorem closed_step {a : Action} (inv : Inv size s) (left : (s.process p).left id = some last)
    (condition : allowed s a) (stepped : next s a = some t) :
    (∃ last', (t.process p).left id = some last') ∧
      callsOf id (t.process p) = callsOf id (s.process p) := by
  have quiet (same : Quiet s t) : (∃ last', (t.process p).left id = some last') ∧
      callsOf id (t.process p) = callsOf id (s.process p) := by
    rw [callsOf,callsOf,(same.process p).left,(same.process p).invoked]
    exact ⟨⟨last,left⟩,rfl⟩
  have perform (q : Nat) (rest : List (SerialTask ChannelReader)) (task : SerialTask ChannelReader) (now : t = s.perform q rest task) :
      (∃ last', (t.process p).left id = some last') ∧
        callsOf id (t.process p) = callsOf id (s.process p) := by
    subst now
    refine ⟨left_perform q left,?_⟩
    by_cases own : p = q
    · subst own
      rw [callsOf,perform_invoked]
      rfl
    · rw [((perform_frame s q rest task).2.2 p own).1]
  have stocked := stocked_step inv.config (fun p => inv.stocked p) stepped
  cases effect stepped with
  | quiet same => exact quiet same
  | gaveUp _ _ _ same => exact quiet same
  | created => exact quiet (quiet_enqueueSerial _)
  | queued => exact quiet (quiet_enqueueSerial s.clock)
  | added => exact perform _ _ _ rfl
  | removed => exact perform _ _ _ rfl
  | ran => exact perform _ _ _ rfl
  | wrote =>
    rw [State.process_wrote]
    exact ⟨⟨last,left⟩,rfl⟩
  | @read q passes _ captured rest rmp done =>
    have dispatched := (dispatched_readRmp inv (recent_of_allowed s _ condition) stocked done).1
    by_cases own : p = q
    · subst own
      obtain ⟨calls,invoked,new⟩ := dispatched.new_calls
      refine ⟨⟨last,by rw [dispatched.left,left]⟩,?_⟩
      have silent : calls.filter (fun call => call.reader.id == id) = [] := by
        refine List.filter_eq_nil_iff.mpr (fun call member same => ?_)
        obtain ⟨active,inside,ahead,m,there,accepted⟩ := new call member
        refine (condition active).2 captured (by rw [rmp]; rfl) call.reader inside ?_ _ m call.data ahead
          there accepted
        rw [beq_iff_eq.mp same,left]
        exact Option.some_ne_none _
      rw [callsOf,invoked,List.filter_append,silent,List.append_nil]
      rfl
    · rw [dispatched.others p own]
      exact ⟨⟨last,left⟩,rfl⟩

/-- In every run all of whose steps meet the condition, the handler of a channel reader is not
called any more from the state on in which the channel reader has been removed. -/
theorem closed_stays_closed {events : List Action} (reached : Reachable ((sys size).restrict allowed) s)
    (run : Run ((sys size).restrict allowed) s events t) (left : (s.process p).left id = some last) :
    callsOf id (t.process p) = callsOf id (s.process p) := by
  have both : (∃ last', (t.process p).left id = some last') ∧
      callsOf id (t.process p) = callsOf id (s.process p) := by
    induction run with
    | nil => exact ⟨⟨last,left⟩,rfl⟩
    | snoc before final ih =>
      obtain ⟨first,events,initial,start⟩ := reached
      obtain ⟨⟨last',left'⟩,same⟩ := ih
      have inv := reachable_inv recent_of_allowed ⟨first,_,initial,start.append before⟩
      obtain ⟨still,none⟩ := closed_step inv left' final.1 final.2
      exact ⟨still,none.trans same⟩
  exact both.2

end

def checked (s : State) : Action → Bool
  | .rmpTask p _ => (s.process p).lag < 2^63 && ((s.process p).reader.rmp.headD []).all (fun c =>
      ((s.process p).left c.id).isNone)
  | _ => true

theorem allowed_of_checked (s : State) (a : Action) (passed : checked s a = true) : allowed s a := by
  cases a with
  | rmpTask p passes =>
    simp only [checked,Bool.and_eq_true,decide_eq_true_eq,List.all_eq_true,Option.isNone_iff_eq_none] at passed
    refine fun _ => ⟨passed.1,fun captured head c inside removed => ?_⟩
    rw [List.headD_eq_head?_getD,head] at passed
    exact absurd (passed.2 c inside) removed
  | _ => trivial

/-- Of two channel readers one is closed, and the other one receives the message written then. -/
theorem closed_stays_closed_first : ∃ s t : State, (t.process 0).invoked = [⟨⟨1,[97],false,0⟩,0,[7]⟩] ∧
    callsOf 0 (t.process 0) = callsOf 0 (s.process 0) := by
  obtain ⟨s,t,reached,run,left,invoked⟩ := exec_passes (sys ring64) checked next (fun _ _ _ step => step)
    start64_init
    [.createChannelReader 0 [97] false,.serialTask 0,.createChannelReader 0 [97] false,.serialTask 0,
      .closeChannelReader 0 0,.serialTask 0]
    [.createMessage 0 [97] [7] false,.post 0 0,.startWriter 0,.drain 0,.write 0 [],.run 0,.serialTask 0,
      .rmpTask 0 3]
    (fun s => (s.process 0).left 0) (some 0) (fun s => (s.process 0).invoked)
    [⟨⟨1,[97],false,0⟩,0,[7]⟩] rfl rfl
  exact ⟨s,t,invoked,closed_stays_closed (reached.weaken (fun s a _ => allowed_of_checked s a))
    (run.weaken allowed_of_checked) left⟩

/-- The list is captured before the first of two channel readers is closed, and the slot stays
active for the second one. -/
theorem closed_reader_called : ∃ s t : State, ∃ events, Reachable (sys ring64) s ∧
    Run (sys ring64) s events t ∧ (s.process 0).left 0 = some 0 ∧
    callsOf 0 (s.process 0) = [] ∧ callsOf 0 (t.process 0) = [⟨⟨0,[97],false,0⟩,0,[7]⟩] := by
  obtain ⟨s,t,reached,run,before,after⟩ := exec_passes (sys ring64) (fun _ _ => true) next
    (fun _ _ _ step => step) start64_init
    [.createChannelReader 0 [97] false,.serialTask 0,.createChannelReader 0 [97] false,.serialTask 0,
      .run 0,.serialTask 0,.closeChannelReader 0 0,.serialTask 0]
    [.createMessage 0 [97] [7] false,.post 0 0,.startWriter 0,.drain 0,.write 0 [],.rmpTask 0 3]
    (fun s => ((s.process 0).left 0,callsOf 0 (s.process 0))) (some 0,[])
    (fun s => callsOf 0 (s.process 0)) [⟨⟨0,[97],false,0⟩,0,[7]⟩] rfl rfl
  obtain ⟨left,none⟩ := Prod.mk.inj before
  exact ⟨s,t,_,reached.unrestrict,run.unrestrict,left,none,after⟩

end Toroni.Tp.Closed
