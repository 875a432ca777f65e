import Mathlib.Data.List.Basic
import Toroni.Library.Transition
import Toroni.Tp.AsyncWriter

/-! Producers that post messages and the `ProcWriter`s that write them, with each call of the
queue, of the work queue, of `WriteEx` and of `notifyAllReaders` as one step. -/
namespace Toroni.Tp.Drainer
open Rmp Transition Traits

inductive ProcWriter
  | drain
  | write (queueCopy : List TopicMsgBinary)
  | notify
  deriving DecidableEq

def ProcWriter.inHand : ProcWriter → List TopicMsgBinary
  | .write queueCopy => queueCopy
  | _ => []

def ProcWriter.draining : ProcWriter → Bool
  | .notify => false
  | _ => true

/-- `posting` producers were told to start a `ProcWriter` and have not enqueued its work, which is
waiting `work` times. The last three are history variables: the messages in the order of `Enqueue`
and in the order of `WriteEx`, and how many of these were written when the readers were last
notified. -/
structure State where
  queue : MPSCMessageQueue TopicMsgBinary
  posting : Nat
  work : Nat
  running : List ProcWriter
  enqueued : List TopicMsgBinary
  written : List TopicMsgBinary
  notified : Nat

namespace State

def create : State := ⟨.create,0,0,[],[],[],0⟩

def inHand (s : State) : List TopicMsgBinary := s.running.flatMap ProcWriter.inHand

def busy (s : State) : Nat := s.posting + s.work + s.running.countP ProcWriter.draining

end State

/-- The backpressure handler of `WriteEx` is called `asked` times, and notifies the readers first.
Each `Throws` is a callback that throws, `push_back` in `enqueueThrows`. -/
inductive Action
  | enqueue (rbMsg : TopicMsgBinary)
  | enqueueThrows (rbMsg : TopicMsgBinary)
  | enqueueWork
  | enqueueWorkThrows
  | startWriter
  | drain (i : Nat)
  | drainThrows (i : Nat)
  | write (i asked : Nat)
  | writeThrows (i : Nat)
  | notify (i : Nat)
  | notifyThrows (i : Nat)

def Action.throws : Action → Bool
  | .enqueueThrows _ | .enqueueWorkThrows | .drainThrows _ | .writeThrows _ | .notifyThrows _ => true
  | _ => false

/-- `rb` gives the maximal size that `Post` asserts. An exception ends the `ProcWriter` it leaves. -/
def next (rb : ByteRingBuffer) (s : State) : Action → Option State
  | .enqueue rbMsg => (AsyncWriter.post rb id s.queue rbMsg).map (fun (startDrainer,queue) =>
      { s with
        queue := queue
        posting := if startDrainer then s.posting + 1 else s.posting
        enqueued := s.enqueued ++ [rbMsg] })
  | .enqueueThrows rbMsg => (AsyncWriter.post rb id s.queue rbMsg).map (fun _ =>
      { s with queue := s.queue.enqueueThrows })
  | .enqueueWork =>
    if 0 < s.posting then some { s with posting := s.posting - 1, work := s.work + 1 } else none
  | .enqueueWorkThrows => if 0 < s.posting then some { s with posting := s.posting - 1 } else none
  | .startWriter =>
    if 0 < s.work then some { s with work := s.work - 1, running := s.running ++ [.drain] } else none
  | .drain i =>
    match s.running[i]? with
    | some .drain =>
      let (queueCopy,queue) := s.queue.drain
      some { s with
        queue := queue
        running := s.running.set i (if queueCopy = [] then .notify else .write queueCopy) }
    | _ => none
  | .drainThrows i =>
    match s.running[i]? with
    | some .drain => some { s with running := s.running.eraseIdx i }
    | _ => none
  | .write i asked =>
    match s.running[i]? with
    | some (.write (rbMsg :: queueCopy)) =>
      some { s with
        running := s.running.set i (if queueCopy = [] then .drain else .write queueCopy)
        written := s.written ++ [rbMsg]
        notified := if 0 < asked then s.written.length else s.notified }
    | _ => none
  | .writeThrows i =>
    match s.running[i]? with
    | some (.write (_ :: _)) => some { s with running := s.running.eraseIdx i }
    | _ => none
  | .notify i =>
    match s.running[i]? with
    | some .notify => some { s with running := s.running.eraseIdx i, notified := s.written.length }
    | _ => none
  | .notifyThrows i =>
    match s.running[i]? with
    | some .notify => some { s with running := s.running.eraseIdx i }
    | _ => none

def sys (rb : ByteRingBuffer) : System State Action := .ofNext (fun s => s = .create) (next rb)

structure Inv (s : State) : Prop where
  busy : s.busy = if s.queue.startDrainer then 0 else 1
  idle : s.queue.startDrainer = true → s.queue.queue = []
  kept : s.enqueued = s.written ++ s.inHand ++ s.queue.queue

def Notified (s : State) : Prop := s.notified = s.written.length ∨ s.running ≠ []

/-- The exceptions that do no harm: in `push_back` while there is a `ProcWriter`, and in the last
call of `notifyAllReaders`. -/
def allowed (s : State) : Action → Prop
  | .enqueueThrows _ => s.queue.startDrainer = false
  | .enqueueWorkThrows | .drainThrows _ | .writeThrows _ => False
  | _ => True

section
variable {rb : ByteRingBuffer} {s t : State}

theorem split_at {α : Type} {l : List α} {i : Nat} {x : α} (found : l[i]? = some x) :
    ∃ before after, l = before ++ x :: after ∧ (∀ y, l.set i y = before ++ y :: after) ∧
      l.eraseIdx i = before ++ after := by
  obtain ⟨bound,rfl⟩ := List.getElem?_eq_some_iff.mp found
  refine ⟨l.take i,l.drop (i + 1),?_,fun y => ?_,List.eraseIdx_eq_take_drop_succ _ _⟩
  · rw [← List.drop_eq_getElem_cons bound,List.take_append_drop]
  · rw [List.set_eq_take_append_cons_drop,if_pos bound]

theorem inHand_eq_nil {running : List ProcWriter} (none : running.countP ProcWriter.draining = 0) :
    running.flatMap ProcWriter.inHand = [] := by
  rw [List.countP_eq_zero] at none
  rw [List.flatMap_eq_nil_iff]
  intro w member
  cases w with
  | write queueCopy => exact absurd rfl (none _ member)
  | _ => rfl

theorem inHand_alone {before after : List ProcWriter} {w : ProcWriter} (draining : w.draining = true)
    (one : (before ++ w :: after).countP ProcWriter.draining ≤ 1) (v : ProcWriter) :
    (before ++ v :: after).countP ProcWriter.draining = (if v.draining then 1 else 0) ∧
      (before ++ v :: after).flatMap ProcWriter.inHand = v.inHand := by
  rw [List.countP_append,List.countP_cons_of_pos draining] at one
  have left : before.countP ProcWriter.draining = 0 := by omega
  have right : after.countP ProcWriter.draining = 0 := by omega
  constructor
  · rw [List.countP_append,List.countP_cons,left,right]
    omega
  · rw [List.flatMap_append,List.flatMap_cons,inHand_eq_nil left,inHand_eq_nil right]
    simp

theorem Inv.enqueue {rbMsg : TopicMsgBinary} {startDrainer : Bool} {queue : MPSCMessageQueue TopicMsgBinary}
    (inv : Inv s) (posted : AsyncWriter.post rb id s.queue rbMsg = some (startDrainer,queue)) :
    Inv { s with
      queue := queue
      posting := if startDrainer then s.posting + 1 else s.posting
      enqueued := s.enqueued ++ [rbMsg] } := by
  obtain ⟨_,same⟩ := Option.ite_none_right_eq_some.mp posted
  obtain ⟨rfl,rfl⟩ := Prod.mk.inj (Option.some.inj same)
  have busy := inv.busy
  refine ⟨?_,nofun,?_⟩
  · cases flag : s.queue.startDrainer with
    | true =>
      rw [flag,if_pos rfl,State.busy] at busy
      simp only [State.busy,if_true,Bool.false_eq_true,if_false]
      omega
    | false =>
      rw [flag] at busy
      simpa [State.busy,MPSCMessageQueue.enqueue] using busy
  · simp only [State.inHand,inv.kept,List.append_assoc]

theorem Inv.moved {posting work : Nat} {running : List ProcWriter} (inv : Inv s)
    (busy : posting + work + running.countP ProcWriter.draining = s.busy)
    (inHand : running.flatMap ProcWriter.inHand = s.inHand) :
    Inv { s with posting := posting, work := work, running := running } := by
  refine ⟨busy.trans inv.busy,inv.idle,inv.kept.trans ?_⟩
  rw [← inHand]
  rfl

/-- While a `ProcWriter` drains, no other one is requested or draining. -/
theorem Inv.alone {before after : List ProcWriter} {w : ProcWriter} (inv : Inv s)
    (split : s.running = before ++ w :: after) (draining : w.draining = true) :
    s.queue.startDrainer = false ∧ s.posting = 0 ∧ s.work = 0 ∧ ∀ v : ProcWriter,
      (before ++ v :: after).countP ProcWriter.draining = (if v.draining then 1 else 0) ∧
        (before ++ v :: after).flatMap ProcWriter.inHand = v.inHand := by
  have busy := inv.busy
  rw [State.busy,split,List.countP_append,List.countP_cons_of_pos draining] at busy
  have flag : s.queue.startDrainer = false := by
    by_contra set
    rw [if_pos (by simpa using set)] at busy
    omega
  rw [flag] at busy
  simp only [Bool.false_eq_true,if_false] at busy
  have one : (before ++ w :: after).countP ProcWriter.draining ≤ 1 := by
    rw [List.countP_append,List.countP_cons_of_pos draining]
    omega
  exact ⟨flag,by omega,by omega,inHand_alone draining one⟩

theorem Inv.drain {i : Nat} (inv : Inv s) (found : s.running[i]? = some .drain) :
    Inv { s with
      queue := s.queue.drain.2
      running := s.running.set i (if s.queue.drain.1 = [] then .notify else .write s.queue.drain.1) } := by
  obtain ⟨before,after,split,set,_⟩ := split_at found
  obtain ⟨_,posting,work,alone⟩ := inv.alone split rfl
  have inHand : s.inHand = [] := by rw [State.inHand,split,(alone _).2]; rfl
  have kept := inv.kept
  rw [inHand,List.append_nil] at kept
  by_cases empty : s.queue.queue = []
  · refine ⟨?_,fun _ => rfl,?_⟩
    · simp [State.busy,MPSCMessageQueue.drain,empty,set,(alone _).1,posting,work,ProcWriter.draining]
    · simp [State.inHand,MPSCMessageQueue.drain,empty,set,(alone _).2,kept,ProcWriter.inHand]
  · refine ⟨?_,fun flag => ?_,?_⟩
    · simp [State.busy,MPSCMessageQueue.drain,empty,set,(alone _).1,posting,work,ProcWriter.draining]
    · simp [MPSCMessageQueue.drain,empty] at flag
    · simp [State.inHand,MPSCMessageQueue.drain,empty,set,(alone _).2,kept,ProcWriter.inHand]

theorem Inv.write {i notified : Nat} {rbMsg : TopicMsgBinary} {queueCopy : List TopicMsgBinary}
    (inv : Inv s) (found : s.running[i]? = some (.write (rbMsg :: queueCopy))) :
    Inv { s with
      running := s.running.set i (if queueCopy = [] then .drain else .write queueCopy)
      written := s.written ++ [rbMsg]
      notified := notified } := by
  obtain ⟨before,after,split,set,_⟩ := split_at found
  obtain ⟨flag,posting,work,alone⟩ := inv.alone split rfl
  have inHand : s.inHand = rbMsg :: queueCopy := by rw [State.inHand,split,(alone _).2]; rfl
  have kept := inv.kept
  rw [inHand] at kept
  refine ⟨?_,inv.idle,?_⟩
  · simp only [State.busy,set,(alone _).1,posting,work,flag]
    split <;> rfl
  · simp only [State.inHand,set,(alone _).2,kept]
    split <;> rename_i empty <;> simp [ProcWriter.inHand,empty]

theorem Inv.ended {i notified : Nat} (inv : Inv s) (found : s.running[i]? = some .notify) :
    Inv { s with running := s.running.eraseIdx i, notified := notified } := by
  obtain ⟨before,after,split,_,erase⟩ := split_at found
  refine ⟨?_,inv.idle,?_⟩
  · rw [← inv.busy,State.busy,State.busy,erase,split]
    simp [ProcWriter.draining]
  · rw [inv.kept,State.inHand,State.inHand,erase,split]
    simp [ProcWriter.inHand]

theorem drain_eq {i : Nat} (stepped : next rb s (.drain i) = some t) :
    s.running[i]? = some .drain ∧ t = { s with
      queue := s.queue.drain.2
      running := s.running.set i (if s.queue.drain.1 = [] then .notify else .write s.queue.drain.1) } := by
  simp only [next] at stepped
  split at stepped
  next found => exact ⟨found,(Option.some.inj stepped).symm⟩
  next => contradiction

theorem write_eq {i asked : Nat} (stepped : next rb s (.write i asked) = some t) :
    ∃ rbMsg queueCopy, s.running[i]? = some (.write (rbMsg :: queueCopy)) ∧ t = { s with
      running := s.running.set i (if queueCopy = [] then .drain else .write queueCopy)
      written := s.written ++ [rbMsg]
      notified := if 0 < asked then s.written.length else s.notified } := by
  simp only [next] at stepped
  split at stepped
  next found => exact ⟨_,_,found,(Option.some.inj stepped).symm⟩
  next => contradiction

theorem notify_eq {i : Nat} (stepped : next rb s (.notify i) = some t) :
    s.running[i]? = some .notify ∧
      t = { s with running := s.running.eraseIdx i, notified := s.written.length } := by
  simp only [next] at stepped
  split at stepped
  next found => exact ⟨found,(Option.some.inj stepped).symm⟩
  next => contradiction

theorem Inv.step {a : Action} (inv : Inv s) (condition : allowed s a) (stepped : next rb s a = some t) :
    Inv t := by
  cases a with
  | enqueue rbMsg =>
    obtain ⟨_,posted,rfl⟩ := Option.map_eq_some_iff.mp stepped
    exact inv.enqueue posted
  | enqueueThrows rbMsg =>
    obtain ⟨_,_,rfl⟩ := Option.map_eq_some_iff.mp stepped
    have same : s.queue.enqueueThrows = s.queue := by
      rw [MPSCMessageQueue.enqueueThrows,← show s.queue.startDrainer = false from condition]
    rw [same]
    exact inv
  | enqueueWork =>
    obtain ⟨some,same⟩ := Option.ite_none_right_eq_some.mp stepped
    obtain rfl := Option.some.inj same
    exact inv.moved (by rw [State.busy]; omega) rfl
  | startWriter =>
    obtain ⟨some,same⟩ := Option.ite_none_right_eq_some.mp stepped
    obtain rfl := Option.some.inj same
    refine inv.moved ?_ ?_
    · rw [State.busy,List.countP_append]
      simp only [List.countP_singleton,ProcWriter.draining,if_true]
      omega
    · rw [List.flatMap_append,State.inHand]
      exact List.append_nil _
  | drain i =>
    obtain ⟨found,rfl⟩ := drain_eq stepped
    exact inv.drain found
  | write i asked =>
    obtain ⟨_,_,found,rfl⟩ := write_eq stepped
    exact inv.write found
  | notify i =>
    obtain ⟨found,rfl⟩ := notify_eq stepped
    exact inv.ended found
  | notifyThrows i =>
    simp only [next] at stepped
    split at stepped
    next found =>
      obtain rfl := Option.some.inj stepped
      exact inv.ended found
    next => contradiction
  | enqueueWorkThrows => exact condition.elim
  | drainThrows i => exact condition.elim
  | writeThrows i => exact condition.elim

theorem reachable_inv (reached : Reachable ((sys rb).restrict allowed) s) : Inv s := by
  refine reached.invariant Inv ?_ ?_
  · rintro s rfl
    exact ⟨rfl,fun _ => rfl,rfl⟩
  · exact fun s a _ inv stepped => inv.step stepped.1 stepped.2

/-- A `ProcWriter` that has written something is running until it notifies. -/
theorem notified_step {a : Action} (notified : Notified s) (calm : a.throws = false)
    (stepped : next rb s a = some t) : Notified t := by
  have nonempty {i : Nat} {w v : ProcWriter} (found : s.running[i]? = some w) : s.running.set i v ≠ [] := by
    obtain ⟨bound,_⟩ := List.getElem?_eq_some_iff.mp found
    exact List.ne_nil_of_length_pos (by rw [List.length_set]; omega)
  cases a with
  | enqueue rbMsg =>
    obtain ⟨_,_,rfl⟩ := Option.map_eq_some_iff.mp stepped
    exact notified
  | enqueueWork =>
    obtain ⟨_,same⟩ := Option.ite_none_right_eq_some.mp stepped
    obtain rfl := Option.some.inj same
    exact notified
  | startWriter =>
    obtain ⟨_,same⟩ := Option.ite_none_right_eq_some.mp stepped
    obtain rfl := Option.some.inj same
    exact Or.inr (List.append_ne_nil_of_right_ne_nil _ (List.cons_ne_nil _ _))
  | drain i =>
    obtain ⟨found,rfl⟩ := drain_eq stepped
    exact Or.inr (nonempty found)
  | write i asked =>
    obtain ⟨_,_,found,rfl⟩ := write_eq stepped
    exact Or.inr (nonempty found)
  | notify i =>
    obtain ⟨_,rfl⟩ := notify_eq stepped
    exact Or.inl rfl
  | _ => contradiction

/-- While no callback throws, at most one `ProcWriter` is requested or draining, and one is if
there is something in the queue. The messages are written in the order of `Enqueue`, each once,
and when no `ProcWriter` is left all are written and the readers were notified after the last. -/
theorem posted_in_order (reached : Reachable ((sys rb).restrict (fun _ a => a.throws = false)) s) :
    s.busy ≤ 1 ∧ (s.queue.queue ≠ [] → s.busy = 1) ∧
      s.enqueued = s.written ++ s.inHand ++ s.queue.queue ∧
      (s.posting = 0 → s.work = 0 → s.running = [] →
        s.written = s.enqueued ∧ s.notified = s.written.length) := by
  have inv := reachable_inv (reached.weaken (fun s a _ calm => by cases a <;> trivial))
  have notified : Notified s := by
    refine reached.invariant Notified ?_ ?_
    · rintro s rfl
      exact Or.inl rfl
    · exact fun s a _ notified stepped => notified_step notified stepped.1 stepped.2
  have busy := inv.busy
  refine ⟨by split at busy <;> omega,fun some => ?_,inv.kept,fun posting work running => ⟨?_,?_⟩⟩
  · rwa [if_neg (fun flag => some (inv.idle flag))] at busy
  · have flag : s.queue.startDrainer = true := by
      by_contra unset
      rw [if_neg unset,State.busy,posting,work,running] at busy
      contradiction
    rw [inv.kept,inv.idle flag,State.inHand,running]
    simp
  · exact notified.resolve_right (fun nonempty => nonempty running)

end

def ring : ByteRingBuffer := .create ring16.position (fun _ => 0)

/-- Two producers post before the work is enqueued, and a third one while it runs. -/
theorem posted_in_order_three : ∃ s : State, s.written = [[1],[2],[3]] ∧ s.notified = 3 ∧ s.busy ≤ 1 ∧
    s.enqueued = s.written ++ s.inHand ++ s.queue.queue := by
  obtain ⟨s,reached,saw⟩ := exec_reaches (sys ring) (fun _ a => !a.throws) (next ring)
    (fun _ _ _ step => step) rfl
    [.enqueue [1],.enqueue [2],.enqueueWork,.startWriter,.drain 0,.enqueue [3],.write 0 0,.write 0 2,.drain 0,
      .write 0 0,.drain 0,.notify 0]
    (fun s => (s.written,s.notified)) ([[1],[2],[3]],3) rfl
  obtain ⟨written,notified⟩ := Prod.mk.inj saw
  obtain ⟨busy,_,kept,_⟩ := posted_in_order (reached.weaken (fun _ _ _ calm => by simpa using calm))
  exact ⟨s,written,notified,busy,kept⟩

section
variable {rb : ByteRingBuffer} {s : State}

/-- Something in the queue is going to be drained, at the latest by the `ProcWriter` that the next
`Post` starts, and nothing that was enqueued is lost. -/
def Recovers (s : State) : Prop :=
  (s.queue.queue ≠ [] → s.queue.startDrainer = true ∨ 0 < s.busy) ∧
    s.enqueued.Perm (s.written ++ s.inHand ++ s.queue.queue)

/-- The write path recovers from exceptions in the last notification, and in `push_back` while
there is a `ProcWriter`. -/
theorem writing_recovers (reached : Reachable ((sys rb).restrict allowed) s) : Recovers s := by
  have inv := reachable_inv reached
  refine ⟨fun some => Or.inr ?_,inv.kept ▸ .refl _⟩
  rw [inv.busy,if_neg (fun flag => some (inv.idle flag))]
  exact Nat.one_pos

end

/-- The last notification throws, and the next message starts a new `ProcWriter`. -/
theorem writing_recovers_notify : ∃ s : State, s.written = [[1],[2]] ∧ Recovers s := by
  obtain ⟨s,reached,saw⟩ := exec_reaches (sys ring)
    (fun s a => !a.throws || (match a with | .notifyThrows _ => true | _ => false)) (next ring)
    (fun _ _ _ step => step) rfl
    [.enqueue [1],.enqueueWork,.startWriter,.drain 0,.write 0 0,.drain 0,.notifyThrows 0,.enqueue [2],
      .enqueueWork,.startWriter,.drain 0,.write 0 0]
    (fun s => s.written) [[1],[2]] rfl
  refine ⟨s,saw,writing_recovers (reached.weaken (fun s a _ calm => ?_))⟩
  cases a <;> trivial

/-- The backpressure handler throws in the first of two messages: both are lost, and a message
posted afterwards stays in the queue with no `ProcWriter` and none to be started. -/
theorem writing_stuck : ∃ s : State, Reachable (sys ring) s ∧ s.written = [] ∧ s.inHand = [] ∧
    s.queue.queue = [[3]] ∧ ¬ Recovers s := by
  obtain ⟨s,reached,saw⟩ := exec_reaches (sys ring) (fun _ _ => true) (next ring) (fun _ _ _ step => step) rfl
    [.enqueue [1],.enqueue [2],.enqueueWork,.startWriter,.drain 0,.writeThrows 0,.enqueue [3]]
    (fun s => (s.written,s.inHand,s.queue.queue,s.queue.startDrainer,s.busy)) ([],[],[[3]],false,0) rfl
  simp only [Prod.mk.injEq] at saw
  obtain ⟨written,inHand,queue,flag,busy⟩ := saw
  refine ⟨s,reached.unrestrict,written,inHand,queue,fun recovers => ?_⟩
  rcases recovers.1 (by simp [queue]) with starts | working
  · rw [flag] at starts
    contradiction
  · rw [busy] at working
    contradiction

end Toroni.Tp.Drainer
