import Toroni.Java.Stop
import Toroni.Library.Refinement
import Toroni.Traits.SerialWorkItemQueue

/-! While nobody stops it, the serial work queue does by the single steps of its threads what it does
when all that its mutex protects is one step. An enqueuing counts from where the item is pushed, and a
look at the queue from where the worker has found it empty or takes it. -/
namespace Toroni.Traits

namespace SerialWorkItemQueue
variable {α : Type}

def Worker.told (pushed : Bool) (worker : Worker α) : Worker α := if pushed then worker.notify else worker

@[simp] theorem Worker.told_ready (pushed : Bool) : (Worker.ready : Worker α).told pushed = .ready := by
  cases pushed <;> rfl

@[simp] theorem Worker.told_running (pushed : Bool) (queueCopy : List α) :
    (Worker.running queueCopy).told pushed = .running queueCopy := by
  cases pushed <;> rfl

@[simp] theorem Worker.told_ended (pushed : Bool) : (Worker.ended : Worker α).told pushed = .ended := by
  cases pushed <;> rfl

theorem Worker.told_asleep (α : Type) (pushed notified : Bool) :
    ∃ later, (Worker.asleep notified : Worker α).told pushed = .asleep later := by
  cases pushed
  · exact ⟨notified,rfl⟩
  · exact ⟨true,rfl⟩

end SerialWorkItemQueue

namespace Stop
open Transition
variable {α : Type}

def Mutex.isPushed : Mutex α → Bool
  | .pushed => true
  | _ => false

def Worker.inside : Worker α → Bool
  | .checking | .falling | .awake | .stopping | .swapping => true
  | _ => false

def Worker.serial : Worker α → SerialWorkItemQueue.Worker α
  | .falling => .asleep false
  | .asleep notified => .asleep notified
  | .running (wi :: queueCopy) => .running (wi :: queueCopy)
  | .ended => .ended
  | _ => .ready

def State.serial (s : State α) : SerialWorkItemQueue.State α :=
  ⟨s.workItemQueue,s.worker.serial.told s.mutex.isPushed,s.enqueued,s.executed⟩

def view (s : State α) : Action α → Option (SerialWorkItemQueue.Action α)
  | .enqueuer =>
    match s.mutex with
    | .enqueue wi => some (.enqueue wi)
    | _ => none
  | .work =>
    match s.worker with
    | .checking => if s.workItemQueue.isEmpty then some .look else none
    | .swapping => if s.workItemQueue.isEmpty then none else some .look
    | .asleep _ => some .wake
    | .running (_ :: _) => some (.run none)
    | _ => none
  | _ => none

structure Unstopped (s : State α) : Prop where
  stop : s.stop = false
  going : s.worker ≠ .stopping
  owned : s.mutex = .worker ↔ s.worker.inside = true

def Matched (s : State α) (action : Action α) (t : State α) : Prop :=
  match view s action with
  | none => t.serial = s.serial
  | some shown => SerialWorkItemQueue.next .cpp s.serial shown = some t.serial

section
variable {policy : StopPolicy} {s t : State α} {action : Action α}

theorem Worker.inside_notify (worker : Worker α) : worker.notify.inside = worker.inside := by
  cases worker <;> rfl

theorem Worker.serial_notify {worker : Worker α} (outside : worker.inside = false) :
    worker.notify.serial = worker.serial.notify := by
  cases worker with
  | falling => contradiction
  | running queueCopy => cases queueCopy <;> rfl
  | _ => rfl

theorem Unstopped.enqueuer (unstopped : Unstopped s) (stepped : enqueuerNext s = some t) :
    Unstopped t ∧ Matched s .enqueuer t := by
  obtain ⟨stop,going,owned⟩ := unstopped
  unfold Matched view
  simp only [enqueuerNext] at stepped
  split at stepped
  next wi pushing =>
    obtain rfl := Option.some.inj stepped
    rw [pushing] at owned
    refine ⟨⟨stop,going,?_⟩,?_⟩
    · simpa using owned
    · simp only [pushing]
      rw [SerialWorkItemQueue.next,State.serial,State.serial,pushing]
      rfl
  next pushed =>
    obtain rfl := Option.some.inj stepped
    rw [pushed] at owned
    have outside : s.worker.inside = false := by simpa using owned
    refine ⟨⟨stop,?_,?_⟩,?_⟩
    · cases here : s.worker <;> simp [here,Worker.notify] at going ⊢
    · rw [Worker.inside_notify]
      simpa using owned
    · simp only [pushed]
      rw [State.serial,State.serial,Worker.serial_notify outside,pushed]
      rfl
  next notified =>
    obtain rfl := Option.some.inj stepped
    rw [notified] at owned
    refine ⟨⟨stop,going,by simpa using owned⟩,?_⟩
    simp only [notified]
    rw [State.serial,State.serial,notified]
    rfl
  next => contradiction

theorem Unstopped.work (unstopped : Unstopped s) (stepped : workNext s = some t) :
    Unstopped t ∧ Matched s .work t := by
  obtain ⟨stop,going,owned⟩ := unstopped
  unfold Matched view
  simp only [workNext] at stepped
  split at stepped
  next locking =>
    split at stepped
    next free =>
      obtain rfl := Option.some.inj stepped
      refine ⟨⟨stop,by simp,by simp [Worker.inside]⟩,?_⟩
      simp only [locking,State.serial,Worker.serial,SerialWorkItemQueue.Worker.told_ready]
    next => contradiction
  next checking =>
    obtain rfl := Option.some.inj stepped
    rw [checking] at owned
    have mine := owned.mpr rfl
    cases empty : s.workItemQueue.isEmpty with
    | true =>
      refine ⟨⟨stop,by simp [stop],by simp [stop,mine,Worker.inside]⟩,?_⟩
      simp only [checking,if_true,stop,State.serial,mine]
      rw [SerialWorkItemQueue.next]
      simp [Worker.serial,Mutex.isPushed,SerialWorkItemQueue.Worker.told,empty]
    | false =>
      refine ⟨⟨stop,by simp,by simp [mine,Worker.inside]⟩,?_⟩
      simp [checking,State.serial,Worker.serial]
  next falling =>
    obtain rfl := Option.some.inj stepped
    rw [falling] at owned
    have mine := owned.mpr rfl
    refine ⟨⟨stop,by simp,by simp [Worker.inside]⟩,?_⟩
    simp [falling,State.serial,mine,Worker.serial,Mutex.isPushed]
  next notified asleep =>
    obtain rfl := Option.some.inj stepped
    rw [asleep] at owned
    refine ⟨⟨stop,by simp,owned⟩,?_⟩
    obtain ⟨later,told⟩ := SerialWorkItemQueue.Worker.told_asleep α s.mutex.isPushed notified
    simp only [asleep,State.serial,Worker.serial,told,SerialWorkItemQueue.next,
      SerialWorkItemQueue.Worker.told_ready]
  next awake =>
    obtain rfl := Option.some.inj stepped
    rw [awake] at owned
    refine ⟨⟨stop,by simp [stop],by simpa [stop,Worker.inside] using owned⟩,?_⟩
    simp [awake,stop,State.serial,Worker.serial]
  next stopping => exact absurd stopping going
  next swapping =>
    obtain rfl := Option.some.inj stepped
    refine ⟨⟨stop,by simp,by simp [Worker.inside]⟩,?_⟩
    cases filled : s.workItemQueue with
    | nil => simp [swapping,filled,State.serial,Worker.serial]
    | cons wi queueCopy =>
      simp [swapping,filled,State.serial,Worker.serial,SerialWorkItemQueue.next]
  next wi queueCopy running =>
    obtain rfl := Option.some.inj stepped
    rw [running] at owned
    refine ⟨⟨stop,by simp,owned⟩,?_⟩
    simp only [running,State.serial,Worker.serial,SerialWorkItemQueue.Worker.told_running,
      SerialWorkItemQueue.next]
    cases queueCopy <;> simp [SerialWorkItemQueue.Worker.next]
  next running =>
    obtain rfl := Option.some.inj stepped
    rw [running] at owned
    refine ⟨⟨stop,by simp,owned⟩,?_⟩
    simp [running,State.serial,Worker.serial]
  next => contradiction

theorem unstopped_step (unstopped : Unstopped s) (quiet : action ≠ .stop)
    (stepped : next policy s action = some t) : Unstopped t ∧ Matched s action t := by
  cases action with
  | enqueue wi =>
    simp only [next] at stepped
    split at stepped
    next free =>
      obtain rfl := Option.some.inj stepped
      obtain ⟨stop,going,owned⟩ := unstopped
      rw [free] at owned
      refine ⟨⟨stop,going,by simpa using owned⟩,?_⟩
      change State.serial _ = s.serial
      rw [State.serial,State.serial,free]
      rfl
    next => contradiction
  | enqueuer => exact unstopped.enqueuer stepped
  | stop => contradiction
  | work => exact unstopped.work stepped

/-- In C++, with items that throw nothing. -/
theorem refines (policy : StopPolicy) : Refines (fun (s : State α) a => Unstopped s ∧ a = s.serial) view
    ((sys policy).restrict (fun _ action => action ≠ .stop)) (SerialWorkItemQueue.sys .cpp) where
  start := by
    intro s new
    obtain rfl : s = start := new
    exact ⟨_,rfl,⟨rfl,nofun,by simp [start,Worker.inside]⟩,rfl⟩
  silent := by
    rintro s action t a ⟨unstopped,rfl⟩ ⟨quiet,stepped⟩ silent
    obtain ⟨later,matched⟩ := unstopped_step unstopped quiet stepped
    rw [Matched,silent] at matched
    exact ⟨later,matched.symm⟩
  visible := by
    rintro s action t a shown ⟨unstopped,rfl⟩ ⟨quiet,stepped⟩ shows
    obtain ⟨later,matched⟩ := unstopped_step unstopped quiet stepped
    rw [Matched,shows] at matched
    exact ⟨_,matched,later,rfl⟩

theorem reachable_serial (reached : Reachable ((sys policy).restrict (fun _ action => action ≠ .stop)) s) :
    Reachable (SerialWorkItemQueue.sys .cpp) s.serial := by
  obtain ⟨a,met,_,rfl⟩ := (refines policy).reachable reached
  exact met

end
end Stop
end Toroni.Traits

namespace Toroni.Java.Stop
open Transition
open Traits.Stop (StopPolicy)
variable {α ι : Type}

def Monitor.isAdded : Monitor α ι → Bool
  | .added => true
  | _ => false

def Thread.serial : Thread α → Traits.SerialWorkItemQueue.Worker α
  | .falling => .asleep false
  | .waiting notified => .asleep notified
  | .running (wi :: queueCopy) => .running (wi :: queueCopy)
  | .leaving | .dead => .ended
  | _ => .ready

def State.serial (s : State α ι) : Traits.SerialWorkItemQueue.State α :=
  ⟨s.workItemQueue,s.thread.serial.told s.monitor.isAdded,s.enqueued,s.executed⟩

def view (throws : α → Option Thrown) (s : State α ι) :
    Action α ι → Option (Traits.SerialWorkItemQueue.Action α)
  | .enqueuer =>
    match s.monitor with
    | .enqueue wi => some (.enqueue wi)
    | _ => none
  | .run =>
    match s.thread with
    | .checking => if s.workItemQueue.isEmpty then some .look else none
    | .copying => some .look
    | .waiting _ => some .wake
    | .running (wi :: _) => some (.run (throws wi))
    | _ => none
  | .spurious => some .wake
  | _ => none

structure Unstopped (throws : α → Option Thrown) (policy : ι → StopPolicy) (s : State α ι) : Prop where
  inv : Inv throws policy s
  stop : s.stop = false
  idle : ∀ i, s.stopper i = .idle

def Matched (throws : α → Option Thrown) (s : State α ι) (action : Action α ι) (t : State α ι) : Prop :=
  match view throws s action with
  | none => t.serial = s.serial
  | some shown => Traits.SerialWorkItemQueue.next .java s.serial shown = some t.serial

section
variable {throws : α → Option Thrown} {policy : ι → StopPolicy} {s t : State α ι} {action : Action α ι}

theorem Thread.serial_notify {thread : Thread α} (outside : thread.inside = false) :
    thread.notify.serial = thread.serial.notify := by
  cases thread with
  | falling => contradiction
  | running queueCopy => cases queueCopy <;> rfl
  | _ => rfl

theorem Matched.enqueuer (inv : Inv throws policy s) (stepped : enqueuerNext s = some t) :
    Matched throws s .enqueuer t := by
  have owned := inv.owned
  unfold Matched view
  simp only [enqueuerNext] at stepped
  split at stepped
  next wi adding =>
    obtain rfl := Option.some.inj stepped
    simp only [adding]
    rw [Traits.SerialWorkItemQueue.next,State.serial,State.serial,adding]
    rfl
  next added =>
    obtain rfl := Option.some.inj stepped
    rw [added] at owned
    have outside : s.thread.inside = false := by simpa using owned
    simp only [added]
    rw [State.serial,State.serial,Thread.serial_notify outside,added]
    rfl
  next notified =>
    obtain rfl := Option.some.inj stepped
    simp only [notified]
    rw [State.serial,State.serial,notified]
    rfl
  next => contradiction

/-- A wake-up shows, whether it is spurious or not. -/
theorem wakes {notified : Bool} (waiting : s.thread = .waiting notified) :
    Traits.SerialWorkItemQueue.next .java s.serial .wake = some { s with thread := .entering }.serial := by
  obtain ⟨later,told⟩ := Traits.SerialWorkItemQueue.Worker.told_asleep α s.monitor.isAdded notified
  simp only [waiting,State.serial,Thread.serial,told,Traits.SerialWorkItemQueue.next,
    Traits.SerialWorkItemQueue.Worker.told_ready]

theorem Matched.run (unstopped : Unstopped throws policy s) (stepped : runNext throws s = some t) :
    Matched throws s .run t := by
  have owned := unstopped.inv.owned
  have ok := unstopped.inv.ok
  unfold Ok at ok
  unfold Matched view
  simp only [runNext] at stepped
  split at stepped
  next entering =>
    split at stepped
    next free =>
      obtain rfl := Option.some.inj stepped
      simp [entering,State.serial,Thread.serial]
    next => contradiction
  next checking =>
    obtain rfl := Option.some.inj stepped
    rw [checking] at owned
    cases empty : s.workItemQueue.isEmpty with
    | true => simp [checking,unstopped.stop,State.serial,owned.mpr rfl,Monitor.isAdded,Thread.serial,
        Traits.SerialWorkItemQueue.next,Traits.SerialWorkItemQueue.Worker.told,empty]
    | false => simp [checking,State.serial,Thread.serial]
  next falling =>
    obtain rfl := Option.some.inj stepped
    rw [falling] at owned
    simp [falling,State.serial,owned.mpr rfl,Thread.serial,Monitor.isAdded]
  next waiting =>
    obtain rfl := Option.some.inj stepped
    simp only [waiting]
    exact wakes waiting
  next => contradiction
  next awake =>
    obtain rfl := Option.some.inj stepped
    simp [awake,unstopped.stop,State.serial,Thread.serial]
  next stopping =>
    rw [stopping] at ok
    exact absurd (unstopped.stop.symm.trans ok) Bool.false_ne_true
  next copying =>
    obtain rfl := Option.some.inj stepped
    rw [copying] at ok
    obtain ⟨wi,queueCopy,filled⟩ := List.exists_cons_of_ne_nil ok
    simp [copying,filled,State.serial,Thread.serial,Traits.SerialWorkItemQueue.next]
  next wi queueCopy running =>
    simp only [running]
    split at stepped
    next threw =>
      obtain rfl := Option.some.inj stepped
      cases queueCopy <;> simp [running,threw,State.serial,Thread.serial,Traits.SerialWorkItemQueue.next,
        Traits.SerialWorkItemQueue.Worker.next]
    next thrown threw =>
      obtain rfl := Option.some.inj stepped
      cases thrown <;> simp [running,threw,State.serial,Thread.serial,Traits.SerialWorkItemQueue.next,
        Traits.SerialWorkItemQueue.Worker.next,Language.catches]
  next running =>
    obtain rfl := Option.some.inj stepped
    simp [running,State.serial,Thread.serial]
  next leaving =>
    obtain rfl := Option.some.inj stepped
    simp [leaving,State.serial,Thread.serial]
  next => contradiction

theorem enqueuer_frame (stepped : enqueuerNext s = some t) : t.stop = s.stop ∧ t.stopper = s.stopper := by
  simp only [enqueuerNext] at stepped
  split at stepped
  next =>
    obtain rfl := Option.some.inj stepped
    exact ⟨rfl,rfl⟩
  next =>
    obtain rfl := Option.some.inj stepped
    exact ⟨rfl,rfl⟩
  next =>
    obtain rfl := Option.some.inj stepped
    exact ⟨rfl,rfl⟩
  next => contradiction

theorem run_frame (stepped : runNext throws s = some t) : t.stop = s.stop ∧ t.stopper = s.stopper := by
  unfold runNext at stepped
  grind

theorem Unstopped.frame (unstopped : Unstopped throws policy s) (inv : Inv throws policy t)
    (same : t.stop = s.stop ∧ t.stopper = s.stopper) : Unstopped throws policy t := by
  refine ⟨inv,same.1.trans unstopped.stop,?_⟩
  rw [same.2]
  exact unstopped.idle

theorem unstopped_step [DecidableEq ι] (unstopped : Unstopped throws policy s) (quiet : ∀ i, action ≠ .stop i)
    (stepped : next throws policy s action = some t) :
    Unstopped throws policy t ∧ Matched throws s action t := by
  have inv := unstopped.inv.step stepped
  cases action with
  | enqueue wi =>
    simp only [next] at stepped
    split at stepped
    next free =>
      obtain rfl := Option.some.inj stepped
      refine ⟨unstopped.frame inv ⟨rfl,rfl⟩,?_⟩
      change State.serial _ = s.serial
      rw [State.serial,State.serial,free]
      rfl
    next => contradiction
  | enqueuer =>
    exact ⟨unstopped.frame inv (enqueuer_frame stepped),Matched.enqueuer unstopped.inv stepped⟩
  | stop i => exact absurd rfl (quiet i)
  | stopper i =>
    simp only [next,stopperNext,unstopped.idle i] at stepped
    contradiction
  | run => exact ⟨unstopped.frame inv (run_frame stepped),Matched.run unstopped stepped⟩
  | spurious =>
    simp only [next] at stepped
    split at stepped
    next notified waiting =>
      obtain rfl := Option.some.inj stepped
      exact ⟨unstopped.frame inv ⟨rfl,rfl⟩,wakes waiting⟩
    next => contradiction

/-- In Java, whatever the items throw. -/
theorem refines [DecidableEq ι] (throws : α → Option Thrown) (policy : ι → StopPolicy) :
    Refines (fun (s : State α ι) a => Unstopped throws policy s ∧ a = s.serial) (view throws)
      ((sys throws policy).restrict (fun _ action => ∀ i, action ≠ .stop i))
      (Traits.SerialWorkItemQueue.sys .java) where
  start := by
    intro s new
    obtain rfl : s = start := new
    exact ⟨_,rfl,⟨inv_start,rfl,fun _ => rfl⟩,rfl⟩
  silent := by
    rintro s action t a ⟨unstopped,rfl⟩ ⟨quiet,stepped⟩ silent
    obtain ⟨later,matched⟩ := unstopped_step unstopped quiet stepped
    rw [Matched,silent] at matched
    exact ⟨later,matched.symm⟩
  visible := by
    rintro s action t a shown ⟨unstopped,rfl⟩ ⟨quiet,stepped⟩ shows
    obtain ⟨later,matched⟩ := unstopped_step unstopped quiet stepped
    rw [Matched,shows] at matched
    exact ⟨_,matched,later,rfl⟩

theorem reachable_serial [DecidableEq ι]
    (reached : Reachable ((sys throws policy).restrict (fun _ action => ∀ i, action ≠ .stop i)) s) :
    Reachable (Traits.SerialWorkItemQueue.sys .java) s.serial := by
  obtain ⟨a,met,_,rfl⟩ := (refines throws policy).reachable reached
  exact met

end
end Toroni.Java.Stop
