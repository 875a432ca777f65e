import Toroni.Library.Transition

/-! Stopping the serial work queue in C++, by the atomic steps of the worker, of the calls of
`Enqueue` and of one call of `Stop`. The items throw nothing. -/
namespace Toroni.Traits.Stop
open Transition

inductive StopPolicy
  | ifEmpty
  | always
  deriving DecidableEq

inductive Mutex (α : Type)
  | free
  | worker
  | enqueue (wi : α)
  | pushed
  | notified

/-- In `Run`: taking the mutex, evaluating the predicate of `wait`, about to sleep behind a false
one, asleep, reading `_stop` behind a true one, reading `_stopPolicy`, about to take the queue,
running the rest of it, and behind the loop. -/
inductive Worker (α : Type)
  | locking
  | checking
  | falling
  | asleep (notified : Bool)
  | awake
  | stopping
  | swapping
  | running (queueCopy : List α)
  | ended

namespace Worker
variable {α : Type}

def notify : Worker α → Worker α
  | .asleep _ => .asleep true
  | worker => worker

def inHand : Worker α → List α
  | .running queueCopy => queueCopy
  | _ => []

end Worker

/-- In `Stop`: the stores of `_stop` and of `_stopPolicy`, the notification and the join are next. -/
inductive Stopper
  | idle
  | called
  | flagged
  | notifying
  | joining
  | returned
  deriving DecidableEq

def Stopper.stored : Stopper → Bool
  | .idle | .called => false
  | _ => true

/-- The last three are history variables: the items in the order of `Enqueue`, those that have been
run, and those that were enqueued when `Stop` was called. -/
structure State (α : Type) where
  mutex : Mutex α
  workItemQueue : List α
  stop : Bool
  stopPolicy : StopPolicy
  worker : Worker α
  stopper : Stopper
  enqueued : List α
  executed : List α
  before : List α

inductive Action (α : Type)
  | enqueue (wi : α)
  | enqueuer
  | stop
  | work

variable {α : Type}

def enqueuerNext (s : State α) : Option (State α) :=
  match s.mutex with
  | .enqueue wi => some { s with
      mutex := .pushed
      workItemQueue := s.workItemQueue ++ [wi]
      enqueued := s.enqueued ++ [wi] }
  | .pushed => some { s with mutex := .notified, worker := s.worker.notify }
  | .notified => some { s with mutex := .free }
  | _ => none

/-- `_condvar.notify_one` and the two stores do not take the mutex. -/
def stopNext (policy : StopPolicy) (s : State α) : Option (State α) :=
  match s.stopper with
  | .idle => some { s with stopper := .called, before := s.enqueued }
  | .called => some { s with stopper := .flagged, stop := true }
  | .flagged => some { s with stopper := .notifying, stopPolicy := policy }
  | .notifying => some { s with stopper := .joining, worker := s.worker.notify }
  | .joining =>
    match s.worker with
    | .ended => some { s with stopper := .returned }
    | _ => none
  | .returned => none

/-- A wake-up may be spurious, and `wait` takes the mutex again before it evaluates the predicate. -/
def workNext (s : State α) : Option (State α) :=
  match s.worker with
  | .locking =>
    match s.mutex with
    | .free => some { s with mutex := .worker, worker := .checking }
    | _ => none
  | .checking => some { s with worker := if !s.workItemQueue.isEmpty || s.stop then .awake else .falling }
  | .falling => some { s with mutex := .free, worker := .asleep false }
  | .asleep _ => some { s with worker := .locking }
  | .awake => some { s with worker := if s.stop then .stopping else .swapping }
  | .stopping =>
    if s.stopPolicy = .always ∨ s.workItemQueue.isEmpty then some { s with mutex := .free, worker := .ended }
    else some { s with worker := .swapping }
  | .swapping => some { s with mutex := .free, workItemQueue := [], worker := .running s.workItemQueue }
  | .running (wi :: queueCopy) => some { s with
      worker := .running queueCopy
      executed := s.executed ++ [wi] }
  | .running [] => some { s with worker := .locking }
  | .ended => none

def next (policy : StopPolicy) (s : State α) : Action α → Option (State α)
  | .enqueue wi =>
    match s.mutex with
    | .free => some { s with mutex := .enqueue wi }
    | _ => none
  | .enqueuer => enqueuerNext s
  | .stop => stopNext policy s
  | .work => workNext s

def start : State α := ⟨.free,[],false,.ifEmpty,.locking,.idle,[],[],[]⟩

def sys (policy : StopPolicy) : System (State α) (Action α) := .ofNext (fun s => s = start) (next policy)

/-- `Stop` does not notify while the worker, whose predicate was false, does not sleep yet. -/
def allowed (s : State α) : Action α → Bool
  | .stop =>
    match s.stopper, s.worker with
    | .notifying, .falling => false
    | _, _ => true
  | _ => true

def Stuck (s : State α) : Prop := s.stopper = .joining ∧ s.worker = .asleep false

def Drained (policy : StopPolicy) (s : State α) : Prop :=
  policy = .ifEmpty → s.stopper = .returned → s.before <+: s.executed

structure Safe (policy : StopPolicy) (s : State α) : Prop where
  awake : ¬ Stuck s
  drained : Drained policy s

structure Inv (policy : StopPolicy) (noneLost : Prop) (s : State α) : Prop where
  kept : s.enqueued = s.executed ++ s.worker.inHand ++ s.workItemQueue
  known : s.before <+: s.enqueued
  flag : s.stop = s.stopper.stored
  asked : s.stopPolicy = .always → policy = .always
  heard : noneLost → s.worker = .falling ∨ s.worker = .asleep false → s.stopper ≠ .joining
  told : s.worker = .stopping ∨ s.worker = .ended → s.stop = true
  drained : s.worker = .ended → policy = .ifEmpty → s.before <+: s.executed
  joined : s.stopper = .returned → s.worker = .ended

section
variable {policy : StopPolicy} {noneLost : Prop} {s t : State α} {action : Action α}

@[simp] theorem Worker.inHand_notify (worker : Worker α) : worker.notify.inHand = worker.inHand := by
  cases worker <;> rfl

theorem Worker.notify_cases (worker : Worker α) :
    (∃ notified, worker = .asleep notified) ∧ worker.notify = .asleep true ∨
      worker ≠ .asleep false ∧ worker.notify = worker := by
  cases worker with
  | asleep notified => exact Or.inl ⟨⟨notified,rfl⟩,rfl⟩
  | _ => exact Or.inr ⟨nofun,rfl⟩

theorem Inv.move (inv : Inv policy noneLost s) (mutex : Mutex α) {worker : Worker α} (here : s.worker ≠ .ended)
    (hand : worker.inHand = s.worker.inHand)
    (heard : noneLost → worker = .falling ∨ worker = .asleep false → s.stopper ≠ .joining)
    (told : worker = .stopping ∨ worker = .ended → s.stop = true)
    (drained : worker = .ended → policy = .ifEmpty → s.before <+: s.executed) :
    Inv policy noneLost { s with mutex := mutex, worker := worker } := by
  refine ⟨?_,inv.known,inv.flag,inv.asked,heard,told,drained,?_⟩
  · rw [inv.kept,hand]
  · exact fun returned => absurd (inv.joined returned) here

theorem Inv.own (inv : Inv policy noneLost s) (mutex : Mutex α) : Inv policy noneLost { s with mutex := mutex } := by
  exact ⟨inv.kept,inv.known,inv.flag,inv.asked,inv.heard,inv.told,inv.drained,inv.joined⟩

theorem Inv.notify (inv : Inv policy noneLost s) (mutex : Mutex α) :
    Inv policy noneLost { s with mutex := mutex, worker := s.worker.notify } := by
  rcases s.worker.notify_cases with ⟨⟨notified,asleep⟩,woken⟩ | ⟨_,same⟩
  · rw [woken]
    exact inv.move mutex (by simp [asleep]) (by simp [asleep,Worker.inHand]) (by simp) (by simp) (by simp)
  · rw [same]
    exact inv.own mutex

theorem Inv.enqueuer (inv : Inv policy noneLost s) (stepped : enqueuerNext s = some t) : Inv policy noneLost t := by
  simp only [enqueuerNext] at stepped
  split at stepped
  next wi _ =>
    obtain rfl := Option.some.inj stepped
    refine ⟨?_,?_,inv.flag,inv.asked,inv.heard,inv.told,inv.drained,inv.joined⟩
    · rw [inv.kept,List.append_assoc]
    · exact inv.known.trans (List.prefix_append _ _)
  next =>
    obtain rfl := Option.some.inj stepped
    exact inv.notify _
  next =>
    obtain rfl := Option.some.inj stepped
    exact inv.own _
  next => contradiction

theorem Inv.stop (inv : Inv policy noneLost s) (ok : noneLost → allowed s .stop = true) (stepped : stopNext policy s = some t) :
    Inv policy noneLost t := by
  have flag := inv.flag
  simp only [stopNext] at stepped
  split at stepped
  next idle =>
    obtain rfl := Option.some.inj stepped
    rw [idle] at flag
    refine ⟨inv.kept,List.prefix_rfl,flag,inv.asked,nofun,inv.told,?_,nofun⟩
    intro ended
    have stopped := inv.told (Or.inr ended)
    exact absurd (flag.symm.trans stopped) nofun
  next called =>
    obtain rfl := Option.some.inj stepped
    exact ⟨inv.kept,inv.known,rfl,inv.asked,nofun,fun _ => rfl,inv.drained,nofun⟩
  next flagged =>
    obtain rfl := Option.some.inj stepped
    rw [flagged] at flag
    exact ⟨inv.kept,inv.known,flag,id,nofun,inv.told,inv.drained,nofun⟩
  next notifying =>
    obtain rfl := Option.some.inj stepped
    rw [notifying] at flag
    have told := inv.notify s.mutex
    have later (none : noneLost) : s.worker ≠ .falling := by
      intro falling
      have ok := ok none
      simp [allowed,notifying,falling] at ok
    refine ⟨told.kept,told.known,flag,told.asked,?_,told.told,told.drained,nofun⟩
    -- the worker is not about to sleep, and it has been woken if it slept
    rcases s.worker.notify_cases with ⟨_,woken⟩ | ⟨awake,same⟩
    · simp [woken]
    · rw [same]
      exact fun none heard => (heard.elim (later none) awake).elim
  next joining =>
    split at stepped
    next ended =>
      obtain rfl := Option.some.inj stepped
      rw [joining] at flag
      exact ⟨inv.kept,inv.known,flag,inv.asked,nofun,inv.told,inv.drained,fun _ => ended⟩
    next => contradiction
  next => contradiction

theorem Inv.work (inv : Inv policy noneLost s) (stepped : workNext s = some t) : Inv policy noneLost t := by
  simp only [workNext] at stepped
  split at stepped
  next locking =>
    split at stepped
    next =>
      obtain rfl := Option.some.inj stepped
      exact inv.move _ (by simp [locking]) (by simp [locking,Worker.inHand]) (by simp) (by simp) (by simp)
    next => contradiction
  next checking =>
    obtain rfl := Option.some.inj stepped
    refine inv.move s.mutex (by simp [checking]) ?_ ?_ ?_ ?_
    · split <;> simp [checking,Worker.inHand]
    · -- a worker that finds the predicate false has not seen the store of `_stop`
      split
      next => simp
      next asleep =>
        intro _ _ joining
        have stopped := inv.flag
        rw [joining] at stopped
        simp [stopped,Stopper.stored] at asleep
    · split <;> simp
    · split <;> simp
  next falling =>
    obtain rfl := Option.some.inj stepped
    refine inv.move _ (by simp [falling]) (by simp [falling,Worker.inHand]) ?_ (by simp) (by simp)
    exact fun none _ => inv.heard none (Or.inl falling)
  next asleep =>
    obtain rfl := Option.some.inj stepped
    exact inv.move s.mutex (by simp [asleep]) (by simp [asleep,Worker.inHand]) (by simp) (by simp) (by simp)
  next awake =>
    obtain rfl := Option.some.inj stepped
    refine inv.move s.mutex (by simp [awake]) ?_ ?_ ?_ ?_
    · split <;> simp [awake,Worker.inHand]
    · split <;> simp
    · split <;> simp [*]
    · split <;> simp
  next stopping =>
    have stopped := inv.told (Or.inl stopping)
    split at stepped
    next last =>
      obtain rfl := Option.some.inj stepped
      refine inv.move _ (by simp [stopping]) (by simp [stopping,Worker.inHand]) (by simp) (fun _ => stopped) ?_
      intro _ ifEmpty
      -- with this policy the worker ends on an empty queue only
      rcases last with always | empty
      · simp [inv.asked always] at ifEmpty
      · have kept : s.enqueued = s.executed := by
          simpa [stopping,Worker.inHand,List.isEmpty_iff.mp empty] using inv.kept
        rw [← kept]
        exact inv.known
    next =>
      obtain rfl := Option.some.inj stepped
      exact inv.move s.mutex (by simp [stopping]) (by simp [stopping,Worker.inHand]) (by simp) (by simp) (by simp)
  next swapping =>
    obtain rfl := Option.some.inj stepped
    refine ⟨?_,inv.known,inv.flag,inv.asked,nofun,nofun,nofun,?_⟩
    · simpa [swapping,Worker.inHand] using inv.kept
    · exact fun returned => absurd (swapping.symm.trans (inv.joined returned)) nofun
  next wi queueCopy running =>
    obtain rfl := Option.some.inj stepped
    refine ⟨?_,inv.known,inv.flag,inv.asked,nofun,nofun,nofun,?_⟩
    · simpa [running,Worker.inHand] using inv.kept
    · exact fun returned => absurd (running.symm.trans (inv.joined returned)) nofun
  next running =>
    obtain rfl := Option.some.inj stepped
    exact inv.move s.mutex (by simp [running]) (by simp [running,Worker.inHand]) (by simp) (by simp) (by simp)
  next => contradiction

theorem Inv.step (inv : Inv policy noneLost s) (ok : noneLost → allowed s action = true)
    (stepped : next policy s action = some t) : Inv policy noneLost t := by
  cases action with
  | enqueue wi =>
    simp only [next] at stepped
    split at stepped
    next =>
      obtain rfl := Option.some.inj stepped
      exact inv.own _
    next => contradiction
  | enqueuer => exact inv.enqueuer stepped
  | stop => exact inv.stop ok stepped
  | work => exact inv.work stepped

theorem inv_start : Inv policy noneLost (start : State α) := by
  exact ⟨rfl,List.prefix_rfl,rfl,nofun,nofun,nofun,nofun,nofun⟩

theorem Inv.returned (inv : Inv policy noneLost s) : Drained policy s := by
  intro ifEmpty returned
  exact inv.drained (inv.joined returned) ifEmpty

theorem reachable_inv (reached : Reachable (sys policy) s) : Inv policy False s := by
  refine reached.invariant (Inv policy False) ?_ ?_
  · intro s new
    obtain rfl : s = start := new
    exact inv_start
  · exact fun s action t inv stepped => inv.step nofun stepped

theorem allowed_inv
    (reached : Reachable ((sys policy).restrict (fun s action => allowed s action = true)) s) :
    Inv policy True s := by
  refine reached.invariant (Inv policy True) ?_ ?_
  · intro s new
    obtain rfl : s = start := new
    exact inv_start
  · exact fun s action t inv stepped => inv.step (fun _ => stepped.1) stepped.2

/-- A notification that is not allowed is lost, and the worker sleeps on under the join. -/
theorem lost (refused : allowed s action = false) : ∃ t, Run (sys policy) s [action,.work] t ∧ Stuck t := by
  unfold allowed at refused
  split at refused
  next =>
    split at refused
    next notifying falling =>
      have unheard : next policy s .stop = some { s with stopper := .joining } := by
        simp only [next,stopNext,notifying,falling,Worker.notify]
      have sleeps : next policy { s with stopper := .joining } .work =
          some { s with stopper := .joining, mutex := .free, worker := .asleep false } := by
        simp only [next,workNext,falling]
      exact ⟨_,.cons unheard (.cons sleeps (.nil _)),rfl,rfl⟩
    next => contradiction
  next => contradiction

/-- Stopping is safe in every run in which `Stop` does not notify a worker that is about to sleep. Behind
such a notification the next step of the worker leaves both stuck. What was enqueued before the call has
been run at its end in any run. -/
theorem stop_safe (policy : StopPolicy) :
    (∀ s : State α, Reachable ((sys policy).restrict (fun s action => allowed s action = true)) s →
      Safe policy s) ∧
    (∀ s : State α, Reachable (sys policy) s → Drained policy s) ∧
    ∀ (s : State α) (action : Action α), allowed s action = false →
      ∃ t, Run (sys policy) s [action,.work] t ∧ Stuck t := by
  refine ⟨?_,fun s reached => (reachable_inv reached).returned,fun s action refused => lost refused⟩
  intro s reached
  have inv := allowed_inv reached
  exact ⟨fun ⟨joining,asleep⟩ => inv.heard trivial (Or.inr asleep) joining,inv.returned⟩

end

def enqueuing (wi : α) : List (Action α) := [.enqueue wi,.enqueuer,.enqueuer,.enqueuer]

/-- The call finds two items, and returns when the worker has run them. -/
theorem stop_safe_drained : ∃ s : State Nat, s.stopper = .returned ∧ s.before = [1,2] ∧
    [1,2] <+: s.executed := by
  obtain ⟨s,reached,seen⟩ := exec_reaches (sys .ifEmpty) allowed (next .ifEmpty) (fun _ _ _ taken => taken)
    (s := start) rfl (enqueuing 1 ++ enqueuing 2 ++ List.replicate 4 .stop ++ List.replicate 12 .work ++ [.stop])
    (fun s => (s.stopper,s.before)) (.returned,([1,2] : List Nat)) rfl
  obtain ⟨returned,before⟩ := Prod.mk.inj seen
  have drained := ((stop_safe .ifEmpty).1 s reached).drained rfl returned
  rw [before] at drained
  exact ⟨s,returned,before,drained⟩

/-- The notification comes between the predicate and the sleep. -/
theorem not_stop_safe :
    ¬ ∀ (policy : StopPolicy) (s : State Nat), Reachable (sys policy) s → Safe policy s := by
  intro safe
  obtain ⟨s,reached,seen⟩ := exec_reaches (sys .always) (fun _ _ => true) (next .always)
    (fun _ _ _ taken => taken) (s := start) rfl
    ([.work,.work] ++ List.replicate 4 .stop ++ [.work] : List (Action Nat))
    (fun s => (s.stopper,s.worker)) (.joining,.asleep false) rfl
  obtain ⟨joining,asleep⟩ := Prod.mk.inj seen
  exact (safe .always s reached.unrestrict).awake ⟨joining,asleep⟩

end Toroni.Traits.Stop
