import Mathlib.Algebra.BigOperators.Group.Finset.Piecewise
import Mathlib.Data.Fintype.Basic
import Toroni.Language
import Toroni.Traits.Stop

/-! Stopping the serial work queue in Java, by the atomic steps of its thread, of the calls of `enqueue`
and of any number of calls of `stop`, which notify inside the monitor. No thread is interrupted. -/
namespace Toroni.Java.Stop
open Transition
open Traits.Stop (StopPolicy)

inductive Monitor (α ι : Type)
  | free
  | run
  | enqueue (wi : α)
  | added
  | notified
  | stop (i : ι)

/-- In `run`: entering the monitor, evaluating the condition of `wait`, about to wait behind a true
one, waiting, reading `_stop` behind a false one, reading `_stopPolicy`, about to copy the queue, running
the rest of the copy, and behind the loop. -/
inductive Thread (α : Type)
  | entering
  | checking
  | falling
  | waiting (notified : Bool)
  | awake
  | stopping
  | copying
  | running (queueCopy : List α)
  | leaving
  | dead

namespace Thread
variable {α : Type}

def notify : Thread α → Thread α
  | .waiting _ => .waiting true
  | thread => thread

def inHand : Thread α → List α
  | .running queueCopy => queueCopy
  | _ => []

def isAlive : Thread α → Bool
  | .dead => false
  | _ => true

def inside : Thread α → Bool
  | .checking | .falling | .awake | .stopping | .copying => true
  | _ => false

def asleep : Thread α → Bool
  | .falling | .waiting false => true
  | _ => false

end Thread

/-- In `stop`: the stores of `_stop` and of `_stopPolicy`, entering the monitor, the notification,
leaving the monitor and the join are next. -/
inductive Stopper
  | idle
  | called
  | flagged
  | stored
  | entered
  | notified
  | joining
  | returned
  deriving DecidableEq

namespace Stopper

def inside : Stopper → Bool
  | .entered | .notified => true
  | _ => false

def notifies : Stopper → Bool
  | .flagged | .stored | .entered => true
  | _ => false

end Stopper

/-- `_stopPolicy` is true for `ALWAYS`. The last four are history variables: the items in the order of
`enqueue`, those that have been run, those that have been run or dropped behind one that threw, and
those that were enqueued when `_stop` was set first. -/
structure State (α ι : Type) where
  monitor : Monitor α ι
  workItemQueue : List α
  stop : Bool
  stopPolicy : Bool
  thread : Thread α
  stopper : ι → Stopper
  enqueued : List α
  executed : List α
  finished : List α
  before : List α

inductive Action (α ι : Type)
  | enqueue (wi : α)
  | enqueuer
  | stop (i : ι)
  | stopper (i : ι)
  | run
  | spurious

def Action.begins {α ι : Type} : Action α ι → Bool
  | .enqueue _ | .stop _ => true
  | _ => false

variable {α ι : Type}

def State.set [DecidableEq ι] (s : State α ι) (i : ι) (stopper : Stopper) : State α ι :=
  { s with stopper := Function.update s.stopper i stopper }

def enqueuerNext (s : State α ι) : Option (State α ι) :=
  match s.monitor with
  | .enqueue wi => some { s with
      monitor := .added
      workItemQueue := s.workItemQueue ++ [wi]
      enqueued := s.enqueued ++ [wi] }
  | .added => some { s with monitor := .notified, thread := s.thread.notify }
  | .notified => some { s with monitor := .free }
  | _ => none

def stopperNext [DecidableEq ι] (policy : ι → StopPolicy) (i : ι) (s : State α ι) : Option (State α ι) :=
  match s.stopper i with
  | .called => some { s.set i .flagged with
      stop := true
      before := if s.stop then s.before else s.enqueued }
  | .flagged => some { s.set i .stored with stopPolicy := policy i = .always }
  | .stored =>
    match s.monitor with
    | .free => some { s.set i .entered with monitor := .stop i }
    | _ => none
  | .entered => some { s.set i .notified with thread := s.thread.notify }
  | .notified => some { s.set i .joining with monitor := .free }
  | .joining => if s.thread.isAlive then none else some (s.set i .returned)
  | .idle | .returned => none

/-- What an item throws ends the `forEach` over the copy, and the thread as well if it is an error. -/
def runNext (throws : α → Option Thrown) (s : State α ι) : Option (State α ι) :=
  match s.thread with
  | .entering =>
    match s.monitor with
    | .free => some { s with monitor := .run, thread := .checking }
    | _ => none
  | .checking => some { s with thread := if s.workItemQueue.isEmpty && !s.stop then .falling else .awake }
  | .falling => some { s with monitor := .free, thread := .waiting false }
  | .waiting true => some { s with thread := .entering }
  | .waiting false => none
  | .awake => some { s with thread := if s.stop then .stopping else .copying }
  | .stopping =>
    if s.stopPolicy || s.workItemQueue.isEmpty then some { s with monitor := .free, thread := .leaving }
    else some { s with thread := .copying }
  | .copying => some { s with monitor := .free, workItemQueue := [], thread := .running s.workItemQueue }
  | .running (wi :: queueCopy) =>
    match throws wi with
    | none => some { s with
        thread := .running queueCopy
        executed := s.executed ++ [wi]
        finished := s.finished ++ [wi] }
    | some thrown => some { s with
        thread := if Language.java.catches thrown then .running [] else .leaving
        executed := s.executed ++ [wi]
        finished := s.finished ++ wi :: queueCopy }
  | .running [] => some { s with thread := .entering }
  | .leaving => some { s with thread := .dead }
  | .dead => none

def next [DecidableEq ι] (throws : α → Option Thrown) (policy : ι → StopPolicy) (s : State α ι) :
    Action α ι → Option (State α ι)
  | .enqueue wi =>
    match s.monitor with
    | .free => some { s with monitor := .enqueue wi }
    | _ => none
  | .enqueuer => enqueuerNext s
  | .stop i =>
    match s.stopper i with
    | .idle => some (s.set i (if s.thread.isAlive then .called else .returned))
    | _ => none
  | .stopper i => stopperNext policy i s
  | .run => runNext throws s
  | .spurious =>
    match s.thread with
    | .waiting _ => some { s with thread := .entering }
    | _ => none

def start : State α ι := ⟨.free,[],false,false,.entering,fun _ => .idle,[],[],[],[]⟩

def sys [DecidableEq ι] (throws : α → Option Thrown) (policy : ι → StopPolicy) : System (State α ι) (Action α ι) :=
  .ofNext (fun s => s = start) (next throws policy)

def Crashed (throws : α → Option Thrown) (s : State α ι) : Prop :=
  ∃ wi ∈ s.executed, throws wi = some .error

/-- A call that has returned left the thread dead. If all calls ask for `IF_EMPTY`, what had been
enqueued at the first one is done with by then, unless an error has ended the thread. -/
structure Safe (throws : α → Option Thrown) (policy : ι → StopPolicy) (s : State α ι) : Prop where
  inOrder : s.executed.Sublist s.finished ∧ s.finished <+: s.enqueued
  all : (∀ wi ∈ s.finished, throws wi = none) → s.executed = s.finished
  returned : ∀ i, s.stopper i = .returned → s.thread = .dead
  drained : (∀ i, policy i = .ifEmpty) → ¬ Crashed throws s →
    ∀ i, s.stopper i = .returned → s.before <+: s.finished

structure Settled (s : State α ι) : Prop where
  free : s.monitor = .free
  dead : s.thread = .dead
  returned : ∀ i, s.stopper i = .idle ∨ s.stopper i = .returned

def Thread.left : Thread α → Nat
  | .falling => 7
  | .waiting _ => 6
  | .running queueCopy => 6 + 8 * queueCopy.length
  | .entering => 5
  | .checking => 4
  | .awake => 3
  | .stopping => 2
  | .leaving => 1
  | .copying | .dead => 0

def Monitor.left : Monitor α ι → Nat
  | .enqueue _ => 19
  | .added => 2
  | .notified => 1
  | .free | .run | .stop _ => 0

def Stopper.left : Stopper → Nat
  | .called => 6
  | .flagged => 5
  | .stored => 4
  | .entered => 3
  | .notified => 2
  | .joining => 1
  | .idle | .returned => 0

def State.left [Fintype ι] (s : State α ι) : Nat :=
  s.thread.left + 16 * s.workItemQueue.length + s.monitor.left + ∑ i, (s.stopper i).left

/-- What the thread relies on. While it sleeps, or is about to, behind a set `_stop`, some call will
still notify it. -/
def Ok (throws : α → Option Thrown) (policy : ι → StopPolicy) (s : State α ι) : Prop :=
  match s.thread with
  | .falling | .waiting false => s.stop = true → ∃ i, (s.stopper i).notifies = true
  | .awake => s.workItemQueue ≠ [] ∨ s.stop = true
  | .stopping => s.stop = true
  | .copying => s.workItemQueue ≠ []
  | .leaving | .dead =>
    Crashed throws s ∨ s.stop = true ∧ ((∀ i, policy i = .ifEmpty) → s.before <+: s.finished)
  | .entering | .checking | .waiting true | .running _ => True

structure Inv (throws : α → Option Thrown) (policy : ι → StopPolicy) (s : State α ι) : Prop where
  kept : s.enqueued = s.finished ++ s.thread.inHand ++ s.workItemQueue
  ran : s.executed.Sublist s.finished
  all : (∀ wi ∈ s.finished, throws wi = none) → s.executed = s.finished
  known : s.before <+: s.enqueued
  asked : s.stopPolicy = true → ∃ i, policy i = .always
  owned : s.monitor = .run ↔ s.thread.inside = true
  held : ∀ i, s.monitor = .stop i ↔ (s.stopper i).inside = true
  ok : Ok throws policy s
  joined : ∀ i, s.stopper i = .returned → s.thread = .dead

section
variable {throws : α → Option Thrown} {policy : ι → StopPolicy} {s t : State α ι} {action : Action α ι}

@[simp] theorem Thread.inHand_notify (thread : Thread α) : thread.notify.inHand = thread.inHand := by
  cases thread <;> rfl

@[simp] theorem Thread.inside_notify (thread : Thread α) : thread.notify.inside = thread.inside := by
  cases thread <;> rfl

theorem Thread.notify_cases (thread : Thread α) :
    (∃ notified, thread = .waiting notified) ∧ thread.notify = .waiting true ∨
      thread ≠ .waiting false ∧ thread.notify = thread := by
  cases thread with
  | waiting notified => exact Or.inl ⟨⟨notified,rfl⟩,rfl⟩
  | _ => exact Or.inr ⟨nofun,rfl⟩

theorem Thread.awake_notify (thread : Thread α) (outside : thread.inside = false) :
    thread.notify.asleep = false := by
  cases thread with
  | waiting notified => rfl
  | falling => contradiction
  | _ => rfl

/-- Steps of others that leave the thread what it relies on. -/
theorem Ok.keep (ok : Ok throws policy s) (thread : t.thread = s.thread) (stop : s.stop = true → t.stop = true)
    (queue : s.workItemQueue ≠ [] → t.workItemQueue ≠ []) (before : s.stop = true → t.before = s.before)
    (executed : t.executed = s.executed) (finished : t.finished = s.finished)
    (heard : s.thread.asleep = true → (s.stop = true → ∃ i, (s.stopper i).notifies = true) →
      t.stop = true → ∃ i, (t.stopper i).notifies = true) : Ok throws policy t := by
  unfold Ok at ok ⊢
  rw [thread]
  have gone (last : Crashed throws s ∨ s.stop = true ∧
      ((∀ i, policy i = .ifEmpty) → s.before <+: s.finished)) : Crashed throws t ∨ t.stop = true ∧
        ((∀ i, policy i = .ifEmpty) → t.before <+: t.finished) := by
    rcases last with crashed | ⟨stopped,drained⟩
    · rw [Crashed,executed]
      exact Or.inl crashed
    · rw [before stopped,finished]
      exact Or.inr ⟨stop stopped,drained⟩
  cases here : s.thread with
  | falling =>
    rw [here] at ok heard
    exact heard rfl ok
  | waiting notified =>
    rw [here] at ok heard
    cases notified with
    | false => exact heard rfl ok
    | true => trivial
  | awake =>
    rw [here] at ok
    exact ok.imp queue stop
  | stopping =>
    rw [here] at ok
    exact stop ok
  | copying =>
    rw [here] at ok
    exact queue ok
  | leaving =>
    rw [here] at ok
    exact gone ok
  | dead =>
    rw [here] at ok
    exact gone ok
  | entering => trivial
  | checking => trivial
  | running queueCopy => trivial

theorem Inv.move (inv : Inv throws policy s) {monitor : Monitor α ι} {thread : Thread α}
    (alive : s.thread ≠ .dead) (hand : thread.inHand = s.thread.inHand)
    (owned : monitor = .run ↔ thread.inside = true) (held : ∀ i, monitor = .stop i ↔ s.monitor = .stop i)
    (ok : Ok throws policy { s with monitor := monitor, thread := thread }) :
    Inv throws policy { s with monitor := monitor, thread := thread } := by
  refine ⟨?_,inv.ran,inv.all,inv.known,inv.asked,owned,?_,ok,?_⟩
  · rw [hand]
    exact inv.kept
  · exact fun i => (held i).trans (inv.held i)
  · exact fun i returned => absurd (inv.joined i returned) alive

theorem Inv.own (inv : Inv throws policy s) {monitor : Monitor α ι} (run : monitor = .run ↔ s.monitor = .run)
    (stop : ∀ i, monitor = .stop i ↔ s.monitor = .stop i) : Inv throws policy { s with monitor := monitor } := by
  refine ⟨inv.kept,inv.ran,inv.all,inv.known,inv.asked,?_,?_,inv.ok,inv.joined⟩
  · exact run.trans inv.owned
  · intro i
    exact (stop i).trans (inv.held i)

theorem Inv.notify (inv : Inv throws policy s) : Inv throws policy { s with thread := s.thread.notify } := by
  rcases s.thread.notify_cases with ⟨⟨notified,asleep⟩,woken⟩ | ⟨_,same⟩
  · rw [woken]
    have outside := inv.owned
    rw [asleep] at outside
    exact inv.move (by simp [asleep]) (by simp [asleep,Thread.inHand]) outside (fun _ => Iff.rfl) trivial
  · rw [same]
    exact inv

theorem Inv.enqueuer (inv : Inv throws policy s) (stepped : enqueuerNext s = some t) :
    Inv throws policy t := by
  simp only [enqueuerNext] at stepped
  split at stepped
  next wi adding =>
    obtain rfl := Option.some.inj stepped
    have own : Inv throws policy { s with monitor := .added } := inv.own (by simp [adding]) (by simp [adding])
    refine ⟨?_,inv.ran,inv.all,?_,inv.asked,own.owned,own.held,?_,inv.joined⟩
    · rw [inv.kept,List.append_assoc]
    · exact inv.known.trans (List.prefix_append _ _)
    · exact inv.ok.keep rfl id (by simp) (fun _ => rfl) rfl rfl (fun _ heard => heard)
  next adding =>
    obtain rfl := Option.some.inj stepped
    exact (inv.own (by simp [adding]) (by simp [adding])).notify
  next adding =>
    obtain rfl := Option.some.inj stepped
    exact inv.own (by simp [adding]) (by simp [adding])
  next => contradiction

/-- A thread that is about to wait has not seen the store of `_stop`. -/
theorem Inv.checks (inv : Inv throws policy s) (checking : s.thread = .checking) : Inv throws policy { s with
    thread := if s.workItemQueue.isEmpty && !s.stop then .falling else .awake } := by
  have owned := inv.owned
  rw [checking] at owned
  split
  next empty =>
    refine inv.move (by simp [checking]) (by simp [checking,Thread.inHand]) owned (fun _ => Iff.rfl) ?_
    intro (stopped : s.stop = true)
    simp [stopped] at empty
  next filled =>
    refine inv.move (by simp [checking]) (by simp [checking,Thread.inHand]) owned (fun _ => Iff.rfl) ?_
    change s.workItemQueue ≠ [] ∨ s.stop = true
    simp only [Bool.and_eq_true,Bool.not_eq_true',List.isEmpty_iff,not_and,Bool.not_eq_false] at filled
    exact Classical.or_iff_not_imp_left.mpr (fun empty => filled (Classical.not_not.mp empty))

theorem Inv.wakes (inv : Inv throws policy s) (awake : s.thread = .awake) : Inv throws policy { s with
    thread := if s.stop then .stopping else .copying } := by
  have owned := inv.owned
  have ok := inv.ok
  unfold Ok at ok
  rw [awake] at owned ok
  split
  next stopped =>
    exact inv.move (by simp [awake]) (by simp [awake,Thread.inHand]) owned (fun _ => Iff.rfl) stopped
  next going =>
    exact inv.move (by simp [awake]) (by simp [awake,Thread.inHand]) owned (fun _ => Iff.rfl)
      (ok.resolve_right going)

/-- If no call asks for `ALWAYS` the thread leaves on an empty queue only. -/
theorem Inv.leaves (inv : Inv throws policy s) (stopping : s.thread = .stopping)
    (last : (s.stopPolicy || s.workItemQueue.isEmpty) = true) : Inv throws policy { s with
      monitor := .free
      thread := .leaving } := by
  have owned := inv.owned
  have ok := inv.ok
  unfold Ok at ok
  rw [stopping] at owned ok
  refine inv.move (by simp [stopping]) (by simp [stopping,Thread.inHand]) (by simp [Thread.inside])
    (by simp [owned.mpr rfl]) (Or.inr ⟨ok,fun ifEmpty => ?_⟩)
  rcases Bool.or_eq_true_iff.mp last with always | empty
  · obtain ⟨i,always⟩ := inv.asked always
    simp [ifEmpty i] at always
  · have done : s.enqueued = s.finished := by
      simpa [stopping,Thread.inHand,List.isEmpty_iff.mp empty] using inv.kept
    rw [← done]
    exact inv.known

theorem Inv.copies (inv : Inv throws policy s) (copying : s.thread = .copying) : Inv throws policy { s with
    monitor := .free
    workItemQueue := []
    thread := .running s.workItemQueue } := by
  have owned := inv.owned
  rw [copying] at owned
  have mine := owned.mpr rfl
  refine ⟨?_,inv.ran,inv.all,inv.known,inv.asked,by simp [Thread.inside],?_,trivial,?_⟩
  · simpa [copying,Thread.inHand] using inv.kept
  · intro i
    rw [← inv.held i,mine]
    simp
  · exact fun i returned => absurd (copying.symm.trans (inv.joined i returned)) nofun

theorem Inv.returns {wi : α} {queueCopy : List α} (inv : Inv throws policy s)
    (running : s.thread = .running (wi :: queueCopy)) : Inv throws policy { s with
      thread := .running queueCopy
      executed := s.executed ++ [wi]
      finished := s.finished ++ [wi] } := by
  have owned := inv.owned
  rw [running] at owned
  refine ⟨?_,inv.ran.append (List.Sublist.refl _),?_,inv.known,inv.asked,owned,inv.held,trivial,?_⟩
  · simpa [running,Thread.inHand] using inv.kept
  · intro none
    change s.executed ++ [wi] = s.finished ++ [wi]
    rw [inv.all (fun x member => none x (List.mem_append_left _ member))]
  · exact fun i returned => absurd (running.symm.trans (inv.joined i returned)) nofun

theorem Inv.threw {wi : α} {queueCopy : List α} {thrown : Thrown} (inv : Inv throws policy s)
    (running : s.thread = .running (wi :: queueCopy)) (threw : throws wi = some thrown) :
    Inv throws policy { s with
      thread := if Language.java.catches thrown then .running [] else .leaving
      executed := s.executed ++ [wi]
      finished := s.finished ++ wi :: queueCopy } := by
  have owned := inv.owned
  rw [running] at owned
  have kept : s.enqueued = s.finished ++ wi :: queueCopy ++ s.workItemQueue := by
    simpa [running,Thread.inHand] using inv.kept
  have ran : (s.executed ++ [wi]).Sublist (s.finished ++ wi :: queueCopy) := inv.ran.append (by simp)
  have some_ : ¬ ∀ x ∈ s.finished ++ wi :: queueCopy, throws x = none := by
    intro none
    have quiet := none wi (by simp)
    simp [threw] at quiet
  have alive (i : ι) (returned : s.stopper i = .returned) : False :=
    absurd (running.symm.trans (inv.joined i returned)) nofun
  cases thrown with
  | exception =>
    refine ⟨?_,ran,fun none => absurd none some_,inv.known,inv.asked,owned,inv.held,trivial,
      fun i returned => (alive i returned).elim⟩
    simpa [Language.catches,Thread.inHand] using kept
  | error =>
    refine ⟨?_,ran,fun none => absurd none some_,inv.known,inv.asked,owned,inv.held,?_,
      fun i returned => (alive i returned).elim⟩
    · simpa [Language.catches,Thread.inHand] using kept
    · exact Or.inl ⟨wi,by simp,threw⟩

theorem Inv.run (inv : Inv throws policy s) (stepped : runNext throws s = some t) : Inv throws policy t := by
  have owned := inv.owned
  have ok := inv.ok
  unfold Ok at ok
  simp only [runNext] at stepped
  split at stepped
  next entering =>
    split at stepped
    next free =>
      obtain rfl := Option.some.inj stepped
      exact inv.move (by simp [entering]) (by simp [entering,Thread.inHand]) (by simp [Thread.inside])
        (by simp [free]) trivial
    next => contradiction
  next checking =>
    obtain rfl := Option.some.inj stepped
    exact inv.checks checking
  next falling =>
    obtain rfl := Option.some.inj stepped
    rw [falling] at owned ok
    exact inv.move (by simp [falling]) (by simp [falling,Thread.inHand]) (by simp [Thread.inside])
      (by simp [owned.mpr rfl]) ok
  next waiting =>
    obtain rfl := Option.some.inj stepped
    rw [waiting] at owned
    exact inv.move (by simp [waiting]) (by simp [waiting,Thread.inHand]) owned (fun _ => Iff.rfl) trivial
  next => contradiction
  next awake =>
    obtain rfl := Option.some.inj stepped
    exact inv.wakes awake
  next stopping =>
    split at stepped
    next last =>
      obtain rfl := Option.some.inj stepped
      exact inv.leaves stopping last
    next filled =>
      obtain rfl := Option.some.inj stepped
      rw [stopping] at owned
      refine inv.move (by simp [stopping]) (by simp [stopping,Thread.inHand]) owned (fun _ => Iff.rfl) ?_
      change s.workItemQueue ≠ []
      intro empty
      simp [empty] at filled
  next copying =>
    obtain rfl := Option.some.inj stepped
    exact inv.copies copying
  next wi queueCopy running =>
    split at stepped
    next =>
      obtain rfl := Option.some.inj stepped
      exact inv.returns running
    next thrown threw =>
      obtain rfl := Option.some.inj stepped
      exact inv.threw running threw
  next running =>
    obtain rfl := Option.some.inj stepped
    rw [running] at owned
    exact inv.move (by simp [running]) (by simp [running,Thread.inHand]) owned (fun _ => Iff.rfl) trivial
  next leaving =>
    obtain rfl := Option.some.inj stepped
    rw [leaving] at owned ok
    exact inv.move (by simp [leaving]) (by simp [leaving,Thread.inHand]) owned (fun _ => Iff.rfl) ok
  next => contradiction

theorem inv_start : Inv throws policy (start : State α ι) := by
  refine ⟨rfl,List.Sublist.refl _,fun _ => rfl,List.prefix_rfl,nofun,?_,?_,trivial,nofun⟩
  · simp [start,Thread.inside]
  · simp [start,Stopper.inside]

theorem Inv.safe (inv : Inv throws policy s) : Safe throws policy s := by
  refine ⟨⟨inv.ran,?_⟩,inv.all,inv.joined,?_⟩
  · rw [inv.kept,List.append_assoc]
    exact List.prefix_append _ _
  · intro ifEmpty alive i returned
    have ok := inv.ok
    unfold Ok at ok
    rw [inv.joined i returned] at ok
    exact (ok.resolve_left alive).2 ifEmpty

section
variable [DecidableEq ι]

theorem held_set {i : ι} {phase : Stopper} {monitor : Monitor α ι}
    (own : monitor = .stop i ↔ phase.inside = true)
    (others : ∀ j ≠ i, monitor = .stop j ↔ (s.stopper j).inside = true) (j : ι) :
    monitor = .stop j ↔ (Function.update s.stopper i phase j).inside = true := by
  revert j
  apply (Function.forall_update_iff s.stopper
    (fun j stopper => monitor = .stop j ↔ stopper.inside = true)).mpr
  exact ⟨own,others⟩

theorem joined_set (inv : Inv throws policy s) {i : ι} {phase : Stopper}
    (own : phase = .returned → s.thread = .dead) (j : ι) :
    Function.update s.stopper i phase j = .returned → s.thread = .dead := by
  revert j
  apply (Function.forall_update_iff s.stopper (fun _ stopper => stopper = .returned → s.thread = .dead)).mpr
  exact ⟨own,fun j _ => inv.joined j⟩

theorem heard_set {i : ι} {phase : Stopper} (still : (s.stopper i).notifies = true → phase.notifies = true)
    (heard : ∃ j, (s.stopper j).notifies = true) :
    ∃ j, (Function.update s.stopper i phase j).notifies = true := by
  obtain ⟨j,notifies⟩ := heard
  by_cases same : j = i
  · subst same
    exact ⟨j,by simpa using still notifies⟩
  · exact ⟨j,by simpa [same] using notifies⟩

/-- A call goes on, and may enter the monitor or leave it. -/
theorem Inv.advance (inv : Inv throws policy s) {i : ι} {phase : Stopper} (monitor : Monitor α ι)
    (run : monitor = .run ↔ s.monitor = .run) (own : monitor = .stop i ↔ phase.inside = true)
    (others : ∀ j ≠ i, monitor = .stop j ↔ s.monitor = .stop j)
    (still : (s.stopper i).notifies = true → phase.notifies = true)
    (returned : phase = .returned → s.thread = .dead) :
    Inv throws policy { s.set i phase with monitor := monitor } := by
  refine ⟨inv.kept,inv.ran,inv.all,inv.known,inv.asked,run.trans inv.owned,?_,?_,joined_set inv returned⟩
  · exact held_set own (fun j other => (others j other).trans (inv.held j))
  · exact inv.ok.keep rfl id id (fun _ => rfl) rfl rfl (fun _ heard stopped => heard_set still (heard stopped))

theorem Inv.stopper {i : ι} (inv : Inv throws policy s) (stepped : stopperNext policy i s = some t) :
    Inv throws policy t := by
  have held := inv.held i
  simp only [stopperNext] at stepped
  split at stepped
  next called =>
    obtain rfl := Option.some.inj stepped
    rw [called] at held
    have first (stopped : s.stop = true) : (if s.stop then s.before else s.enqueued) = s.before :=
      if_pos stopped
    refine ⟨inv.kept,inv.ran,inv.all,?_,inv.asked,inv.owned,?_,?_,joined_set inv nofun⟩
    · change (if s.stop then s.before else s.enqueued) <+: s.enqueued
      split
      next => exact inv.known
      next => exact List.prefix_rfl
    · exact held_set held (fun j _ => inv.held j)
    · exact inv.ok.keep rfl (fun _ => rfl) id first rfl rfl (fun _ _ _ => ⟨i,by simp [State.set,Stopper.notifies]⟩)
  next flagged =>
    obtain rfl := Option.some.inj stepped
    rw [flagged] at held
    have moved : Inv throws policy (s.set i .stored) :=
      inv.advance s.monitor Iff.rfl held (fun _ _ => Iff.rfl) (fun _ => rfl) nofun
    exact ⟨moved.kept,moved.ran,moved.all,moved.known,fun always => ⟨i,of_decide_eq_true always⟩,moved.owned,
      moved.held,moved.ok,moved.joined⟩
  next stored =>
    split at stepped
    next free =>
      obtain rfl := Option.some.inj stepped
      exact inv.advance (.stop i) (by simp [free]) (by simp [Stopper.inside])
        (fun j other => by simp [free,Ne.symm other]) (fun _ => rfl) nofun
    next => contradiction
  next entered =>
    obtain rfl := Option.some.inj stepped
    rw [entered] at held
    have told := inv.notify
    refine ⟨told.kept,told.ran,told.all,told.known,told.asked,told.owned,?_,?_,joined_set told nofun⟩
    · exact held_set held (fun j _ => inv.held j)
    · -- the thread is not about to wait while the call is in the monitor, and it has been woken if it waited
      refine told.ok.keep rfl id id (fun _ => rfl) rfl rfl ?_
      intro asleep
      have outside : s.thread.inside = false := by
        have owned := inv.owned
        rw [held.mpr rfl] at owned
        simpa using owned
      exact absurd (s.thread.awake_notify outside) (by simp [asleep])
  next notified =>
    obtain rfl := Option.some.inj stepped
    rw [notified] at held
    have mine := held.mpr rfl
    exact inv.advance .free (by simp [mine]) (by simp [Stopper.inside])
      (fun j other => by simp [mine,Ne.symm other]) (by simp [notified,Stopper.notifies]) nofun
  next joining =>
    rw [joining] at held
    split at stepped
    next => contradiction
    next dead =>
      obtain rfl := Option.some.inj stepped
      refine inv.advance s.monitor Iff.rfl held (fun _ _ => Iff.rfl) (by simp [joining,Stopper.notifies])
        (fun _ => ?_)
      revert dead
      cases s.thread <;> simp [Thread.isAlive]
  next => contradiction
  next => contradiction

theorem Inv.step (inv : Inv throws policy s) (stepped : next throws policy s action = some t) :
    Inv throws policy t := by
  cases action with
  | enqueue wi =>
    simp only [next] at stepped
    split at stepped
    next free =>
      obtain rfl := Option.some.inj stepped
      exact inv.own (by simp [free]) (by simp [free])
    next => contradiction
  | enqueuer => exact inv.enqueuer stepped
  | stop i =>
    simp only [next] at stepped
    split at stepped
    next idle =>
      obtain rfl := Option.some.inj stepped
      have held := inv.held i
      rw [idle] at held
      refine inv.advance s.monitor Iff.rfl (held.trans ?_) (fun _ _ => Iff.rfl)
        (by simp [idle,Stopper.notifies]) ?_
      · split <;> rfl
      · cases s.thread <;> simp [Thread.isAlive]
    next => contradiction
  | stopper i => exact inv.stopper stepped
  | run => exact inv.run stepped
  | spurious =>
    simp only [next] at stepped
    split at stepped
    next waiting =>
      obtain rfl := Option.some.inj stepped
      have owned := inv.owned
      rw [waiting] at owned
      exact inv.move (by simp [waiting]) (by simp [waiting,Thread.inHand]) owned (fun _ => Iff.rfl) trivial
    next => contradiction

theorem reachable_inv (reached : Reachable (sys throws policy) s) : Inv throws policy s := by
  refine reached.invariant (Inv throws policy) ?_ ?_
  · intro s new
    obtain rfl : s = start := new
    exact inv_start
  · exact fun s action t inv stepped => inv.step stepped

end

@[simp] theorem Thread.left_notify (thread : Thread α) : thread.notify.left = thread.left := by
  cases thread <;> rfl

section
variable [Fintype ι]

theorem left_enqueuer (stepped : enqueuerNext s = some t) : t.left < s.left ∧ t.stop = s.stop := by
  simp only [enqueuerNext] at stepped
  split at stepped
  next adding =>
    obtain rfl := Option.some.inj stepped
    simp only [State.left,adding,Monitor.left,List.length_append,List.length_singleton,and_true]
    omega
  next adding =>
    obtain rfl := Option.some.inj stepped
    simp only [State.left,adding,Monitor.left,Thread.left_notify,and_true]
    omega
  next adding =>
    obtain rfl := Option.some.inj stepped
    simp only [State.left,adding,Monitor.left,and_true]
    omega
  next => contradiction

theorem left_run (inv : Inv throws policy s) (stopped : s.stop = true) (stepped : runNext throws s = some t) :
    t.left < s.left ∧ t.stop = true := by
  have ok := inv.ok
  unfold Ok at ok
  simp only [runNext] at stepped
  split at stepped
  next entering =>
    split at stepped
    next free =>
      obtain rfl := Option.some.inj stepped
      refine ⟨?_,stopped⟩
      simp only [State.left,entering,free,Thread.left,Monitor.left]
      omega
    next => contradiction
  next checking =>
    obtain rfl := Option.some.inj stepped
    refine ⟨?_,stopped⟩
    simp only [State.left,checking,stopped,Bool.not_true,Bool.and_false,Thread.left]
    simp
  next falling =>
    obtain rfl := Option.some.inj stepped
    refine ⟨?_,stopped⟩
    simp only [State.left,falling,Thread.left,Monitor.left]
    omega
  next waiting =>
    obtain rfl := Option.some.inj stepped
    refine ⟨?_,stopped⟩
    simp only [State.left,waiting,Thread.left]
    omega
  next => contradiction
  next awake =>
    obtain rfl := Option.some.inj stepped
    refine ⟨?_,stopped⟩
    simp only [State.left,awake,stopped,if_true,Thread.left]
    omega
  next stopping =>
    split at stepped
    next =>
      obtain rfl := Option.some.inj stepped
      refine ⟨?_,stopped⟩
      simp only [State.left,stopping,Thread.left,Monitor.left]
      omega
    next =>
      obtain rfl := Option.some.inj stepped
      refine ⟨?_,stopped⟩
      simp only [State.left,stopping,Thread.left]
      omega
  next copying =>
    obtain rfl := Option.some.inj stepped
    rw [copying] at ok
    have filled := List.length_pos_iff.mpr ok
    refine ⟨?_,stopped⟩
    simp only [State.left,copying,Thread.left,Monitor.left,List.length_nil]
    omega
  next wi queueCopy running =>
    split at stepped
    next =>
      obtain rfl := Option.some.inj stepped
      refine ⟨?_,stopped⟩
      simp only [State.left,running,Thread.left,List.length_cons]
      omega
    next thrown _ =>
      obtain rfl := Option.some.inj stepped
      refine ⟨?_,stopped⟩
      have less : (if Language.java.catches thrown then Thread.running [] else .leaving : Thread α).left ≤ 6 := by
        split <;> simp [Thread.left]
      simp only [State.left,running,Thread.left,List.length_cons] at less ⊢
      omega
  next running =>
    obtain rfl := Option.some.inj stepped
    refine ⟨?_,stopped⟩
    simp only [State.left,running,Thread.left]
    omega
  next leaving =>
    obtain rfl := Option.some.inj stepped
    refine ⟨?_,stopped⟩
    simp only [State.left,leaving,Thread.left]
    omega
  next => contradiction

variable [DecidableEq ι]

theorem left_set {stopper : ι → Stopper} {i : ι} {phase : Stopper} (here : stopper i = phase)
    (after : Stopper) :
    (∑ j, (Function.update stopper i after j).left) + phase.left = (∑ j, (stopper j).left) + after.left := by
  have moved : (fun j => (Function.update stopper i after j).left) =
      Function.update (fun j => (stopper j).left) i after.left :=
    funext (fun j => Function.apply_update (fun _ => Stopper.left) stopper i after j)
  rw [moved,Finset.sum_update_of_mem (Finset.mem_univ i),
    Finset.sum_eq_add_sum_sdiff_singleton_of_mem (Finset.mem_univ i) (fun j => (stopper j).left),here]
  omega

theorem left_stopper {i : ι} (stopped : s.stop = true) (stepped : stopperNext policy i s = some t) :
    t.left < s.left ∧ t.stop = true := by
  simp only [stopperNext] at stepped
  split at stepped
  next called =>
    obtain rfl := Option.some.inj stepped
    have moved : _ + 6 = _ + 5 := left_set called .flagged
    simp only [State.left,State.set,and_true]
    omega
  next flagged =>
    obtain rfl := Option.some.inj stepped
    have moved : _ + 5 = _ + 4 := left_set flagged .stored
    refine ⟨?_,stopped⟩
    simp only [State.left,State.set]
    omega
  next stored =>
    split at stepped
    next free =>
      obtain rfl := Option.some.inj stepped
      have moved : _ + 4 = _ + 3 := left_set stored .entered
      refine ⟨?_,stopped⟩
      simp only [State.left,State.set,free,Monitor.left]
      omega
    next => contradiction
  next entered =>
    obtain rfl := Option.some.inj stepped
    have moved : _ + 3 = _ + 2 := left_set entered .notified
    refine ⟨?_,stopped⟩
    simp only [State.left,State.set,Thread.left_notify]
    omega
  next notified =>
    obtain rfl := Option.some.inj stepped
    have moved : _ + 2 = _ + 1 := left_set notified .joining
    refine ⟨?_,stopped⟩
    simp only [State.left,State.set,Monitor.left]
    omega
  next joining =>
    split at stepped
    next => contradiction
    next =>
      obtain rfl := Option.some.inj stepped
      have moved : _ + 1 = _ + 0 := left_set joining .returned
      refine ⟨?_,stopped⟩
      simp only [State.left,State.set]
      omega
  next => contradiction
  next => contradiction

theorem left_step (inv : Inv throws policy s) (stopped : s.stop = true) (meanwhile : action.begins = false)
    (stepped : next throws policy s action = some t) : t.left < s.left ∧ t.stop = true := by
  cases action with
  | enqueue wi => contradiction
  | enqueuer =>
    obtain ⟨lower,same⟩ := left_enqueuer stepped
    exact ⟨lower,same.trans stopped⟩
  | stop i => contradiction
  | stopper i => exact left_stopper stopped stepped
  | run => exact left_run inv stopped stepped
  | spurious =>
    simp only [next] at stepped
    split at stepped
    next waiting =>
      obtain rfl := Option.some.inj stepped
      refine ⟨?_,stopped⟩
      simp only [State.left,waiting,Thread.left]
      omega
    next => contradiction

end

theorem run_goes (inside : s.thread.inside = true) : runNext throws s ≠ none := by
  unfold runNext
  cases here : s.thread with
  | checking => exact Option.some_ne_none _
  | falling => exact Option.some_ne_none _
  | awake => exact Option.some_ne_none _
  | stopping =>
    dsimp only
    split <;> exact Option.some_ne_none _
  | copying => exact Option.some_ne_none _
  | _ => simp [here,Thread.inside] at inside

theorem run_waits (free : s.monitor = .free) (stuck : runNext throws s = none) :
    s.thread = .waiting false ∨ s.thread = .dead := by
  unfold runNext at stuck
  cases here : s.thread with
  | waiting notified =>
    cases notified with
    | false => exact Or.inl rfl
    | true => simp [here] at stuck
  | dead => exact Or.inr rfl
  | running queueCopy =>
    cases queueCopy with
    | nil => simp [here] at stuck
    | cons wi queueCopy =>
      simp only [here] at stuck
      split at stuck <;> contradiction
  | stopping =>
    simp only [here] at stuck
    split at stuck <;> contradiction
  | _ => simp [here,free] at stuck

section
variable [DecidableEq ι]

theorem stopper_waits {i : ι} (free : s.monitor = .free) (stuck : stopperNext policy i s = none) :
    s.stopper i = .idle ∨ s.stopper i = .returned ∨ s.stopper i = .joining ∧ s.thread.isAlive = true := by
  unfold stopperNext at stuck
  cases here : s.stopper i with
  | idle => exact Or.inl rfl
  | returned => exact Or.inr (Or.inl rfl)
  | joining =>
    simp only [here] at stuck
    split at stuck
    next alive => exact Or.inr (Or.inr ⟨rfl,alive⟩)
    next => contradiction
  | _ => simp [here,free] at stuck

theorem Inv.free (inv : Inv throws policy s) (enqueuer : enqueuerNext s = none) (run : runNext throws s = none)
    (stopper : ∀ i, stopperNext policy i s = none) : s.monitor = .free := by
  cases own : s.monitor with
  | free => rfl
  | run => exact absurd run (run_goes (inv.owned.mp own))
  | enqueue wi => simp [enqueuerNext,own] at enqueuer
  | added => simp [enqueuerNext,own] at enqueuer
  | notified => simp [enqueuerNext,own] at enqueuer
  | stop i =>
    have inside := (inv.held i).mp own
    have stuck := stopper i
    unfold stopperNext at stuck
    cases phase : s.stopper i with
    | entered => simp [phase] at stuck
    | notified => simp [phase] at stuck
    | _ => simp [phase,Stopper.inside] at inside

/-- As long as a call has not returned, some step other than a spurious wake-up can be taken. -/
theorem Inv.goes (inv : Inv throws policy s) (stopped : s.stop = true) : Settled s ∨
    ∃ action t, action.begins = false ∧ action ≠ .spurious ∧ next throws policy s action = some t := by
  by_contra neither
  obtain ⟨unsettled,stuck⟩ := not_or.mp neither
  have refused (action : Action α ι) (meanwhile : action.begins = false) (own : action ≠ .spurious) :
      next throws policy s action = none :=
    Option.eq_none_iff_forall_ne_some.mpr (fun t stepped => stuck ⟨action,t,meanwhile,own,stepped⟩)
  have run : runNext throws s = none := refused .run rfl nofun
  have stopper (i : ι) : stopperNext policy i s = none := refused (.stopper i) rfl nofun
  have free := inv.free (refused .enqueuer rfl nofun) run stopper
  rcases run_waits free run with waiting | dead
  · -- the call that will notify the thread finds the monitor free
    have ok := inv.ok
    unfold Ok at ok
    rw [waiting] at ok
    obtain ⟨i,notifies⟩ := ok stopped
    rcases stopper_waits free (stopper i) with idle | returned | ⟨joining,_⟩
    · simp [idle,Stopper.notifies] at notifies
    · simp [returned,Stopper.notifies] at notifies
    · simp [joining,Stopper.notifies] at notifies
  · refine unsettled ⟨free,dead,fun i => ?_⟩
    rcases stopper_waits free (stopper i) with idle | returned | ⟨_,alive⟩
    · exact Or.inl idle
    · exact Or.inr returned
    · simp [dead,Thread.isAlive] at alive

/-- No notification is lost, as `stop` makes it inside the monitor: once a call has set `_stop`, and while
none begins, the threads cannot take more than `s.left` steps, and they can go on until every call of
`stop` has returned, whatever their order and whatever wake-ups are spurious. -/
theorem every_stop_returns [Fintype ι] (throws : α → Option Thrown) (policy : ι → StopPolicy) (s : State α ι)
    (reached : Reachable (sys throws policy) s) : Safe throws policy s ∧
    (s.stop = true → ∀ actions t,
      Run ((sys throws policy).restrict (fun _ action => action.begins = false)) s actions t →
        actions.length ≤ s.left ∧ (Settled t ∨
          ∃ action u, action.begins = false ∧ action ≠ .spurious ∧ (sys throws policy).step t action u)) := by
  refine ⟨(reachable_inv reached).safe,fun stopped actions t run => ?_⟩
  have lasts := run.length_le (fun s => Inv throws policy s ∧ s.stop = true) State.left
    (fun s action t going stepped => by
      obtain ⟨lower,still⟩ := left_step going.1 going.2 stepped.1 stepped.2
      exact ⟨⟨going.1.step stepped.2,still⟩,lower⟩) ⟨reachable_inv reached,stopped⟩
  exact ⟨by omega,lasts.1.1.goes lasts.1.2⟩

end

end

/-- One call has set `_stop` and another has begun when the item is still in the queue. -/
theorem every_stop_returns_two : ∃ s t : State Nat (Fin 2), s.workItemQueue = [1] ∧ 23 ≤ s.left ∧
    t.stopper 0 = .returned ∧ t.stopper 1 = .returned ∧ t.thread = .dead ∧ [1] <+: t.finished := by
  obtain ⟨s,t,first,second,queue,flag,before,returned,returned'⟩ : ∃ s t : State Nat (Fin 2),
      exec (fun _ _ => true) (next (fun _ => none) (fun _ => .ifEmpty)) start
        [.enqueue 1,.enqueuer,.enqueuer,.enqueuer,.stop 0,.stop 1,.stopper 0] = some s ∧
      exec (fun _ action => !action.begins) (next (fun _ => none) (fun _ => .ifEmpty)) s
        (List.replicate 4 (.stopper 0) ++ List.replicate 5 (.stopper 1) ++ List.replicate 12 .run ++
          [.stopper 0,.stopper 1]) = some t ∧
      s.workItemQueue = [1] ∧ s.stop = true ∧ t.before = [1] ∧ t.stopper 0 = .returned ∧
      t.stopper 1 = .returned :=
    ⟨_,_,rfl,rfl,rfl,rfl,rfl,rfl,rfl⟩
  have reached : Reachable (sys (fun _ => none) (fun _ => .ifEmpty)) s :=
    ⟨start,_,rfl,exec_unrestricted (fun _ _ _ taken => taken) first⟩
  have ran : Run ((sys (fun _ => none) (fun _ => .ifEmpty)).restrict
      (fun _ action => action.begins = false)) s _ t :=
    (exec_run (fun _ _ _ taken => taken) second).weaken
      (fun _ action meanwhile => (Bool.not_eq_true' action.begins).mp meanwhile)
  have later : Reachable (sys (fun _ => none) (fun _ => .ifEmpty)) t := by
    obtain ⟨first,events,initial,earlier⟩ := reached
    exact ⟨first,_,initial,earlier.append ran.unrestrict⟩
  have safe := (every_stop_returns _ _ t later).1
  have alive : ¬ Crashed (fun _ => none) t := by
    rintro ⟨_,_,⟨⟩⟩
  have drained := safe.drained (fun _ => rfl) alive 0 returned
  rw [before] at drained
  have bounded := ((every_stop_returns _ _ s reached).2 flag _ t ran).1
  exact ⟨s,t,queue,bounded,returned,returned',safe.returned 0 returned,drained⟩

end Toroni.Java.Stop
