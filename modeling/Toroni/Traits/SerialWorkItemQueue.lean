import Toroni.Language
import Toroni.Library.Transition

/-! The serial work queue while nobody stops it. What its mutex protects is one step: an enqueuing
with its notification, and the worker's look at the queue. The worker takes the whole queue and runs
its items outside of the mutex, all of them in one `try`. -/
namespace Toroni.Traits.SerialWorkItemQueue
open Transition

inductive Worker (α : Type)
  | ready
  | asleep (notified : Bool)
  | running (queueCopy : List α)
  | ended

namespace Worker
variable {α : Type}

def notify : Worker α → Worker α
  | .asleep _ => .asleep true
  | worker => worker

def inHand : Worker α → List α
  | .running queueCopy => queueCopy
  | _ => []

def next (language : Language) (queueCopy : List α) : Option Thrown → Worker α
  | none => if queueCopy.isEmpty then .ready else .running queueCopy
  | some thrown => if language.catches thrown then .ready else .ended

def steps : Worker α → Nat
  | .asleep _ => 2
  | .ready => 1
  | _ => 0

end Worker

/-- The last two are history variables: the items in the order of `Enqueue`, and those that the
worker has run. -/
structure State (α : Type) where
  workItemQueue : List α
  worker : Worker α
  enqueued : List α
  executed : List α

inductive Action (α : Type)
  | enqueue (wi : α)
  | look
  | wake
  | run (thrown : Option Thrown)

variable {α : Type}

def Action.isWorkers : Action α → Bool
  | .enqueue _ => false
  | _ => true

def State.waiting (s : State α) : List α := s.worker.inHand ++ s.workItemQueue

def next (language : Language) (s : State α) : Action α → Option (State α)
  | .enqueue wi => some { s with
      workItemQueue := s.workItemQueue ++ [wi]
      worker := s.worker.notify
      enqueued := s.enqueued ++ [wi] }
  | .look =>
    match s.worker with
    | .ready =>
      if s.workItemQueue.isEmpty then some { s with worker := .asleep false }
      else some { s with workItemQueue := [], worker := .running s.workItemQueue }
    | _ => none
  | .wake =>
    match s.worker with
    | .asleep _ => some { s with worker := .ready }
    | _ => none
  | .run thrown =>
    match s.worker with
    | .running (wi :: queueCopy) => some { s with
        worker := .next language queueCopy thrown
        executed := s.executed ++ [wi] }
    | _ => none

def start : State α := ⟨[],.ready,[],[]⟩

def sys (language : Language) : System (State α) (Action α) := .ofNext (fun s => s = start) (next language)

/-- Only the last item of a batch throws, and nothing that is not caught. -/
def allowed (language : Language) (s : State α) : Action α → Bool
  | .run (some thrown) => s.worker.inHand.length == 1 && language.catches thrown
  | _ => true

structure Inv (s : State α) : Prop where
  kept : s.enqueued = s.executed ++ s.waiting
  awake : s.worker = .asleep false → s.workItemQueue = []
  busy : s.worker ≠ .running []
  alive : s.worker ≠ .ended

section
variable {language : Language} {s t u : State α} {action : Action α}

@[simp] theorem Worker.inHand_notify (worker : Worker α) : worker.notify.inHand = worker.inHand := by
  cases worker <;> rfl

@[simp] theorem Worker.steps_notify (worker : Worker α) : worker.notify.steps = worker.steps := by
  cases worker <;> rfl

/-- Behind a run that is allowed no item of the batch is dropped. -/
theorem Worker.next_spec {wi : α} {queueCopy : List α} {thrown : Option Thrown}
    (worker : s.worker = .running (wi :: queueCopy)) (ok : allowed language s (.run thrown) = true) :
    Worker.next language queueCopy thrown = if queueCopy.isEmpty then .ready else .running queueCopy := by
  cases thrown with
  | none => rfl
  | some thrown =>
    simp only [allowed,worker,Worker.inHand,Bool.and_eq_true,beq_iff_eq,List.length_cons,Nat.add_eq_right,
      List.length_eq_zero_iff] at ok
    obtain ⟨rfl,caught⟩ := ok
    rw [Worker.next,if_pos caught]
    rfl

theorem look_cases (stepped : next language s .look = some t) :
    s.worker = .ready ∧ s.workItemQueue = [] ∧ t = { s with worker := .asleep false } ∨
      s.worker = .ready ∧ s.workItemQueue ≠ [] ∧
        t = { s with workItemQueue := [], worker := .running s.workItemQueue } := by
  simp only [next] at stepped
  split at stepped
  next worker =>
    split at stepped
    next empty => exact Or.inl ⟨worker,List.isEmpty_iff.mp empty,(Option.some.inj stepped).symm⟩
    next some => exact Or.inr ⟨worker,by simpa using some,(Option.some.inj stepped).symm⟩
  next => contradiction

theorem wake_eq (stepped : next language s .wake = some t) :
    ∃ notified, s.worker = .asleep notified ∧ t = { s with worker := .ready } := by
  simp only [next] at stepped
  split at stepped
  next notified worker => exact ⟨notified,worker,(Option.some.inj stepped).symm⟩
  next => contradiction

theorem run_eq {thrown : Option Thrown} (stepped : next language s (.run thrown) = some t) :
    ∃ wi queueCopy, s.worker = .running (wi :: queueCopy) ∧
      t = { s with worker := .next language queueCopy thrown, executed := s.executed ++ [wi] } := by
  simp only [next] at stepped
  split at stepped
  next wi queueCopy worker => exact ⟨wi,queueCopy,worker,(Option.some.inj stepped).symm⟩
  next => contradiction

theorem Inv.step (inv : Inv s) (ok : allowed language s action = true)
    (stepped : next language s action = some t) : Inv t := by
  obtain ⟨kept,awake,busy,alive⟩ := inv
  cases action with
  | enqueue wi =>
    obtain rfl := Option.some.inj stepped
    refine ⟨?_,?_,?_,?_⟩
    · simp [State.waiting,kept]
    · cases worker : s.worker <;> simp [Worker.notify]
    · cases worker : s.worker <;> simp [Worker.notify,worker] at busy ⊢
      exact busy
    · cases worker : s.worker <;> simp [Worker.notify,worker] at alive ⊢
  | look =>
    rcases look_cases stepped with ⟨worker,empty,rfl⟩ | ⟨worker,some,rfl⟩
    · refine ⟨?_,fun _ => empty,nofun,nofun⟩
      simpa [State.waiting,worker,Worker.inHand] using kept
    · refine ⟨?_,nofun,?_,nofun⟩
      · simpa [State.waiting,worker,Worker.inHand] using kept
      · simpa using some
  | wake =>
    obtain ⟨notified,worker,rfl⟩ := wake_eq stepped
    refine ⟨?_,nofun,nofun,nofun⟩
    simpa [State.waiting,worker,Worker.inHand] using kept
  | run thrown =>
    obtain ⟨wi,queueCopy,worker,rfl⟩ := run_eq stepped
    rw [Worker.next_spec worker ok]
    rw [State.waiting,worker,Worker.inHand] at kept
    split
    next empty =>
      refine ⟨?_,nofun,nofun,nofun⟩
      simpa [State.waiting,Worker.inHand,List.isEmpty_iff.mp empty] using kept
    next more =>
      refine ⟨?_,nofun,?_,nofun⟩
      · simpa [State.waiting,Worker.inHand] using kept
      · simpa using more

theorem reachable_inv
    (reached : Reachable ((sys language).restrict (fun s action => allowed language s action = true)) s) :
    Inv s := by
  refine reached.invariant Inv ?_ ?_
  · intro s new
    obtain rfl : s = start := new
    exact ⟨rfl,nofun,nofun,nofun⟩
  · exact fun s action t inv stepped => inv.step stepped.1 stepped.2

def work (n : Nat) (s : State α) : Nat := 3 * (n - s.executed.length) + s.worker.steps

def workerSteps (actions : List (Action α)) : Nat := actions.countP Action.isWorkers

theorem prefix_step (stepped : next language s action = some t) :
    s.enqueued <+: t.enqueued ∧ s.executed <+: t.executed := by
  cases action with
  | enqueue wi =>
    obtain rfl := Option.some.inj stepped
    exact ⟨List.prefix_append _ _,List.prefix_rfl⟩
  | look =>
    rcases look_cases stepped with ⟨_,_,rfl⟩ | ⟨_,_,rfl⟩
    · exact ⟨List.prefix_rfl,List.prefix_rfl⟩
    · exact ⟨List.prefix_rfl,List.prefix_rfl⟩
  | wake =>
    obtain ⟨_,_,rfl⟩ := wake_eq stepped
    exact ⟨List.prefix_rfl,List.prefix_rfl⟩
  | run thrown =>
    obtain ⟨_,_,_,rfl⟩ := run_eq stepped
    exact ⟨List.prefix_rfl,List.prefix_append _ _⟩

/-- While one of the first `n` items has not been run, each step of the worker brings it nearer. -/
theorem work_step {n : Nat} (inv : Inv s) (ok : allowed language s action = true)
    (stepped : next language s action = some t) (known : n ≤ s.enqueued.length)
    (left : s.executed.length < n) :
    work n t + (if action.isWorkers then 1 else 0) ≤ work n s := by
  have more : s.waiting ≠ [] := by
    intro none
    have kept := inv.kept
    rw [none,List.append_nil] at kept
    rw [kept] at known
    omega
  cases action with
  | enqueue wi =>
    obtain rfl := Option.some.inj stepped
    simp [work,Action.isWorkers]
  | look =>
    rcases look_cases stepped with ⟨worker,empty,_⟩ | ⟨worker,_,rfl⟩
    · simp [State.waiting,worker,Worker.inHand,empty] at more
    · simp [work,Action.isWorkers,worker,Worker.steps]
  | wake =>
    obtain ⟨notified,worker,rfl⟩ := wake_eq stepped
    simp [work,Action.isWorkers,worker,Worker.steps]
  | run thrown =>
    obtain ⟨wi,queueCopy,worker,rfl⟩ := run_eq stepped
    have after : (Worker.next language queueCopy thrown).steps ≤ 1 := by
      rw [Worker.next_spec worker ok]
      split <;> simp [Worker.steps]
    have before : (Worker.running (wi :: queueCopy)).steps = 0 := rfl
    simp only [work,Action.isWorkers,worker,before,List.length_append,List.length_singleton,if_true]
    omega

theorem work_run {n : Nat} {actions : List (Action α)} (inv : Inv s) (known : n ≤ s.enqueued.length)
    (run : Run ((sys language).restrict (fun s action => allowed language s action = true)) s actions t) :
    Inv t ∧ s.enqueued <+: t.enqueued ∧
      (n ≤ t.executed.length ∨ work n t + workerSteps actions ≤ work n s) := by
  induction run with
  | nil => exact ⟨inv,List.prefix_rfl,Or.inr (Nat.le_refl _)⟩
  | @snoc t u events action before last ih =>
    obtain ⟨ok,stepped⟩ := last
    obtain ⟨inv,grown,bound⟩ := ih
    obtain ⟨enqueued,executed⟩ := prefix_step stepped
    refine ⟨inv.step ok stepped,grown.trans enqueued,?_⟩
    by_cases left : t.executed.length < n
    · have nearer := work_step inv ok stepped (Nat.le_trans known grown.length_le) left
      have counted : workerSteps (events ++ [action]) =
          workerSteps events + if action.isWorkers then 1 else 0 := by
        simp [workerSteps,List.countP_append,List.countP_singleton]
      exact Or.inr (by omega)
    · have := executed.length_le
      exact Or.inl (by omega)

/-- A worker that sleeps while items wait has been notified. -/
theorem Inv.roused (inv : Inv s) (more : s.waiting ≠ []) : s.worker ≠ .asleep false := by
  intro asleep
  rw [State.waiting,asleep,inv.awake asleep] at more
  exact more rfl

theorem Inv.can_step (inv : Inv s) (more : s.waiting ≠ []) (language : Language) :
    ∃ action t, action.isWorkers = true ∧ next language s action = some t := by
  cases worker : s.worker with
  | ready =>
    refine ⟨.look,⟨[],.running s.workItemQueue,s.enqueued,s.executed⟩,rfl,?_⟩
    have queued : s.workItemQueue.isEmpty = false := by
      simpa [State.waiting,worker,Worker.inHand] using more
    simp only [next,worker,queued,Bool.false_eq_true,if_false]
  | asleep notified => exact ⟨.wake,{ s with worker := .ready },rfl,by simp only [next,worker]⟩
  | running queueCopy =>
    cases queueCopy with
    | nil => exact absurd worker inv.busy
    | cons wi queueCopy =>
      exact ⟨.run none,⟨s.workItemQueue,.next language queueCopy none,s.enqueued,s.executed ++ [wi]⟩,rfl,
        by simp only [next,worker]⟩
  | ended => exact absurd worker inv.alive

/-- In every run in which only the last item of a batch throws, and only what is caught, the items
have been run once each and in order as far as the worker has come. While others wait it has been
notified if it sleeps, and can go on, and it has run them after a bounded number of steps, whatever is
enqueued meanwhile. -/
theorem executes_in_order
    (reached : Reachable ((sys language).restrict (fun s action => allowed language s action = true)) s) :
    s.enqueued = s.executed ++ s.waiting ∧ s.worker ≠ .ended ∧
      (s.waiting ≠ [] → s.worker ≠ .asleep false ∧
        ∃ action t, action.isWorkers = true ∧ next language s action = some t) ∧
      ∀ actions t, Run ((sys language).restrict (fun s action => allowed language s action = true)) s actions t →
        3 * s.waiting.length + 2 ≤ workerSteps actions → s.enqueued <+: t.executed := by
  have inv := reachable_inv reached
  refine ⟨inv.kept,inv.alive,fun more => ⟨inv.roused more,inv.can_step more language⟩,?_⟩
  intro actions t run enough
  obtain ⟨later,grown,bound⟩ := work_run inv (Nat.le_refl _) run
  have total := congrArg List.length inv.kept
  rw [List.length_append] at total
  have away : s.worker.steps ≤ 2 := by
    cases s.worker <;> simp [Worker.steps]
  have done : s.enqueued.length ≤ t.executed.length := by
    rcases bound with done | bound
    · exact done
    · simp only [work] at bound
      omega
  have started : t.executed <+: t.enqueued := by
    rw [later.kept]
    exact List.prefix_append _ _
  exact List.prefix_of_prefix_length_le grown started done

end

/-- The last item of the first batch throws while a third one has been enqueued. -/
theorem executes_in_order_thrown : ∃ s t : State Nat, s.enqueued = [1,2,3] ∧ s.executed = [1] ∧
    t.enqueued = [1,2,3,4] ∧ [1,2,3] <+: t.executed := by
  obtain ⟨s,t,reached,run,before,after⟩ := exec_passes (sys .java) (allowed .java) (next .java)
    (fun _ _ _ taken => taken) (s := start) rfl [.enqueue 1,.enqueue 2,.look,.run none,.enqueue 3]
    [.run (some .exception),.look,.enqueue 4,.run none,.look,.run none,.look,.wake,.look]
    (fun s => (s.enqueued,s.executed,s.waiting)) ([1,2,3],[1],[2,3]) (fun s => s.enqueued) [1,2,3,4]
    rfl rfl
  obtain ⟨enqueued,rest⟩ := Prod.mk.inj before
  obtain ⟨executed,waiting⟩ := Prod.mk.inj rest
  have served := (executes_in_order reached).2.2.2 _ t run (by rw [waiting]; decide)
  rw [enqueued] at served
  exact ⟨s,t,enqueued,executed,after,served⟩

/-- An item that throws takes the rest of its batch with it, and an `Error` the worker as well. -/
theorem batch_lost :
    (∃ s : State Nat, Reachable (sys .cpp) s ∧ s.enqueued = [1,2] ∧ s.executed = [1] ∧ s.waiting = []) ∧
      ∃ s : State Nat, Reachable (sys .java) s ∧ s.worker = .ended ∧ s.waiting = [2] := by
  constructor
  · obtain ⟨s,reached,lost⟩ := exec_reaches (sys .cpp) (fun _ _ => true) (next .cpp) (fun _ _ _ taken => taken)
      (s := start) rfl [.enqueue 1,.enqueue 2,.look,.run (some .exception)]
      (fun s => (s.enqueued,s.executed,s.waiting)) (([1,2] : List Nat),[1],[]) rfl
    obtain ⟨enqueued,rest⟩ := Prod.mk.inj lost
    obtain ⟨executed,waiting⟩ := Prod.mk.inj rest
    exact ⟨s,reached.unrestrict,enqueued,executed,waiting⟩
  · obtain ⟨s,reached,lost⟩ := exec_reaches (sys .java) (fun _ _ => true) (next .java) (fun _ _ _ taken => taken)
      (s := start) rfl [.enqueue 1,.look,.run (some .error),.enqueue 2]
      (fun s => (s.worker,s.waiting)) (.ended,([2] : List Nat)) rfl
    obtain ⟨worker,waiting⟩ := Prod.mk.inj lost
    exact ⟨s,reached.unrestrict,worker,waiting⟩

end Toroni.Traits.SerialWorkItemQueue
