import Mathlib.Init

/-! The multi-producer, single-consumer queue. Both operations run under its mutex. -/
namespace Toroni.Traits

structure MPSCMessageQueue (α : Type) where
  queue : List α
  startDrainer : Bool

namespace MPSCMessageQueue
variable {α : Type}

def create : MPSCMessageQueue α := ⟨[],true⟩

def enqueue (q : MPSCMessageQueue α) (msg : α) : Bool × MPSCMessageQueue α :=
  (q.startDrainer,⟨q.queue ++ [msg],false⟩)

def enqueueThrows (q : MPSCMessageQueue α) : MPSCMessageQueue α := ⟨q.queue,false⟩

def drain (q : MPSCMessageQueue α) : List α × MPSCMessageQueue α :=
  (q.queue,⟨[],q.queue.isEmpty⟩)

end MPSCMessageQueue
end Toroni.Traits
