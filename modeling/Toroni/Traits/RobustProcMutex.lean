import Mathlib.Init

/-! The robust process-shared mutex: when its owner dies, the next locker is told
so, marks the mutex consistent and owns it. -/
namespace Toroni.Traits

abbrev Owner := Nat

inductive RobustProcMutex
  | unlocked
  | locked (owner : Owner)
  | ownerDead
  deriving DecidableEq

namespace RobustProcMutex

/-- `none` where `pthread_mutex_lock` blocks. `EOWNERDEAD` is answered by `SetConsistent`. -/
def lock (self : Owner) : RobustProcMutex → Option RobustProcMutex
  | .unlocked => some (.locked self)
  | .ownerDead => some (.locked self)
  | .locked _ => none

def tryLock (self : Owner) : RobustProcMutex → Option RobustProcMutex
  | .unlocked => some (.locked self)
  | .ownerDead => some (.locked self)
  | .locked _ => none

def unlock : RobustProcMutex → RobustProcMutex := fun _ => .unlocked

def ownerDies (owner : Owner) : RobustProcMutex → RobustProcMutex
  | .locked o => if o = owner then .ownerDead else .locked o
  | m => m

variable {lock lock' : RobustProcMutex} {self owner : Owner}

theorem tryLock_eq_some : lock.tryLock self = some lock' ↔ (∀ o, lock ≠ .locked o) ∧ lock' = .locked self := by
  cases lock with
  | unlocked | ownerDead =>
    constructor
    · intro taken
      exact ⟨by simp,(Option.some.inj taken).symm⟩
    · intro ⟨_,own⟩
      exact congrArg some own.symm
  | locked owner => simp [tryLock]

theorem lock_eq_some : lock.lock self = some lock' ↔ (∀ o, lock ≠ .locked o) ∧ lock' = .locked self := by
  have same : lock.lock self = lock.tryLock self := by cases lock <;> rfl
  rw [same,tryLock_eq_some]

theorem ownerDies_eq_locked : lock.ownerDies owner = .locked self ↔ lock = .locked self ∧ self ≠ owner := by
  cases lock with
  | unlocked | ownerDead => simp [ownerDies]
  | locked o =>
    simp only [ownerDies]
    split
    next died =>
      simp only [reduceCtorEq,false_iff,not_and,locked.injEq]
      intro same other
      exact other (same ▸ died)
    next alive =>
      simp only [locked.injEq]
      exact ⟨fun same => ⟨same,same ▸ alive⟩,And.left⟩

theorem ownerDies_eq_unlocked : lock.ownerDies owner = .unlocked ↔ lock = .unlocked := by
  cases lock with
  | unlocked | ownerDead => simp [ownerDies]
  | locked o =>
    simp only [ownerDies]
    split <;> simp

theorem tryLock_isSome (lock : RobustProcMutex) (self : Owner) :
    (lock.tryLock self).isSome = true ↔ ∀ o, lock ≠ .locked o := by
  rw [Option.isSome_iff_exists]
  simp only [tryLock_eq_some,exists_and_left,exists_eq,and_true]

end RobustProcMutex
end Toroni.Traits
