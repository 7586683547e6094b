import VkKernel.BlockLayer

/-!
# Mutexes

`mutex_lock` and `mutex_unlock`. A mutex belongs to a process, which can lock it
again, and one `mutex_unlock` releases it.
-/

namespace VkKernel

/-- A `mutex_t`, processes being numbers. -/
structure Mutex where
  lockedBy : Option ℕ
  waiting : List ℕ
deriving DecidableEq, Repr

/-- `mutex_lock` called by process `p`. -/
def mutexLock (p : ℕ) (m : Mutex) : ErrorT × Mutex :=
  if m.lockedBy = some p then (.none, m)
  else if m.lockedBy ≠ none then (.mutexAlreadyLocked, m)
  else (.none, { m with lockedBy := some p })

/-- `mutex_unlock`, with `mutex_unlock_wakeup` taking the first process off the
waiting list. -/
def mutexUnlock (p : ℕ) (m : Mutex) : ErrorT × Mutex :=
  if m.lockedBy ≠ some p then (.mutexOwnedByOther, m)
  else (.none, { lockedBy := none, waiting := m.waiting.tail })

/-- The part of `mutex_wait` before the process is taken off the scheduler. -/
def mutexWait (p : ℕ) (m : Mutex) : Mutex := { m with waiting := m.waiting ++ [p] }

/-- A mutex is the caller's already, or another process has it, or it is free. -/
theorem mutexLock_cases (p : ℕ) (m : Mutex) :
    m.lockedBy = some p ∧ mutexLock p m = (.none, m) ∨
      m.lockedBy ≠ some p ∧ m.lockedBy ≠ none ∧ mutexLock p m = (.mutexAlreadyLocked, m) ∨
      m.lockedBy = none ∧ mutexLock p m = (.none, { m with lockedBy := some p }) := by
  unfold mutexLock
  by_cases hown : m.lockedBy = some p
  · exact Or.inl ⟨hown, if_pos hown⟩
  · rw [if_neg hown]
    by_cases hother : m.lockedBy ≠ none
    · exact Or.inr (Or.inl ⟨hown, hother, if_pos hother⟩)
    · exact Or.inr (Or.inr ⟨not_not.mp hother, if_neg hother⟩)

end VkKernel
