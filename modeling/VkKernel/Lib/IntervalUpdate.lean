import Mathlib

/-!
# Updates of an interval

A function on the natural numbers with new values on one interval. Loops that
write one place after the other build such an update from single ones.
-/

namespace IntervalUpdate

variable {α β : Type}

/-- `m` with the values `v 0`, `v 1`, … on the `n` places from `p` on. -/
def overwrite (m : ℕ → α) (p n : ℕ) (v : ℕ → α) : ℕ → α := fun x =>
  if p ≤ x ∧ x < p + n then v (x - p) else m x

theorem overwrite_of_mem {m : ℕ → α} {p n x : ℕ} {v : ℕ → α} (h : p ≤ x) (h' : x < p + n) :
    overwrite m p n v x = v (x - p) := if_pos ⟨h, h'⟩

theorem overwrite_of_notMem {m : ℕ → α} {p n x : ℕ} {v : ℕ → α} (h : x < p ∨ p + n ≤ x) :
    overwrite m p n v x = m x := if_neg (by omega)

@[simp] theorem overwrite_zero (m : ℕ → α) (p : ℕ) (v : ℕ → α) : overwrite m p 0 v = m := by
  funext x
  exact overwrite_of_notMem (by omega)

/-- One more place at the end of the interval. -/
theorem overwrite_succ (m : ℕ → α) (p n : ℕ) (v : ℕ → α) :
    overwrite m p (n + 1) v = overwrite (overwrite m p n v) (p + n) 1 fun _ => v n := by
  funext x
  by_cases hx : x = p + n
  · subst hx
    rw [overwrite_of_mem (by omega) (by omega), overwrite_of_mem le_rfl (by omega),
      Nat.add_sub_cancel_left]
  · by_cases h : p ≤ x ∧ x < p + n
    · rw [overwrite_of_mem h.1 (by omega), overwrite_of_notMem (by omega),
        overwrite_of_mem h.1 h.2]
    · rw [overwrite_of_notMem (by omega), overwrite_of_notMem (by omega),
        overwrite_of_notMem (by omega)]

theorem overwrite_succ_eq_update (m : ℕ → α) (p n : ℕ) (v : ℕ → α) :
    overwrite m p (n + 1) v = Function.update (overwrite m p n v) (p + n) (v n) := by
  rw [overwrite_succ]
  funext x
  by_cases hx : x = p + n
  · subst hx
    rw [overwrite_of_mem le_rfl (by omega), Function.update_self]
  · rw [overwrite_of_notMem (by omega), Function.update_of_ne hx]

/-- An update and the update of the interval behind it. -/
theorem overwrite_append (m : ℕ → α) (p k n : ℕ) (v : ℕ → α) :
    overwrite (overwrite m p k v) (p + k) n (fun i => v (k + i)) = overwrite m p (k + n) v := by
  funext x
  by_cases h : p + k ≤ x ∧ x < p + k + n
  · rw [overwrite_of_mem h.1 h.2, overwrite_of_mem (by omega) (by omega)]
    congr 1
    omega
  · by_cases h' : p ≤ x ∧ x < p + k
    · rw [overwrite_of_notMem (by omega), overwrite_of_mem h'.1 h'.2,
        overwrite_of_mem h'.1 (by omega)]
    · rw [overwrite_of_notMem (by omega), overwrite_of_notMem (by omega),
        overwrite_of_notMem (by omega)]

end IntervalUpdate
