import Mathlib

/-!
# Reversal in place

A loop that exchanges the two ends of an interval and goes on inwards turns the interval
around.
-/

namespace Reversal

variable {α : Type}

def swap (m : ℕ → α) (a b : ℕ) : ℕ → α := Function.update (Function.update m a (m b)) b (m a)

/-- The loop from the places `i` and `j` behind `s` inwards. -/
def swapLoop (s : ℕ) : ℕ → ℕ → ℕ → (ℕ → α) → ℕ → α
  | 0, _, _, m => m
  | fuel + 1, i, j, m =>
    if i < j then swapLoop s fuel (i + 1) (j - 1) (swap m (s + i) (s + j)) else m

/-- The interval from `a` to `b`, turned around. -/
def mirror (m : ℕ → α) (a b : ℕ) : ℕ → α := fun x => if a ≤ x ∧ x ≤ b then m (a + b - x) else m x

variable {m : ℕ → α} {a b x : ℕ}

theorem mirror_of_mem (h : a ≤ x) (h' : x ≤ b) : mirror m a b x = m (a + b - x) := if_pos ⟨h, h'⟩

theorem mirror_of_notMem (h : x < a ∨ b < x) : mirror m a b x = m x := if_neg (by omega)

theorem swap_left (m : ℕ → α) (a b : ℕ) : swap m a b a = m b := by
  unfold swap
  by_cases h : a = b
  · rw [h, Function.update_self]
  · rw [Function.update_of_ne h, Function.update_self]

theorem swap_right (m : ℕ → α) (a b : ℕ) : swap m a b b = m a := Function.update_self _ _ _

theorem swap_of_ne (h : x ≠ a) (h' : x ≠ b) : swap m a b x = m x := by
  unfold swap
  rw [Function.update_of_ne h', Function.update_of_ne h]

/-- Nothing to turn around. -/
theorem mirror_of_le (h : b ≤ a) : mirror m a b = m := by
  funext x
  by_cases hx : a ≤ x ∧ x ≤ b
  · rw [mirror_of_mem hx.1 hx.2, show a + b - x = x by omega]
  · exact mirror_of_notMem (by omega)

/-- The ends are exchanged first and the rest is turned around. -/
theorem mirror_swap (h : a < b) : mirror (swap m a b) (a + 1) (b - 1) = mirror m a b := by
  funext x
  by_cases hx : a ≤ x ∧ x ≤ b
  · rw [mirror_of_mem hx.1 hx.2]
    by_cases ha : x = a
    · rw [mirror_of_notMem (by omega), ha, swap_left, Nat.add_sub_cancel_left]
    by_cases hb : x = b
    · rw [mirror_of_notMem (by omega), hb, swap_right, Nat.add_sub_cancel]
    -- inside, where the sum of both ends is the same
    rw [mirror_of_mem (by omega) (by omega), show a + 1 + (b - 1) - x = a + b - x by omega,
      swap_of_ne (by omega) (by omega)]
  · rw [mirror_of_notMem (by omega), mirror_of_notMem (by omega),
      swap_of_ne (by omega) (by omega)]

theorem swapLoop_eq (s : ℕ) {fuel i j : ℕ} (hfuel : j ≤ i + fuel) (m : ℕ → α) :
    swapLoop s fuel i j m = mirror m (s + i) (s + j) := by
  induction fuel generalizing i j m with
  | zero => exact (mirror_of_le (by omega)).symm
  | succ fuel ih =>
    rw [swapLoop]
    by_cases h : i < j
    · rw [if_pos h, ih (by omega), ← mirror_swap (show s + i < s + j by omega), ← Nat.add_assoc,
        Nat.add_sub_assoc (by omega)]
    · rw [if_neg h, mirror_of_le (by omega)]

end Reversal
