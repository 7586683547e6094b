import VkKernel.Lib.Outcome

/-!
# Machine arithmetic and kernel errors

`unsigned int` values are natural numbers reduced modulo `2^32` at each
arithmetic step that can leave the range.
-/

namespace VkKernel

/-- Why a kernel function does not return: it called `fatal_kernel_error`, which
halts the machine, or one of its loops or recursions goes on for ever. -/
inductive Stop
  | fatal (message context : String)
  | outOfFuel
deriving DecidableEq, Repr

abbrev Result := Except Stop

def fatalKernelError {α : Type} (message context : String) : Result α :=
  .error (.fatal message context)

/-- The bound on the iterations of a loop over addresses or list nodes: a loop
that runs longer has been at some address twice. -/
@[irreducible] def loopFuel : ℕ := 2 ^ 32

def u32 (n : ℕ) : ℕ := n % 2 ^ 32

theorem u32_of_lt {n : ℕ} (h : n < 2 ^ 32) : u32 n = n := Nat.mod_eq_of_lt h

theorem u32_lt (n : ℕ) : u32 n < 2 ^ 32 := Nat.mod_lt _ (by norm_num)

/-- `while(i % a) i++`, which for an `a` dividing `2^32` ends within `a` steps. -/
def alignupLoop (a : ℕ) : ℕ → ℕ → ℕ
  | 0, i => i
  | fuel + 1, i => if i % a = 0 then i else alignupLoop a fuel (u32 (i + 1))

def alignup (i a : ℕ) : ℕ := alignupLoop a a i

/-- `while(i % a) i--`. -/
def aligndown (i a : ℕ) : ℕ := i - i % a

theorem alignupLoop_eq {a r fuel i : ℕ} (hr : a ∣ r) (h32 : r < 2 ^ 32) (hi : i ≤ r)
    (ha : r < i + a) (hf : r ≤ i + fuel) : alignupLoop a fuel i = r := by
  induction fuel generalizing i with
  | zero => rw [alignupLoop]; omega
  | succ fuel ih =>
    rw [alignupLoop]
    split_ifs with h
    · obtain ⟨q, rfl⟩ := hr
      obtain ⟨p, rfl⟩ := Nat.dvd_of_mod_eq_zero h
      have hq : q < p + 1 := Nat.lt_of_mul_lt_mul_left (a := a) (by rw [Nat.mul_succ]; exact ha)
      have hp : a * q ≤ a * p := Nat.mul_le_mul_left a (by omega)
      omega
    · have hne : i ≠ r := by
        rintro rfl
        exact h (Nat.mod_eq_zero_of_dvd hr)
      rw [u32_of_lt (by omega)]
      exact ih (by omega) (by omega) (by omega)

/-- Rounding up, when the rounded value is still a 32-bit number. -/
theorem alignup_eq {i a : ℕ} (ha : 0 < a) (h : (i + a - 1) / a * a < 2 ^ 32) :
    alignup i a = (i + a - 1) / a * a := by
  have hdm := Nat.div_add_mod (i + a - 1) a
  have hml := Nat.mod_lt (i + a - 1) ha
  rw [Nat.mul_comm] at hdm
  exact alignupLoop_eq (Nat.dvd_mul_left a _) h (by omega) (by omega) (by omega)

theorem alignup_of_dvd {i a : ℕ} (h : a ∣ i) : alignup i a = i := by
  unfold alignup
  cases a with
  | zero => rfl
  | succ a => rw [alignupLoop, if_pos (Nat.mod_eq_zero_of_dvd h)]

end VkKernel
