import VkKernel.Lib.ByteMemory
import VkKernel.System

/-!
# Strings

A string in memory ends with a zero byte. `strcfirst` of `lib.c` counts the
characters that two strings have in common at their start.
-/

namespace VkKernel
open ByteMemory

/-- A string in memory. -/
def cstring (s : List UInt8) : Mem := fun i => s.getD i 0

/-- The memory has the string at `a`. It ends at a zero byte. -/
def HasString (m : Mem) (a : ℕ) (str : List UInt8) : Prop := ∀ i ≤ str.length, m (a + i) = str.getD i 0

/-- `strlen`. The loop has the address space to run through. -/
def strlenLoop (m : Mem) (str : ℕ) : ℕ → ℕ → ℕ
  | 0, retval => retval
  | fuel + 1, retval => if m (str + retval) ≠ 0 then strlenLoop m str fuel (retval + 1) else retval

def strlen (m : Mem) (str : ℕ) : ℕ := strlenLoop m str (2 ^ 32) 0

theorem strlenLoop_eq {m : Mem} {a : ℕ} {str : List UInt8} (h : HasString m a str)
    (hstr : ∀ c ∈ str, c ≠ 0) {fuel retval : ℕ} (hle : retval ≤ str.length)
    (hfuel : str.length < fuel + retval) : strlenLoop m a fuel retval = str.length := by
  induction fuel generalizing retval with
  | zero => exact absurd hfuel (by omega)
  | succ fuel ih =>
    rw [strlenLoop, h retval hle]
    by_cases hend : retval = str.length
    · rw [hend, List.getD_eq_default _ _ le_rfl, if_neg (not_not_intro rfl)]
    · have hlt : retval < str.length := by omega
      have hne : str.getD retval 0 ≠ 0 := by
        rw [List.getD_eq_getElem _ _ hlt]
        exact hstr _ (List.getElem_mem hlt)
      rw [if_pos hne, ih (by omega) (by omega)]

theorem strlen_eq {m : Mem} {a : ℕ} {str : List UInt8} (h : HasString m a str)
    (hstr : ∀ c ∈ str, c ≠ 0) (hlen : str.length < 2 ^ 32) : strlen m a = str.length :=
  strlenLoop_eq h hstr (Nat.zero_le _) (by omega)

/-- `strcfirst` as far as the fuel goes. -/
def strcfirst (str0 str1 : Mem) : ℕ → ℕ → ℕ
  | 0, tr => tr
  | fuel + 1, tr => if str0 tr ≠ 0 ∧ str0 tr = str1 tr then strcfirst str0 str1 fuel (tr + 1) else tr

theorem strcfirst_bounds (str0 str1 : Mem) (fuel tr : ℕ) :
    tr ≤ strcfirst str0 str1 fuel tr ∧ strcfirst str0 str1 fuel tr ≤ tr + fuel ∧
      ∀ i, tr ≤ i → i < strcfirst str0 str1 fuel tr → str0 i ≠ 0 ∧ str0 i = str1 i := by
  induction fuel generalizing tr with
  | zero => exact ⟨le_rfl, le_rfl, fun i h1 h2 => absurd h2 (by rw [strcfirst]; omega)⟩
  | succ fuel ih =>
    rw [strcfirst]
    by_cases h : str0 tr ≠ 0 ∧ str0 tr = str1 tr
    · rw [if_pos h]
      obtain ⟨h1, h2, h3⟩ := ih (tr + 1)
      refine ⟨by omega, by omega, fun i hi hi' => ?_⟩
      by_cases hit : i = tr
      · rw [hit]
        exact h
      · exact h3 i (by omega) hi'
    · rw [if_neg h]
      exact ⟨le_rfl, by omega, fun i h1 h2 => absurd h2 (by omega)⟩

/-- The comparison stops where the bytes differ. -/
theorem strcfirst_stop (str0 str1 : Mem) (fuel tr : ℕ)
    (h : strcfirst str0 str1 fuel tr < tr + fuel) :
    ¬(str0 (strcfirst str0 str1 fuel tr) ≠ 0 ∧
      str0 (strcfirst str0 str1 fuel tr) = str1 (strcfirst str0 str1 fuel tr)) := by
  induction fuel generalizing tr with
  | zero => exact absurd h (by rw [strcfirst]; omega)
  | succ fuel ih =>
    rw [strcfirst] at h ⊢
    by_cases hc : str0 tr ≠ 0 ∧ str0 tr = str1 tr
    · rw [if_pos hc] at h ⊢
      exact ih (tr + 1) (by omega)
    · rw [if_neg hc] at h ⊢
      exact hc

theorem cstring_ne {name : List UInt8} (hn : ∀ c ∈ name, c ≠ 0) {i : ℕ} (hi : i < name.length) : cstring name i ≠ 0 := by
  unfold cstring
  rw [List.getD_eq_getElem _ _ hi]
  exact hn _ (List.getElem_mem hi)

theorem cstring_of_le {s : List UInt8} {i : ℕ} (h : s.length ≤ i) : cstring s i = 0 := by
  unfold cstring
  rw [List.getD_eq_default _ _ h]

/-- A string has all its characters in common with a longer one. -/
theorem strcfirst_of_isPrefix {s t : List UInt8} (h : s <+: t) (hs : ∀ c ∈ s, c ≠ 0) :
    strcfirst (cstring s) (cstring t) (s.length + 1) 0 = s.length := by
  obtain ⟨-, hle, heq⟩ := strcfirst_bounds (cstring s) (cstring t) (s.length + 1) 0
  have hend : strcfirst (cstring s) (cstring t) (s.length + 1) 0 ≤ s.length := by
    by_contra hlt
    exact (heq s.length (by omega) (by omega)).1 (cstring_of_le le_rfl)
  by_contra hne
  have hlt : strcfirst (cstring s) (cstring t) (s.length + 1) 0 < s.length := by omega
  apply strcfirst_stop (cstring s) (cstring t) (s.length + 1) 0 (by omega)
  refine ⟨cstring_ne hs hlt, ?_⟩
  obtain ⟨u, rfl⟩ := h
  exact (List.getD_append _ _ _ _ hlt).symm

end VkKernel
