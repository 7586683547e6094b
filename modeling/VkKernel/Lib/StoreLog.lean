import VkKernel.Lib.ByteMemory

/-!
# Logged stores

A memory together with the addresses that have been stored to, the last one first. What a program
writes, and where, can then be stated about its result.
-/

namespace StoreLog
open ByteMemory

structure Logged where
  mem : Mem
  log : List ℕ

/-- The `n` bytes at `a`. -/
def slice (m : Mem) (a n : ℕ) : List UInt8 := (List.range n).map fun i => m (a + i)

@[simp] theorem length_slice (m : Mem) (a n : ℕ) : (slice m a n).length = n := by
  unfold slice
  rw [List.length_map, List.length_range]

theorem getElem_slice {m : Mem} {a n i : ℕ} (h : i < (slice m a n).length) :
    (slice m a n)[i] = m (a + i) := by
  simp [slice]

theorem slice_congr {m m' : Mem} {a n : ℕ} (h : ∀ x, a ≤ x → x < a + n → m x = m' x) :
    slice m a n = slice m' a n := by
  unfold slice
  apply List.map_congr_left
  intro i hi
  have := List.mem_range.mp hi
  exact h _ (by omega) (by omega)

theorem slice_succ (m : Mem) (a n : ℕ) : slice m a (n + 1) = m a :: slice m (a + 1) n := by
  unfold slice
  rw [List.range_succ_eq_map, List.map_cons, List.map_map]
  apply congrArg₂ _ rfl
  apply List.map_congr_left
  intro i _
  rw [Function.comp_apply, Nat.succ_eq_add_one, Nat.add_assoc, Nat.add_comm 1 i]

theorem slice_add (m : Mem) (a n k : ℕ) : slice m a (n + k) = slice m a n ++ slice m (a + n) k := by
  induction n generalizing a with
  | zero =>
    rw [Nat.zero_add, Nat.add_zero]
    rfl
  | succ n ih =>
    rw [Nat.add_right_comm, slice_succ, slice_succ, ih, List.cons_append, Nat.add_right_comm a 1 n, Nat.add_assoc a n 1]

namespace Logged

/-- No store yet. -/
def start (m : Mem) : Logged := ⟨m, []⟩

def put (s : Logged) (a : ℕ) (v : UInt8) : Logged := ⟨Function.update s.mem a v, a :: s.log⟩

/-- Neighbouring bytes, in ascending order. -/
def puts (s : Logged) (a : ℕ) : List UInt8 → Logged
  | [] => s
  | v :: vs => (s.put a v).puts (a + 1) vs

/-- Byte after byte from `src` to `dst`, as `rep movsb` does. The two ranges may overlap. -/
def move (s : Logged) : ℕ → ℕ → ℕ → Logged
  | _, _, 0 => s
  | dst, src, n + 1 => (s.put dst (s.mem src)).move (dst + 1) (src + 1) n

variable {s : Logged} {a x : ℕ} {v : UInt8} {vs : List UInt8}

theorem put_mem_self (s : Logged) (a : ℕ) (v : UInt8) : (s.put a v).mem a = v :=
  Function.update_self _ _ _

theorem put_mem_of_ne (h : x ≠ a) : (s.put a v).mem x = s.mem x := Function.update_of_ne h _ _

theorem mem_log_put : x ∈ (s.put a v).log ↔ x = a ∨ x ∈ s.log := List.mem_cons

theorem puts_mem_of_out (h : x < a ∨ a + vs.length ≤ x) : (s.puts a vs).mem x = s.mem x := by
  induction vs generalizing s a with
  | nil => rfl
  | cons v vs ih =>
    rw [List.length_cons] at h
    rw [puts, ih (by omega), put_mem_of_ne (by omega)]

theorem puts_mem_of_in {i : ℕ} (h : i < vs.length) : (s.puts a vs).mem (a + i) = vs.getD i 0 := by
  induction vs generalizing s a i with
  | nil => exact absurd h (Nat.not_lt_zero i)
  | cons v vs ih =>
    rw [puts]
    cases i with
    | zero =>
      have hfirst : ((s.put a v).puts (a + 1) vs).mem a = v := by
        rw [puts_mem_of_out (by omega), put_mem_self]
      exact hfirst
    | succ i =>
      rw [List.length_cons] at h
      rw [show a + (i + 1) = a + 1 + i by omega, ih (by omega)]
      rfl

theorem mem_log_puts : x ∈ (s.puts a vs).log ↔ (a ≤ x ∧ x < a + vs.length) ∨ x ∈ s.log := by
  induction vs generalizing s a with
  | nil =>
    rw [puts, List.length_nil]
    constructor
    · exact fun h => .inr h
    · intro h
      rcases h with h | h
      · omega
      · exact h
  | cons v vs ih =>
    rw [puts, ih, mem_log_put, List.length_cons]
    constructor
    · intro h
      rcases h with h | h | h
      · exact .inl (by omega)
      · exact .inl (by omega)
      · exact .inr h
    · intro h
      rcases h with h | h
      · by_cases hx : x = a
        · exact .inr (.inl hx)
        · exact .inl (by omega)
      · exact .inr (.inr h)

/-- Fresh addresses keep the log free of repetitions. -/
theorem nodup_log_puts (h : s.log.Nodup) (hfresh : ∀ y ∈ s.log, y < a ∨ a + vs.length ≤ y) :
    (s.puts a vs).log.Nodup := by
  induction vs generalizing s a with
  | nil => exact h
  | cons v vs ih =>
    rw [puts]
    apply ih
    · apply List.nodup_cons.mpr
      refine ⟨fun ha => ?_, h⟩
      have := hfresh a ha
      rw [List.length_cons] at this
      omega
    · intro y hy
      rw [mem_log_put] at hy
      rcases hy with hy | hy
      · omega
      · have := hfresh y hy
        rw [List.length_cons] at this
        omega

theorem slice_puts (s : Logged) (a : ℕ) (vs : List UInt8) : slice (s.puts a vs).mem a vs.length = vs := by
  apply List.ext_getElem (length_slice _ _ _)
  intro i hi hi'
  rw [getElem_slice, puts_mem_of_in hi', List.getD_eq_getElem]

/-- Downwards the overlap does no harm. -/
theorem move_eq_puts {dst src n : ℕ} (h : dst ≤ src) :
    s.move dst src n = s.puts dst (slice s.mem src n) := by
  induction n generalizing s dst src with
  | zero => rfl
  | succ n ih =>
    have hbehind : slice (s.put dst (s.mem src)).mem (src + 1) n = slice s.mem (src + 1) n :=
      slice_congr fun x hx _ => put_mem_of_ne (by omega)
    rw [move, ih (by omega), hbehind, slice_succ, puts]

/-- A move of equal bytes changes nothing. -/
theorem move_mem_of_slice_eq {dst src n : ℕ} (h : slice s.mem dst n = slice s.mem src n) :
    (s.move dst src n).mem = s.mem := by
  induction n generalizing s dst src with
  | zero => rfl
  | succ n ih =>
    rw [slice_succ, slice_succ, List.cons.injEq] at h
    have hput : (s.put dst (s.mem src)).mem = s.mem := by
      rw [← h.1]
      exact Function.update_eq_self _ _
    rw [move, ih (by rw [hput]; exact h.2), hput]

end Logged

end StoreLog
