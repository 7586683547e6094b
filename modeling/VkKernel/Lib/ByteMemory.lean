import Mathlib

/-!
# Byte-addressed memory

A memory is a total function from addresses to bytes. Multi-byte fields are
little endian, and the width is a parameter, so the 16-bit and 32-bit fields of
a packed structure share one set of lemmas.
-/

namespace ByteMemory

abbrev Mem := ℕ → UInt8

/-- The `n`-byte little-endian value stored at `a`. -/
def loadLE (m : Mem) (a : ℕ) : ℕ → ℕ
  | 0 => 0
  | n + 1 => (m a).toNat + 256 * loadLE m (a + 1) n

/-- Store the low `n` bytes of `v` at `a`. -/
def storeLE (m : Mem) (a n v : ℕ) : Mem := fun x =>
  if a ≤ x ∧ x < a + n then UInt8.ofNat (v / 256 ^ (x - a)) else m x

/-- `n` copies of one byte from `a` on. -/
def fill (m : Mem) (a n : ℕ) (c : UInt8) : Mem := fun x =>
  if a ≤ x ∧ x < a + n then c else m x

/-- `n` bytes from `src` to `dst`, the two ranges being apart. -/
def copy (m : Mem) (dst src n : ℕ) : Mem := fun x =>
  if dst ≤ x ∧ x < dst + n then m (src + (x - dst)) else m x

theorem storeLE_apply_of_lt {m : Mem} {a n v x : ℕ} (h : x < a ∨ a + n ≤ x) :
    storeLE m a n v x = m x := by
  unfold storeLE
  rw [if_neg (by omega)]

theorem copy_apply_of_lt {m : Mem} {dst src n x : ℕ} (h : x < dst ∨ dst + n ≤ x) :
    copy m dst src n x = m x := by
  unfold copy
  rw [if_neg (by omega)]

theorem copy_apply_of_mem {m : Mem} {dst src n i : ℕ} (h : i < n) :
    copy m dst src n (dst + i) = m (src + i) := by
  unfold copy
  rw [if_pos (by omega), Nat.add_sub_cancel_left]

theorem loadLE_lt (m : Mem) (a n : ℕ) : loadLE m a n < 256 ^ n := by
  induction n generalizing a with
  | zero => simp [loadLE]
  | succ n ih =>
    have hb : (m a).toNat < 256 := (m a).toNat_lt
    have hr := ih (a + 1)
    rw [loadLE, pow_succ]
    omega

theorem loadLE_congr {m m' : Mem} {a n : ℕ} (h : ∀ x, a ≤ x → x < a + n → m x = m' x) :
    loadLE m a n = loadLE m' a n := by
  induction n generalizing a with
  | zero => rfl
  | succ n ih =>
    rw [loadLE, loadLE, h a le_rfl (by omega), ih fun x hx hx' => h x (by omega) (by omega)]

/-- The bytes of `v`, one by one, load as `v` modulo the field width. -/
theorem loadLE_of_bytes {m : Mem} {a n v : ℕ}
    (h : ∀ i, i < n → m (a + i) = UInt8.ofNat (v / 256 ^ i)) : loadLE m a n = v % 256 ^ n := by
  induction n generalizing a v with
  | zero => simp [loadLE, Nat.mod_one]
  | succ n ih =>
    have h0 : m a = UInt8.ofNat v := by simpa using h 0 (by omega)
    have hr : loadLE m (a + 1) n = (v / 256) % 256 ^ n := by
      apply ih
      intro i hi
      have hs := h (i + 1) (by omega)
      rw [show a + 1 + i = a + (i + 1) by omega, hs, Nat.div_div_eq_div_mul, pow_succ']
    rw [loadLE, h0, hr, pow_succ', Nat.mod_mul]
    simp

theorem loadLE_storeLE_self (m : Mem) (a n v : ℕ) :
    loadLE (storeLE m a n v) a n = v % 256 ^ n := by
  apply loadLE_of_bytes
  intro i hi
  unfold storeLE
  rw [if_pos (by omega), Nat.add_sub_cancel_left]

theorem loadLE_storeLE_of_lt {m : Mem} {a n v : ℕ} (h : v < 256 ^ n) :
    loadLE (storeLE m a n v) a n = v := by
  rw [loadLE_storeLE_self, Nat.mod_eq_of_lt h]

theorem loadLE_storeLE_of_disjoint {m : Mem} {a n v b l : ℕ} (h : a + n ≤ b ∨ b + l ≤ a) :
    loadLE (storeLE m a n v) b l = loadLE m b l := by
  apply loadLE_congr
  intro x hx hx'
  exact storeLE_apply_of_lt (by omega)

end ByteMemory
