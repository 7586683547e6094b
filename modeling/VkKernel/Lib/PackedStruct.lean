import VkKernel.Lib.ByteMemory
import VkKernel.Lib.IntervalUpdate

/-!
# Packed structures

A packed structure is a run of bytes, and a field is an offset and a width in
it. Structures are read from a larger memory through a window that starts at
their first byte and written back as an interval.
-/

namespace PackedStruct
open ByteMemory IntervalUpdate

structure Field where
  offset : ℕ
  width : ℕ
deriving DecidableEq, Repr

namespace Field

def get (f : Field) (m : Mem) : ℕ := loadLE m f.offset f.width

def set (f : Field) (m : Mem) (v : ℕ) : Mem := storeLE m f.offset f.width v

/-- The fields share no byte. -/
def Apart (f g : Field) : Prop := f.offset + f.width ≤ g.offset ∨ g.offset + g.width ≤ f.offset

instance (f g : Field) : Decidable (f.Apart g) :=
  inferInstanceAs (Decidable (_ ∨ _))

theorem get_lt (f : Field) (m : Mem) : f.get m < 256 ^ f.width := loadLE_lt m f.offset f.width

theorem get_set (f : Field) (m : Mem) (v : ℕ) : f.get (f.set m v) = v % 256 ^ f.width :=
  loadLE_storeLE_self m f.offset f.width v

theorem get_set_of_apart {f g : Field} (h : f.Apart g) (m : Mem) (v : ℕ) :
    g.get (f.set m v) = g.get m :=
  loadLE_storeLE_of_disjoint h

theorem get_congr {f : Field} {m m' : Mem}
    (h : ∀ i, f.offset ≤ i → i < f.offset + f.width → m i = m' i) : f.get m = f.get m' :=
  loadLE_congr h

theorem set_of_notMem {f : Field} {m : Mem} {v x : ℕ} (h : x < f.offset ∨ f.offset + f.width ≤ x) :
    f.set m v x = m x :=
  storeLE_apply_of_lt h

end Field

/-- The memory seen from `a` on. -/
def window (m : Mem) (a : ℕ) : Mem := fun i => m (a + i)

theorem loadLE_window (m : Mem) (a b n : ℕ) : loadLE (window m a) b n = loadLE m (a + b) n := by
  induction n generalizing b with
  | zero => rfl
  | succ n ih =>
    rw [loadLE, loadLE, ih, ← Nat.add_assoc]
    rfl

/-- The window on a structure that has just been written. -/
theorem window_overwrite {m : Mem} {a n i : ℕ} {v : Mem} (h : i < n) :
    window (overwrite m a n v) a i = v i := by
  unfold window
  rw [overwrite_of_mem (by omega) (by omega), Nat.add_sub_cancel_left]

theorem overwrite_congr {m : Mem} {a n : ℕ} {v w : Mem} (h : ∀ i, i < n → v i = w i) :
    overwrite m a n v = overwrite m a n w := by
  funext x
  by_cases hx : a ≤ x ∧ x < a + n
  · rw [overwrite_of_mem hx.1 hx.2, overwrite_of_mem hx.1 hx.2, h _ (by omega)]
  · rw [overwrite_of_notMem (by omega), overwrite_of_notMem (by omega)]

/-- Writing back a run of bytes in which one has been changed. -/
theorem overwrite_update_of_eq {m v : Mem} {a n p : ℕ} {c : UInt8} (h : ∀ i, i < n → v i = m (a + i))
    (hp : p < n) : overwrite m a n (Function.update v p c) = Function.update m (a + p) c := by
  funext x
  by_cases hx : x = a + p
  · rw [hx, overwrite_of_mem (by omega) (by omega), Nat.add_sub_cancel_left, Function.update_self,
      Function.update_self]
  · rw [Function.update_of_ne hx]
    by_cases hin : a ≤ x ∧ x < a + n
    · rw [overwrite_of_mem hin.1 hin.2, Function.update_of_ne (by omega), h _ (by omega),
        Nat.add_sub_of_le hin.1]
    · exact overwrite_of_notMem (by omega)

end PackedStruct
