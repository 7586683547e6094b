import VkKernel.Lib.PackedStruct

/-!
# Bitmaps

The bits of a byte memory, eight to a byte and the lowest bit of a byte first.
-/

namespace Bitmap
open ByteMemory IntervalUpdate PackedStruct

def bit (m : Mem) (k : ℕ) : Bool := (m (k / 8)).toNat.testBit (k % 8)

theorem bit_congr {m m' : Mem} {k : ℕ} (h : m (k / 8) = m' (k / 8)) : bit m k = bit m' k := by
  unfold bit
  rw [h]

/-- A test with a shifted one. -/
theorem and_shiftLeft_eq_zero_iff (n j : ℕ) : n &&& (1 <<< j) = 0 ↔ n.testBit j = false := by
  rw [Nat.one_shiftLeft, Nat.and_two_pow]
  cases n.testBit j with
  | false => simp
  | true => simp

/-- The byte with one more bit set. -/
def setBit (b : UInt8) (j : ℕ) : UInt8 := UInt8.ofNat (b.toNat ||| (1 <<< j))

theorem testBit_setBit (b : UInt8) {i j : ℕ} (hj : j < 8) :
    (setBit b j).toNat.testBit i = (b.toNat.testBit i || decide (i = j)) := by
  have hlt : b.toNat ||| (1 <<< j) < 2 ^ 8 := by
    apply Nat.or_lt_two_pow b.toNat_lt
    rw [Nat.one_shiftLeft]
    exact Nat.pow_lt_pow_right (by decide) hj
  unfold setBit
  rw [UInt8.toNat_ofNat_of_lt' hlt, Nat.testBit_or, Nat.one_shiftLeft, Nat.testBit_two_pow]
  simp only [eq_comm]

theorem bit_update_setBit (m : Mem) (k i : ℕ) :
    bit (Function.update m (k / 8) (setBit (m (k / 8)) (k % 8))) i =
      (bit m i || decide (i = k)) := by
  unfold bit
  by_cases hbyte : i / 8 = k / 8
  · rw [hbyte, Function.update_self, testBit_setBit _ (by omega)]
    congr 2
    rw [eq_iff_iff]
    omega
  · rw [Function.update_of_ne hbyte, decide_eq_false (by rintro rfl; exact hbyte rfl),
      Bool.or_false]

theorem bit_update_zero (m : Mem) (p i : ℕ) :
    bit (Function.update m p 0) i = (bit m i && decide (i / 8 ≠ p)) := by
  unfold bit
  by_cases hbyte : i / 8 = p
  · rw [hbyte, Function.update_self, decide_eq_false (not_not_intro rfl), Bool.and_false]
    exact Nat.zero_testBit _
  · rw [Function.update_of_ne hbyte, decide_eq_true hbyte, Bool.and_true]

/-! ## The clear bits in order -/

/-- The clear bits below `n`, the lowest one first. -/
def clearBits (m : Mem) (n : ℕ) : List ℕ := (List.range n).filter fun k => !bit m k

theorem mem_clearBits {m : Mem} {n k : ℕ} :
    k ∈ clearBits m n ↔ k < n ∧ bit m k = false := by
  simp [clearBits]

theorem clearBits_sorted (m : Mem) (n : ℕ) : (clearBits m n).Pairwise (· < ·) :=
  List.pairwise_lt_range.filter _

theorem clearBits_eq_nil {m : Mem} {n : ℕ} (h : ∀ k < n, bit m k = true) :
    clearBits m n = [] := by
  apply List.eq_nil_iff_forall_not_mem.mpr
  intro k hk
  obtain ⟨hlt, hclear⟩ := mem_clearBits.mp hk
  exact absurd (h k hlt) (by simp [hclear])

/-- The list starts with the first clear bit and goes on with those that are left once
that bit is set. -/
theorem clearBits_eq_cons {m m' : Mem} {n k : ℕ} (hk : k < n) (hclear : bit m k = false)
    (hbefore : ∀ i < k, bit m i = true) (hm : ∀ i, bit m' i = (bit m i || decide (i = k))) :
    clearBits m n = k :: clearBits m' n := by
  have hmem : ∀ i, i ∈ clearBits m n ↔ i ∈ k :: clearBits m' n := by
    intro i
    rw [List.mem_cons, mem_clearBits, mem_clearBits, hm]
    by_cases hik : i = k
    · simp [hik, hk, hclear]
    · simp [hik]
  have hsorted : (k :: clearBits m' n).Pairwise (· < ·) := by
    apply List.pairwise_cons.mpr
    refine ⟨fun i hi => ?_, clearBits_sorted m' n⟩
    -- what is left is clear in `m`, so it is not below `k`
    have hi' := (mem_clearBits.mp hi).2
    rw [hm, Bool.or_eq_false_iff, decide_eq_false_iff_not] at hi'
    by_contra hle
    exact absurd (hbefore i (by omega)) (by simp [hi'.1])
  exact List.Perm.eq_of_pairwise (fun a b _ _ hab hba => absurd hba (by omega))
    (clearBits_sorted m n) hsorted
    ((List.perm_ext_iff_of_nodup (clearBits_sorted m n).nodup hsorted.nodup).mpr hmem)

end Bitmap
