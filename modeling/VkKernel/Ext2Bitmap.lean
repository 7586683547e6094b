import VkKernel.Ext2Alloc

/-!
# The search for a clear bit

What one call of `ext2_bitmap_mark_first_zero_bit` does to a bitmap, and the numbers
that repeated calls return, which is how both allocators hand out a group.
-/

namespace VkKernel.Ext2
open ByteMemory Bitmap

/-- `(u32) -1`, the result for a bitmap without a clear bit. -/
def noBit : ℕ := 2 ^ 32 - 1

/-- The results of `n` calls on one bitmap, and the bitmap after them. -/
def markTimes (len : ℕ) : ℕ → Mem → List ℕ × Mem
  | 0, bitmap => ([], bitmap)
  | n + 1, bitmap =>
    let r := bitmapMarkFirstZeroBit bitmap len
    let rest := markTimes len n r.2
    (r.1 :: rest.1, rest.2)

/-- The results of `n` calls that are bits. -/
def successes (bitmap : Mem) (len n : ℕ) : List ℕ :=
  (markTimes len n bitmap).1.filter fun k => decide (k ≠ noBit)

/-- A call returns the lowest clear bit and sets it, and nothing else, or fails and
changes nothing. -/
structure MarksFirst (bitmap : Mem) (len : ℕ) (r : ℕ × Mem) : Prop where
  fails_iff : r.1 = noBit ∧ r.2 = bitmap ↔ Full bitmap len
  lowest : r.1 ≠ noBit → FirstClear bitmap len r.1
  sets : r.1 ≠ noBit → ∀ i, bit r.2 i = (bit bitmap i || decide (i = r.1))

variable {bitmap : Mem} {len : ℕ}

theorem bitmapMarkFirstZeroBit_of_full (h : Full bitmap len) :
    bitmapMarkFirstZeroBit bitmap len = (noBit, bitmap) := by
  rcases bitmapMarkFirstZeroBit_cases bitmap len with ⟨hr, _⟩ | ⟨k, hk, _⟩
  · exact hr
  · exact absurd h hk.not_full

/-- The number of a bit is not cut off, and it is not the one for no bit. -/
theorem FirstClear.u32_eq {k : ℕ} (h : FirstClear bitmap len k) (hlen : 8 * len < 2 ^ 32) :
    u32 k = k ∧ k ≠ noBit := by
  have hlt := h.lt
  refine ⟨u32_of_lt (by omega), ?_⟩
  unfold noBit
  omega

theorem bitmapMarkFirstZeroBit_of_firstClear {k : ℕ} (h : FirstClear bitmap len k)
    (hlen : 8 * len < 2 ^ 32) : bitmapMarkFirstZeroBit bitmap len =
      (k, Function.update bitmap (k / 8) (setBit (bitmap (k / 8)) (k % 8))) := by
  rcases bitmapMarkFirstZeroBit_cases bitmap len with ⟨_, hfull⟩ | ⟨k', hk', hr⟩
  · exact absurd hfull h.not_full
  · rw [hr, hk'.unique h, (h.u32_eq hlen).1]

theorem full_or_firstClear (bitmap : Mem) (len : ℕ) :
    Full bitmap len ∨ ∃ k, FirstClear bitmap len k := by
  rcases bitmapMarkFirstZeroBit_cases bitmap len with ⟨_, hfull⟩ | ⟨k, hk, _⟩
  · exact Or.inl hfull
  · exact Or.inr ⟨k, hk⟩

theorem bitmapMarkFirstZeroBit_marksFirst (bitmap : Mem) (hlen : 8 * len < 2 ^ 32) :
    MarksFirst bitmap len (bitmapMarkFirstZeroBit bitmap len) := by
  rcases full_or_firstClear bitmap len with hfull | ⟨k, hk⟩
  · rw [bitmapMarkFirstZeroBit_of_full hfull]
    exact ⟨iff_of_true ⟨rfl, rfl⟩ hfull, fun h => absurd rfl h, fun h => absurd rfl h⟩
  · rw [bitmapMarkFirstZeroBit_of_firstClear hk hlen]
    refine ⟨iff_of_false (fun h => (hk.u32_eq hlen).2 h.1) hk.not_full, fun _ => hk, ?_⟩
    intro _ i
    exact bit_update_setBit bitmap k i

/-! ## Repeated calls -/

/-- Once the bitmap is full, all further calls fail. -/
theorem markTimes_of_full (h : Full bitmap len) (n : ℕ) :
    markTimes len n bitmap = (List.replicate n noBit, bitmap) := by
  induction n with
  | zero => rfl
  | succ n ih =>
    rw [markTimes, bitmapMarkFirstZeroBit_of_full h, ih]
    rfl

/-- The calls return the clear bits one after the other and then fail. -/
theorem markTimes_eq (hlen : 8 * len < 2 ^ 32) (n : ℕ) (bitmap : Mem) :
    (markTimes len n bitmap).1 = (clearBits bitmap (8 * len)).take n ++
      List.replicate (n - (clearBits bitmap (8 * len)).length) noBit := by
  induction n generalizing bitmap with
  | zero => simp [markTimes]
  | succ n ih =>
    rcases full_or_firstClear bitmap len with hfull | ⟨k, hk⟩
    · rw [markTimes_of_full hfull, clearBits_eq_nil hfull]
      rfl
    · rw [markTimes, bitmapMarkFirstZeroBit_of_firstClear hk hlen, ih,
        clearBits_eq_cons hk.lt hk.clear hk.before (bit_update_setBit bitmap k),
        List.take_succ_cons, List.length_cons, Nat.add_sub_add_right]
      rfl

theorem successes_eq (bitmap : Mem) (hlen : 8 * len < 2 ^ 32) (n : ℕ) :
    successes bitmap len n = (clearBits bitmap (8 * len)).take n := by
  unfold successes
  rw [markTimes_eq hlen, List.filter_append]
  have hbits : ∀ k ∈ (clearBits bitmap (8 * len)).take n, decide (k ≠ noBit) = true := by
    intro k hk
    have hlt := (mem_clearBits.mp (List.mem_of_mem_take hk)).1
    apply decide_eq_true
    unfold noBit
    omega
  rw [List.filter_eq_self.mpr hbits]
  simp

/-- Every call marks the lowest clear bit, and repeated calls return strictly increasing
numbers, one for each clear bit. -/
theorem bitmapMarkFirstZeroBit_search (bitmap : Mem) (len : ℕ) (hlen : 8 * len < 2 ^ 32) :
    MarksFirst bitmap len (bitmapMarkFirstZeroBit bitmap len) ∧
      ∀ n, (successes bitmap len n).Pairwise (· < ·) ∧
        (successes bitmap len n).length = min n (clearBits bitmap (8 * len)).length ∧
        (markTimes len n bitmap).1 = (clearBits bitmap (8 * len)).take n ++
          List.replicate (n - (clearBits bitmap (8 * len)).length) noBit := by
  refine ⟨bitmapMarkFirstZeroBit_marksFirst bitmap hlen, fun n => ?_⟩
  rw [successes_eq bitmap hlen]
  exact ⟨(clearBits_sorted _ _).take, List.length_take, markTimes_eq hlen n bitmap⟩

/-- A byte with the bits 1 and 3 clear. -/
theorem bitmapMarkFirstZeroBit_search_byte : 8 * 1 < 2 ^ 32 ∧
    (successes (fun _ => 0xF5) 1 5).Pairwise (· < ·) :=
  ⟨by decide, ((bitmapMarkFirstZeroBit_search (fun _ => 0xF5) 1 (by decide)).2 5).1⟩

end VkKernel.Ext2
