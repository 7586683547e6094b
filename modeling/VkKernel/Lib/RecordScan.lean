import Mathlib

/-!
# Scans over records

A loop walks over records in a buffer. It adds the length of each record to an offset and
takes it from a counter of the bytes that are left; both are machine words. The loop ends
when the counter is zero or a record stops it. Unless the records run exactly into one of
these two ends, the counter wraps around and the loop leaves the buffer.
-/

namespace RecordScan

/-- `counter` and `offset` bound the two machine words, and `stride o` is the length of the
record at `o`. -/
structure Scan where
  stop : ℕ → Prop
  stride : ℕ → ℕ
  counter : ℕ
  offset : ℕ

namespace Scan

variable (s : Scan)

/-- One round, from the bytes left and the offset. -/
def Round (a b : ℕ × ℕ) : Prop :=
  a.1 ≠ 0 ∧ ¬s.stop a.2 ∧
    b = ((a.1 + s.counter - s.stride a.2) % s.counter, (a.2 + s.stride a.2) % s.offset)

/-- The states at the head of the loop. -/
def Reached (length : ℕ) (a : ℕ × ℕ) : Prop := Relation.ReflTransGen s.Round (length, 0) a

/-- The loop comes to an end within `n` rounds. -/
def EndsIn (s : Scan) : ℕ → ℕ × ℕ → Prop
  | 0, _ => False
  | n + 1, a => a.1 = 0 ∨ s.stop a.2 ∨
      EndsIn s n ((a.1 + s.counter - s.stride a.2) % s.counter, (a.2 + s.stride a.2) % s.offset)

/-- Every record that is examined starts inside the buffer, and none is longer than what is
left of it. -/
structure StaysInside (length : ℕ) : Prop where
  inside : ∀ a, s.Reached length a → a.1 ≠ 0 → a.2 < length
  counter : ∀ a, s.Reached length a → a.1 ≠ 0 → ¬s.stop a.2 → s.stride a.2 ≤ a.1

/-- Where the `n`-th record starts. -/
def start : ℕ → ℕ
  | 0 => 0
  | n + 1 => start n + s.stride (start n % s.offset)

/-- The records follow each other up to the end of the buffer or to one that stops the loop. -/
def FitsIn (length : ℕ) : Prop :=
  ∃ n, (∀ i < n, ¬s.stop (s.start i % s.offset)) ∧ s.start n ≤ length ∧
    (s.start n = length ∨ s.stop (s.start n % s.offset))

variable {s}

theorem start_strictMono (hpos : ∀ o, 0 < s.stride o) : StrictMono s.start := by
  apply strictMono_nat_of_lt_succ
  intro n
  rw [start]
  exact Nat.lt_add_of_pos_right (hpos _)

/-- A round whose record fits. -/
theorem round_of_fits {length n : ℕ} (hlen : length < s.counter)
    (h : s.start n + s.stride (s.start n % s.offset) ≤ length) :
    ((length - s.start n + s.counter - s.stride (s.start n % s.offset)) % s.counter,
      (s.start n % s.offset + s.stride (s.start n % s.offset)) % s.offset) =
      (length - s.start (n + 1), s.start (n + 1) % s.offset) := by
  rw [start, Prod.mk.injEq]
  constructor
  · have heq : length - s.start n + s.counter - s.stride (s.start n % s.offset) =
        length - (s.start n + s.stride (s.start n % s.offset)) + s.counter := by omega
    rw [heq, Nat.add_mod_right, Nat.mod_eq_of_lt (by omega)]
  · rw [Nat.mod_add_mod]

/-- In a buffer that the records fit in, the loop is at the start of a record. -/
theorem FitsIn.reached {length n : ℕ} (hpos : ∀ o, 0 < s.stride o) (hlen : length < s.counter)
    (hle : s.start n ≤ length) (hend : s.start n = length ∨ s.stop (s.start n % s.offset))
    {a : ℕ × ℕ} (h : s.Reached length a) :
    ∃ i ≤ n, a = (length - s.start i, s.start i % s.offset) := by
  induction h with
  | refl =>
    refine ⟨0, Nat.zero_le n, ?_⟩
    rw [start, Nat.sub_zero, Nat.zero_mod]
  | tail _ hround ih =>
    obtain ⟨i, hi, rfl⟩ := ih
    obtain ⟨hne, hgo, rfl⟩ := hround
    have hin : i ≠ n := by
      rintro rfl
      rcases hend with hend | hend
      · apply hne
        dsimp only
        omega
      · exact hgo hend
    have hnext : s.start (i + 1) ≤ s.start n := (start_strictMono hpos).monotone (by omega)
    exact ⟨i + 1, by omega, round_of_fits hlen (hnext.trans hle)⟩

theorem FitsIn.endsIn {length n : ℕ} (hlen : length < s.counter) (hpos : ∀ o, 0 < s.stride o)
    (hle : s.start n ≤ length) (hend : s.start n = length ∨ s.stop (s.start n % s.offset)) {k : ℕ} (hk : k ≤ n) :
    s.EndsIn (k + 1) (length - s.start (n - k), s.start (n - k) % s.offset) := by
  induction k with
  | zero =>
    rw [EndsIn, Nat.sub_zero]
    rcases hend with hend | hend
    · left
      dsimp only
      omega
    · exact Or.inr (Or.inl hend)
  | succ k ih =>
    right
    right
    have hnext : s.start (n - (k + 1) + 1) ≤ s.start n := (start_strictMono hpos).monotone (by omega)
    dsimp only
    rw [round_of_fits hlen (hnext.trans hle), show n - (k + 1) + 1 = n - k by omega]
    exact ih (by omega)

theorem FitsIn.of_endsIn {length n k : ℕ} (hlen : length < s.counter) (h : s.StaysInside length)
    (hreached : s.Reached length (length - s.start n, s.start n % s.offset))
    (hgo : ∀ i < n, ¬s.stop (s.start i % s.offset)) (hle : s.start n ≤ length)
    (hends : s.EndsIn k (length - s.start n, s.start n % s.offset)) : s.FitsIn length := by
  induction k generalizing n with
  | zero => exact hends.elim
  | succ k ih =>
    by_cases hzero : length - s.start n = 0
    · exact ⟨n, hgo, hle, Or.inl (by omega)⟩
    by_cases hstop : s.stop (s.start n % s.offset)
    · exact ⟨n, hgo, hle, Or.inr hstop⟩
    -- the record fits, since the counter does not wrap around
    have hfits := h.counter _ hreached hzero hstop
    dsimp only at hfits
    have hround := round_of_fits (n := n) hlen (by omega)
    have hends' := (hends.resolve_left hzero).resolve_left hstop
    dsimp only at hends'
    rw [hround] at hends'
    apply ih (hreached.tail ⟨hzero, hstop, hround.symm⟩) _ _ hends'
    · intro i hi
      rcases Nat.lt_succ_iff_lt_or_eq.mp hi with hi | rfl
      · exact hgo i hi
      · exact hstop
    · rw [start]
      omega

/-- A scan ends and stays in the buffer exactly when the records fit in it. -/
theorem staysInside_iff {length : ℕ} (hpos : ∀ o, 0 < s.stride o) (hlen : length < s.counter) :
    ((∃ n, s.EndsIn n (length, 0)) ∧ s.StaysInside length) ↔ s.FitsIn length := by
  have hstart : (length, 0) = (length - s.start 0, s.start 0 % s.offset) := by
    rw [start, Nat.sub_zero, Nat.zero_mod]
  constructor
  · rintro ⟨⟨n, hn⟩, h⟩
    rw [hstart] at hn
    apply FitsIn.of_endsIn hlen h _ _ (Nat.zero_le _) hn
    · rw [← hstart]
      exact Relation.ReflTransGen.refl
    · intro i hi
      omega
  · rintro ⟨n, -, hle, hend⟩
    refine ⟨⟨n + 1, ?_⟩, ?_, ?_⟩
    · have h := FitsIn.endsIn hlen hpos hle hend (Nat.le_refl n)
      rw [Nat.sub_self, ← hstart] at h
      exact h
    · intro a ha hne
      obtain ⟨i, -, rfl⟩ := FitsIn.reached hpos hlen hle hend ha
      dsimp only at hne ⊢
      exact (Nat.mod_le _ _).trans_lt (by omega)
    · intro a ha hne hstop
      obtain ⟨i, hi, rfl⟩ := FitsIn.reached hpos hlen hle hend ha
      dsimp only at hne hstop ⊢
      have hin : i ≠ n := by
        rintro rfl
        rcases hend with hend | hend
        · omega
        · exact hstop hend
      have hnext : s.start (i + 1) ≤ s.start n := (start_strictMono hpos).monotone (by omega)
      rw [start] at hnext
      omega

/-- A first record that is longer than the buffer. -/
theorem not_fitsIn_of_lt {length : ℕ} (hpos : ∀ o, 0 < s.stride o) (hne : length ≠ 0) (hgo : ¬s.stop 0)
    (hlt : length < s.stride 0) : ¬s.FitsIn length := by
  rintro ⟨n, -, hle, hend⟩
  cases n with
  | zero =>
    rw [start, Nat.zero_mod] at hend
    rcases hend with hend | hend
    · exact hne hend.symm
    · exact hgo hend
  | succ n =>
    have h1 : s.start 1 ≤ s.start (n + 1) := (start_strictMono hpos).monotone (by omega)
    rw [start, start, Nat.zero_mod] at h1
    omega

end Scan
end RecordScan
