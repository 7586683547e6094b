import VkKernel.TrailingSlash

/-!
# Splitting strings

`strsplit` counts every separator, and skips one at the start of each piece that it cuts. Behind the
first piece this is the separator that ended the one before.
-/

namespace VkKernel.Vfs

section Split
variable {regex : UInt8} {str : List UInt8}

theorem length_splitOn (regex : UInt8) (str : List UInt8) :
    (str.splitOn regex).length = str.count regex + 1 := by
  induction str with
  | nil => rfl
  | cons x str ih =>
    rw [List.splitOn_cons_eq_if_modifyHead, List.count_cons]
    split_ifs <;> simp [ih]

/-- No piece has a separator. -/
theorem notMem_of_mem_splitOn {p : List UInt8} (h : p ∈ str.splitOn regex) : regex ∉ p := by
  induction str generalizing p with
  | nil =>
    rw [List.splitOn_nil, List.mem_singleton] at h
    simp [h]
  | cons x str ih =>
    rw [List.splitOn_cons_eq_if_modifyHead] at h
    split_ifs at h with hx
    · rcases List.mem_cons.mp h with h | h
      · simp [h]
      · exact ih h
    · cases hrest : str.splitOn regex with
      | nil => exact absurd hrest (List.splitOn_ne_nil regex str)
      | cons q qs =>
        rw [hrest, List.modifyHead_cons, List.mem_cons] at h
        rcases h with rfl | h
        · have hq : regex ∉ q := ih (by rw [hrest]; exact List.mem_cons_self)
          rw [beq_iff_eq] at hx
          simp [Ne.symm hx, hq]
        · apply ih
          rw [hrest]
          exact List.mem_cons_of_mem _ h

/-- The string that a piece is cut from. -/
def skipFirst (regex : UInt8) (off : List UInt8) : List UInt8 :=
  if off.head? = some regex then off.tail else off

/-- Where the first piece ends. -/
theorem takeWhile_append_regex {xs : List UInt8} (h : regex ∉ xs) (as : List UInt8) :
    (xs ++ regex :: as).takeWhile (· ≠ regex) = xs ∧
      (xs ++ regex :: as).dropWhile (· ≠ regex) = regex :: as := by
  have hall : ∀ x ∈ xs, decide (x ≠ regex) = true := by
    intro x hx
    apply decide_eq_true
    exact fun heq => h (heq ▸ hx)
  constructor
  · rw [List.takeWhile_append_of_pos hall]
    simp
  · rw [List.dropWhile_append_of_pos hall]
    simp

/-- A separator that is found is not the first character. -/
theorem length_lt_of_skipFirst {xs as : List UInt8} (h : skipFirst regex str = xs ++ regex :: as) :
    as.length + 1 < str.length := by
  unfold skipFirst at h
  cases str with
  | nil =>
    rw [List.head?_nil, if_neg (by simp)] at h
    simp at h
  | cons x str =>
    rw [List.length_cons]
    split_ifs at h with hhead
    · rw [List.tail_cons] at h
      rw [h, List.length_append, List.length_cons]
      omega
    · cases xs with
      | nil =>
        rw [List.nil_append, List.cons.injEq] at h
        rw [List.head?_cons, h.1] at hhead
        exact absurd rfl hhead
      | cons y xs =>
        rw [List.cons_append, List.cons.injEq] at h
        rw [h.2, List.length_append, List.length_cons]
        omega

/-- The pieces of `strsplit` are those of the string behind a first separator. -/
theorem splitPieces_eq {fuel : ℕ} (h : str.length < fuel) :
    splitPieces regex fuel str = (skipFirst regex str).splitOn regex := by
  induction fuel generalizing str with
  | zero => exact absurd h (Nat.not_lt_zero _)
  | succ fuel ih =>
    have hfirst : splitPieces regex (fuel + 1) str = (skipFirst regex str).takeWhile (· ≠ regex) ::
        if (skipFirst regex str).dropWhile (· ≠ regex) = [] then []
        else splitPieces regex fuel ((skipFirst regex str).dropWhile (· ≠ regex)) := rfl
    rw [hfirst]
    by_cases hmem : regex ∈ skipFirst regex str
    · obtain ⟨xs, as, hsplit, hxs⟩ := List.eq_append_cons_of_mem hmem
      obtain ⟨htake, hdrop⟩ := takeWhile_append_regex hxs as
      -- the rest begins with a separator, which the next round skips
      have hlt := length_lt_of_skipFirst hsplit
      have hskip : skipFirst regex (regex :: as) = as := if_pos rfl
      rw [hsplit, htake, hdrop, if_neg (List.cons_ne_nil _ _), ih (by rw [List.length_cons]; omega), hskip,
        List.splitOn_append_cons_self_of_not_mem hxs]
    · have hall : ∀ x ∈ skipFirst regex str, decide (x ≠ regex) = true := by
        intro x hx
        apply decide_eq_true
        exact fun heq => hmem (heq ▸ hx)
      rw [if_pos (List.dropWhile_eq_nil_iff.mpr hall), List.takeWhile_eq_self_iff.mpr hall,
        List.splitOn_eq_singleton hmem]

/-- What `strsplit` is to return: every separator counts and cuts, and the pieces are there. -/
structure Splits (str : List UInt8) (regex : UInt8) (r : List (List UInt8) × ℕ) : Prop where
  size : r.2 = str.count regex + 1
  initialised : r.1.length = r.2
  pieces : ∀ p ∈ r.1, regex ∉ p
  whole : [regex].intercalate r.1 = str

/-- `strsplit` cuts at every separator unless the first one starts the string, which is counted but
skipped. -/
theorem strsplit_splits_iff (str : List UInt8) (regex : UInt8) :
    Splits str regex (strsplit str regex) ↔ str.head? ≠ some regex := by
  have hpieces : (strsplit str regex).1 = (skipFirst regex str).splitOn regex :=
    splitPieces_eq (Nat.lt_succ_self _)
  constructor
  · intro h hhead
    -- one piece is missing
    have hlength := h.initialised.trans h.size
    rw [hpieces, length_splitOn] at hlength
    cases str with
    | nil => cases hhead
    | cons x str =>
      have hx : x = regex := Option.some.inj hhead
      unfold skipFirst at hlength
      rw [if_pos hhead, List.tail_cons, hx, List.count_cons_self] at hlength
      omega
  · intro hhead
    have hskip : skipFirst regex str = str := if_neg hhead
    rw [hskip] at hpieces
    refine ⟨rfl, ?_, ?_, ?_⟩
    · rw [hpieces, length_splitOn]
      rfl
    · rw [hpieces]
      exact fun p hp => notMem_of_mem_splitOn hp
    · rw [hpieces]
      exact List.intercalate_splitOn regex

/-- The string `/a`: two pieces are counted, and one is cut. -/
theorem not_strsplit_splits_slash : strsplit [47, 97] 47 = ([[97]], 2) ∧
    ¬Splits [47, 97] 47 (strsplit [47, 97] 47) := by
  have hsplit : strsplit [47, 97] 47 = ([[97]], 2) := by decide
  refine ⟨hsplit, fun h => ?_⟩
  have hlength := h.initialised
  rw [hsplit] at hlength
  exact absurd hlength (by decide)

end Split

end VkKernel.Vfs
