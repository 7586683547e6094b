import VkKernel.Lib.StoreLog
import VkKernel.State
import VkKernel.Strings

/-!
# Arguments and environment

`load_executable` pushes the strings of a list onto the stack of the new program, then the array of
their addresses, for the arguments and then for the environment. Everything is pushed downwards, so
no store reaches what has been pushed before.
-/

namespace VkKernel
open ByteMemory StoreLog

/-- `strcpy` of a string, given by the bytes before its zero byte. -/
def strcpy : ℕ → List UInt8 → Logged → Logged
  | dest, [], s => s.put dest 0
  | dest, c :: src, s => strcpy (dest + 1) src (s.put dest c)

/-- `stack_offset` and the memory that it points into. -/
abbrev StackState := ℕ × Logged

/-- `stack_offset -= sizeof(char*)`, and a store there. -/
def pushWord (v : ℕ) (st : StackState) : StackState :=
  (sub32 st.1 4, st.2.puts (sub32 st.1 4) ((List.range 4).map fun i => UInt8.ofNat (v / 256 ^ i)))

/-- The loop that copies the strings. It fills `uparam`. -/
def copyStrings : List (List UInt8) → StackState → List ℕ × StackState
  | [], st => ([], st)
  | str :: strs, st =>
    let offset := sub32 st.1 (str.length + 1)
    let (uparam, st) := copyStrings strs (offset, strcpy offset str st.2)
    (offset :: uparam, st)

/-- The loop that copies the addresses, from `i - 1` down. -/
def copyAddresses (argc : ℕ) (uparam : List ℕ) (n : ℕ) (st : StackState) : StackState :=
  n.foldRev (fun i _ st => pushWord (if i ≠ argc then uparam.getD i 0 else 0) st) st

/-- Both loops for one list. -/
def pushList (strs : List (List UInt8)) (st : StackState) : StackState :=
  copyAddresses strs.length (copyStrings strs st).1 (strs.length + 1) (copyStrings strs st).2

/-- The argument passing of `load_executable`, with the final `stack_offset`. -/
def passArguments (argv env : List (List UInt8)) (m : Mem) : StackState :=
  let st₁ := pushList argv (0xC0000000, Logged.start m)
  let st₂ := pushList env st₁
  let st₃ := pushWord st₁.1 st₂
  let st₄ := pushWord argv.length st₃
  let st₅ := pushWord st₂.1 st₄
  let st₆ := pushWord env.length st₅
  (sub32 st₆.1 4, st₆.2)

/-! ## What the program reads -/

/-- An array of pointers to strings, with a null pointer at its end. -/
def HasStrings (m : Mem) (a : ℕ) (strs : List (List UInt8)) : Prop :=
  (∀ i < strs.length, HasString m (loadLE m (a + 4 * i) 4) (strs.getD i [])) ∧
    loadLE m (a + 4 * strs.length) 4 = 0

/-- The arguments and the environment, read from `esp`. -/
structure HasArguments (m : Mem) (esp : ℕ) (argv env : List (List UInt8)) : Prop where
  envc : loadLE m (esp + 4) 4 = env.length
  env : HasStrings m (loadLE m (esp + 8) 4) env
  argc : loadLE m (esp + 12) 4 = argv.length
  argv : HasStrings m (loadLE m (esp + 16) 4) argv

/-- The bytes that a list takes: the strings and the array. -/
def listSize (strs : List (List UInt8)) : ℕ :=
  (strs.map fun str => str.length + 1).sum + 4 * (strs.length + 1)

/-- The bytes down to the final `esp`. -/
def layoutSize (argv env : List (List UInt8)) : ℕ := listSize argv + listSize env + 20

/-! ## Pushing -/

/-- Nothing has been stored below the offset, and nothing twice. -/
def Clean (st : StackState) : Prop := st.2.log.Nodup ∧ ∀ y ∈ st.2.log, st.1 ≤ y

/-- The second state comes from the first one by pushes. -/
structure Pushes (st st' : StackState) : Prop where
  le : st'.1 ≤ st.1
  kept : ∀ x, st.1 ≤ x → st'.2.mem x = st.2.mem x
  clean : Clean st → Clean st'

section Pushes
variable {st st' : StackState} {m m' : Mem} {a : ℕ} {str : List UInt8}

theorem Pushes.refl (st : StackState) : Pushes st st := ⟨le_rfl, fun _ _ => rfl, id⟩

theorem Pushes.trans {st'' : StackState} (h : Pushes st st') (h' : Pushes st' st'') :
    Pushes st st'' :=
  ⟨h'.le.trans h.le, fun x hx => (h'.kept x (h.le.trans hx)).trans (h.kept x hx),
    fun hc => h'.clean (h.clean hc)⟩

/-- The bytes right below the offset. -/
theorem pushes_puts {n : ℕ} {bs : List UInt8} (h : n ≤ st.1) (hn : bs.length = n) :
    Pushes st (st.1 - n, st.2.puts (st.1 - n) bs) := by
  refine ⟨Nat.sub_le _ _, fun x hx => Logged.puts_mem_of_out (by omega),
    fun hc => ⟨?_, fun y hy => ?_⟩⟩
  · apply Logged.nodup_log_puts hc.1
    intro y hy
    have := hc.2 y hy
    omega
  · rw [Logged.mem_log_puts] at hy
    rcases hy with hy | hy
    · exact hy.1
    · have := hc.2 y hy
      dsimp only
      omega

theorem HasString.congr (h : HasString m a str) (heq : ∀ x, a ≤ x → m' x = m x) :
    HasString m' a str := by
  intro i hi
  rw [heq _ (Nat.le_add_right a i)]
  exact h i hi

theorem Pushes.loadLE_eq (h : Pushes st st') {n : ℕ} (ha : st.1 ≤ a) :
    loadLE st'.2.mem a n = loadLE st.2.mem a n := by
  apply loadLE_congr
  exact fun x hx _ => h.kept x (ha.trans hx)

theorem strcpy_eq (dest : ℕ) (src : List UInt8) (s : Logged) :
    strcpy dest src s = s.puts dest (src ++ [0]) := by
  induction src generalizing dest s with
  | nil => rfl
  | cons c src ih =>
    rw [strcpy, ih]
    rfl

theorem strcpy_hasString (dest : ℕ) (src : List UInt8) (s : Logged) :
    HasString (strcpy dest src s).mem dest src := by
  intro i hi
  rw [strcpy_eq, Logged.puts_mem_of_in (by rw [List.length_append, List.length_singleton]; omega)]
  by_cases hlt : i < src.length
  · exact List.getD_append _ _ _ _ hlt
  · rw [List.getD_append_right _ _ _ _ (not_lt.mp hlt), List.getD_eq_default _ _ (not_lt.mp hlt),
      show i - src.length = 0 by omega]
    rfl

/-- A word that has been pushed. -/
theorem pushWord_spec {v : ℕ} (h : 4 ≤ st.1) (h32 : st.1 < 2 ^ 32) (hv : v < 2 ^ 32) :
    (pushWord v st).1 = st.1 - 4 ∧ Pushes st (pushWord v st) ∧
      loadLE (pushWord v st).2.mem (st.1 - 4) 4 = v := by
  unfold pushWord
  rw [sub32_of_le h32 h]
  refine ⟨rfl, pushes_puts h (by simp), ?_⟩
  rw [loadLE_of_bytes (v := v), Nat.mod_eq_of_lt (by simpa using hv)]
  intro i hi
  dsimp only
  rw [Logged.puts_mem_of_in (by simpa using hi), List.getD_eq_getElem _ _ (by simpa using hi)]
  simp

/-- The strings of a list, and what `uparam` gets. -/
theorem copyStrings_spec {strs : List (List UInt8)}
    (h : (strs.map fun str => str.length + 1).sum ≤ st.1) (h32 : st.1 < 2 ^ 32) :
    (copyStrings strs st).2.1 = st.1 - (strs.map fun str => str.length + 1).sum ∧
      Pushes st (copyStrings strs st).2 ∧ ∀ i < strs.length,
        (copyStrings strs st).2.1 ≤ (copyStrings strs st).1.getD i 0 ∧
        (copyStrings strs st).1.getD i 0 ≤ st.1 ∧
        HasString (copyStrings strs st).2.2.mem ((copyStrings strs st).1.getD i 0) (strs.getD i []) := by
  induction strs generalizing st with
  | nil => exact ⟨rfl, .refl st, fun i hi => absurd hi (Nat.not_lt_zero i)⟩
  | cons str strs ih =>
    rw [List.map_cons, List.sum_cons] at h ⊢
    have hoffset : sub32 st.1 (str.length + 1) = st.1 - (str.length + 1) := sub32_of_le h32 (by omega)
    have hpush : Pushes st (st.1 - (str.length + 1), strcpy (st.1 - (str.length + 1)) str st.2) := by
      rw [strcpy_eq]
      exact pushes_puts (by omega) (by simp)
    obtain ⟨hfst, hrest, hall⟩ :=
      @ih (st.1 - (str.length + 1), strcpy (st.1 - (str.length + 1)) str st.2)
        (by dsimp only; omega) (by dsimp only; omega)
    rw [copyStrings, hoffset]
    dsimp only at hfst hall ⊢
    refine ⟨by omega, hpush.trans hrest, fun i hi => ?_⟩
    cases i with
    | zero =>
      refine ⟨by rw [List.getD_cons_zero]; omega, by rw [List.getD_cons_zero]; omega, ?_⟩
      exact (strcpy_hasString _ str st.2).congr fun x hx => hrest.kept x hx
    | succ i =>
      rw [List.length_cons] at hi
      obtain ⟨hlow, hhigh, hstring⟩ := hall i (by omega)
      rw [List.getD_cons_succ, List.getD_cons_succ]
      exact ⟨hlow, by omega, hstring⟩

theorem copyAddresses_succ (argc i : ℕ) (uparam : List ℕ) (st : StackState) :
    copyAddresses argc uparam (i + 1) st =
      copyAddresses argc uparam i (pushWord (if i ≠ argc then uparam.getD i 0 else 0) st) := by
  unfold copyAddresses
  rw [Nat.foldRev_succ]

/-- The array of addresses, from the last entry down. -/
theorem copyAddresses_spec {argc n : ℕ} {uparam : List ℕ} (h : 4 * n ≤ st.1) (h32 : st.1 < 2 ^ 32)
    (hu : ∀ i < argc, uparam.getD i 0 < 2 ^ 32) (hn : n ≤ argc + 1) :
    (copyAddresses argc uparam n st).1 = st.1 - 4 * n ∧ Pushes st (copyAddresses argc uparam n st) ∧
      ∀ i < n, loadLE (copyAddresses argc uparam n st).2.mem (st.1 - 4 * n + 4 * i) 4 =
        if i ≠ argc then uparam.getD i 0 else 0 := by
  induction n generalizing st with
  | zero => exact ⟨rfl, .refl st, fun i hi => absurd hi (Nat.not_lt_zero i)⟩
  | succ n ih =>
    have hv : (if n ≠ argc then uparam.getD n 0 else 0) < 2 ^ 32 := by
      by_cases hend : n = argc
      · rw [if_neg (not_not_intro hend)]
        norm_num
      · rw [if_pos hend]
        exact hu n (by omega)
    have hfirst := @pushWord_spec st _ (by omega) h32 hv
    rw [copyAddresses_succ]
    generalize pushWord (if n ≠ argc then uparam.getD n 0 else 0) st = st₁ at hfirst ⊢
    obtain ⟨hfst, hpush, hword⟩ := hfirst
    obtain ⟨hfst', hpush', hwords⟩ := @ih st₁ (by omega) (by omega) (by omega)
    refine ⟨by omega, hpush.trans hpush', fun i hi => ?_⟩
    rw [hfst] at hwords
    by_cases hin : i = n
    · have hplace : st.1 - 4 * (n + 1) + 4 * i = st.1 - 4 := by omega
      rw [hplace, hpush'.loadLE_eq (by omega), hword, hin]
    · have hplace : st.1 - 4 * (n + 1) + 4 * i = st.1 - 4 - 4 * n + 4 * i := by omega
      rw [hplace, hwords i (by omega)]

/-- One list: the strings, and the array that leads to them. -/
theorem pushList_spec {strs : List (List UInt8)} (h : listSize strs ≤ st.1) (h32 : st.1 < 2 ^ 32) :
    (pushList strs st).1 = st.1 - listSize strs ∧ Pushes st (pushList strs st) ∧
      HasStrings (pushList strs st).2.mem (pushList strs st).1 strs ∧
      ∀ i < strs.length, (pushList strs st).1 ≤
        loadLE (pushList strs st).2.mem ((pushList strs st).1 + 4 * i) 4 := by
  unfold pushList
  unfold listSize at h ⊢
  obtain ⟨hfst, hpush, hall⟩ := @copyStrings_spec st strs (by omega) h32
  have hu : ∀ i < strs.length, (copyStrings strs st).1.getD i 0 < 2 ^ 32 := by
    intro i hi
    have := (hall i hi).2.1
    omega
  obtain ⟨hfst', hpush', hwords⟩ := @copyAddresses_spec (copyStrings strs st).2 strs.length
    (strs.length + 1) (copyStrings strs st).1 (by omega) (by omega) hu le_rfl
  rw [← hfst'] at hwords
  have hentry : ∀ i < strs.length, loadLE (copyAddresses strs.length (copyStrings strs st).1
      (strs.length + 1) (copyStrings strs st).2).2.mem ((copyAddresses strs.length
        (copyStrings strs st).1 (strs.length + 1) (copyStrings strs st).2).1 + 4 * i) 4 =
      (copyStrings strs st).1.getD i 0 := by
    intro i hi
    rw [hwords i (by omega), if_pos (by omega)]
  refine ⟨by omega, hpush.trans hpush', ⟨fun i hi => ?_, ?_⟩, fun i hi => ?_⟩
  · rw [hentry i hi]
    obtain ⟨hlow, -, hstring⟩ := hall i hi
    exact hstring.congr fun x hx => hpush'.kept x (hlow.trans hx)
  · rw [hwords _ (Nat.lt_succ_self _), if_neg (not_not_intro rfl)]
  · rw [hentry i hi]
    have := (hall i hi).1
    omega

theorem length_lt_listSize (strs : List (List UInt8)) : 4 * strs.length < listSize strs := by
  unfold listSize
  omega

/-- Later pushes leave a list alone. -/
theorem Pushes.hasStrings (h : Pushes st st') {strs : List (List UInt8)}
    (hs : HasStrings st.2.mem a strs) (ha : st.1 ≤ a)
    (hp : ∀ i < strs.length, st.1 ≤ loadLE st.2.mem (a + 4 * i) 4) :
    HasStrings st'.2.mem a strs := by
  refine ⟨fun i hi => ?_, ?_⟩
  · rw [h.loadLE_eq (by omega)]
    exact (hs.1 i hi).congr fun x hx => h.kept x ((hp i hi).trans hx)
  · rw [h.loadLE_eq (by omega)]
    exact hs.2

end Pushes

end VkKernel
