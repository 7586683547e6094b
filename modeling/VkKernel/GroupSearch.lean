import VkKernel.ProcessGroups

/-!
# The search for a group

`get_group` looks for a number between both ends of the table. The upper end of its
search is the place behind the table, and the lower end can step below zero, so the
search leaves the table exactly when the number is not between the first and the last
one of the table.
-/

namespace VkKernel
namespace GroupState

/-- The places of `groups` that the binary search reads. -/
def probes (s : GroupState) (gid : ℤ) : ℕ → ℕ → ℕ → List ℕ
  | 0, _, _ => []
  | fuel + 1, start, stop =>
    if start ≤ stop then
      let off := u32 (start + stop) / 2
      off ::
        if (s.entry off).gid = gid then []
        else if (s.entry off).gid < gid then s.probes gid fuel (off + 1) stop
        else s.probes gid fuel start (sub32 off 1)
    else []

/-- `get_group`: the place of the group, or no group. -/
def getGroup (s : GroupState) (gid : ℤ) (fuel : ℕ) : Option (Option ℕ) :=
  (s.search gid fuel 0 s.groupsNumber 0).map fun r => if r.1 then some r.2 else none

/-- A sorted table that fits into the memory, of which an entry takes 12 bytes. -/
structure SortedTable (s : GroupState) : Prop where
  sorted : ∀ i j, i < j → j < s.groupsNumber → (s.entry i).gid < (s.entry j).gid
  memory : 12 * s.groupsNumber ≤ 2 ^ 32

/-- The search ends, reads entries of the table only, and returns the one with the number,
or nothing if there is none. -/
def FindsGroup (s : GroupState) (gid : ℤ) : Prop :=
  ∃ fuel r, s.getGroup gid fuel = some r ∧
    (∀ i ∈ s.probes gid fuel 0 s.groupsNumber, i < s.groupsNumber) ∧
    (∀ i, r = some i → i < s.groupsNumber ∧ (s.entry i).gid = gid) ∧
    (r = none ↔ ∀ i < s.groupsNumber, (s.entry i).gid ≠ gid)

/-- The number is between the first and the last one of the table. -/
def Between (s : GroupState) (gid : ℤ) : Prop :=
  0 < s.groupsNumber ∧ (s.entry 0).gid ≤ gid ∧ gid ≤ (s.entry (s.groupsNumber - 1)).gid

variable {s : GroupState} {gid : ℤ} {start stop : ℕ}

/-- The entries in front of `start` are too small, and those behind `stop` too large. -/
structure Bounds (s : GroupState) (gid : ℤ) (start stop : ℕ) : Prop where
  start_lt : start < s.groupsNumber
  stop_le : stop ≤ s.groupsNumber
  below : ∀ i < start, (s.entry i).gid < gid
  above : ∀ i, stop < i → i < s.groupsNumber → gid < (s.entry i).gid

theorem SortedTable.le (h : s.SortedTable) {i j : ℕ} (hij : i ≤ j) (hj : j < s.groupsNumber) :
    (s.entry i).gid ≤ (s.entry j).gid := by
  by_cases heq : i = j
  · rw [heq]
  · exact le_of_lt (h.sorted i j (by omega) hj)

theorem SortedTable.middle (h : s.SortedTable) (hb : s.Bounds gid start stop) :
    u32 (start + stop) / 2 = (start + stop) / 2 ∧ (start + stop) / 2 < s.groupsNumber := by
  have := h.memory
  have := hb.start_lt
  have := hb.stop_le
  rw [u32_of_lt (by omega)]
  omega

/-- What lies behind the place that was read. -/
theorem SortedTable.upper (h : s.SortedTable) (hin : s.Between gid) (hb : s.Bounds gid start stop)
    {off : ℕ} (hoff : off < s.groupsNumber) (hlt : (s.entry off).gid < gid) :
    s.Bounds gid (off + 1) stop where
  start_lt := by
    -- the last entry is not too small
    by_contra hge
    have hlast : off = s.groupsNumber - 1 := by omega
    rw [hlast] at hlt
    exact absurd hin.2.2 (not_le.mpr hlt)
  stop_le := hb.stop_le
  below i hi := lt_of_le_of_lt (h.le (by omega) hoff) hlt
  above := hb.above

/-- What lies in front of the place that was read, which is not the first one. -/
theorem SortedTable.lower (h : s.SortedTable) (hin : s.Between gid) (hb : s.Bounds gid start stop)
    {off : ℕ} (hoff : off < s.groupsNumber) (hlt : gid < (s.entry off).gid) :
    sub32 off 1 + 1 = off ∧ s.Bounds gid start (sub32 off 1) := by
  have hpos : off ≠ 0 := by
    intro hzero
    rw [hzero] at hlt
    exact absurd hin.2.1 (not_le.mpr hlt)
  have hmem := h.memory
  have hsub : sub32 off 1 = off - 1 := by
    unfold sub32 u32
    omega
  rw [hsub]
  refine ⟨by omega, hb.start_lt, by omega, hb.below, ?_⟩
  intro i hi hin
  exact lt_of_lt_of_le hlt (h.le (by omega) hin)

/-- Between the ends of the table the loop keeps its bounds inside of it. -/
theorem SortedTable.search (h : s.SortedTable) (hin : s.Between gid) {fuel : ℕ} (off : ℕ)
    (hb : s.Bounds gid start stop) (hfuel : stop + 1 - start < fuel) :
    (∃ i, s.search gid fuel start stop off = some (true, i) ∧ i < s.groupsNumber ∧
        (s.entry i).gid = gid ∨
      s.search gid fuel start stop off = some (false, i) ∧
        ∀ j < s.groupsNumber, (s.entry j).gid ≠ gid) ∧
      ∀ i ∈ s.probes gid fuel start stop, i < s.groupsNumber := by
  induction fuel generalizing start stop off with
  | zero => omega
  | succ fuel ih =>
    rw [GroupState.search, probes]
    by_cases hle : start ≤ stop
    · obtain ⟨hmid, hlt⟩ := h.middle hb
      rw [if_pos hle, if_pos hle, hmid]
      generalize hoff : (start + stop) / 2 = mid at hlt
      dsimp only
      by_cases heq : (s.entry mid).gid = gid
      · rw [if_pos heq, if_pos heq]
        refine ⟨⟨mid, Or.inl ⟨rfl, hlt, heq⟩⟩, ?_⟩
        intro i hi
        rwa [List.mem_singleton.mp hi]
      rw [if_neg heq, if_neg heq]
      by_cases hless : (s.entry mid).gid < gid
      · rw [if_pos hless, if_pos hless]
        obtain ⟨hfound, hread⟩ := ih mid (h.upper hin hb hlt hless) (by omega)
        refine ⟨hfound, ?_⟩
        intro i hi
        cases hi with
        | head => exact hlt
        | tail _ hi => exact hread i hi
      · rw [if_neg hless, if_neg hless]
        obtain ⟨hsub, hb'⟩ := h.lower hin hb hlt (by omega)
        obtain ⟨hfound, hread⟩ := ih mid hb' (by omega)
        refine ⟨hfound, ?_⟩
        intro i hi
        cases hi with
        | head => exact hlt
        | tail _ hi => exact hread i hi
    · rw [if_neg hle, if_neg hle]
      refine ⟨⟨off, Or.inr ⟨rfl, ?_⟩⟩, ?_⟩
      · -- every entry is in front of `start` or behind `stop`
        intro j hj
        by_cases hj' : j < start
        · exact ne_of_lt (hb.below j hj')
        · exact ne_of_gt (hb.above j (by omega) hj)
      · intro i hi
        cases hi

/-- Above the last number the search reads the place behind the table. -/
theorem SortedTable.probes_above (h : s.SortedTable) {fuel off : ℕ} {r : Bool × ℕ}
    (hgt : ∀ i < s.groupsNumber, (s.entry i).gid < gid) (hstart : start ≤ s.groupsNumber)
    (hend : s.search gid fuel start s.groupsNumber off = some r) :
    ∃ i ∈ s.probes gid fuel start s.groupsNumber, s.groupsNumber ≤ i := by
  have hmem := h.memory
  induction fuel generalizing start off with
  | zero => cases hend
  | succ fuel ih =>
    rw [GroupState.search, if_pos hstart, u32_of_lt (by omega)] at hend
    rw [probes, if_pos hstart, u32_of_lt (by omega)]
    generalize hoff : (start + s.groupsNumber) / 2 = mid at hend
    dsimp only at hend ⊢
    by_cases hmid : mid < s.groupsNumber
    · have hless := hgt mid hmid
      rw [if_neg (ne_of_lt hless), if_pos hless] at hend ⊢
      obtain ⟨i, hi, hle⟩ := ih (by omega) hend
      exact ⟨i, List.mem_cons_of_mem _ hi, hle⟩
    · exact ⟨mid, List.mem_cons_self, by omega⟩

/-- Below the first number the upper end steps below zero, and the search goes on in the
middle of the memory. -/
theorem SortedTable.probes_below (h : s.SortedTable) {fuel off : ℕ} {r : Bool × ℕ}
    (hlt : ∀ i < s.groupsNumber, gid < (s.entry i).gid)
    (hstop : stop ≤ s.groupsNumber ∨ stop = 2 ^ 32 - 1)
    (hend : s.search gid fuel 0 stop off = some r) :
    ∃ i ∈ s.probes gid fuel 0 stop, s.groupsNumber ≤ i := by
  have hmem := h.memory
  induction fuel generalizing stop off with
  | zero => cases hend
  | succ fuel ih =>
    rw [GroupState.search, if_pos (Nat.zero_le stop), u32_of_lt (by omega)] at hend
    rw [probes, if_pos (Nat.zero_le stop), u32_of_lt (by omega)]
    generalize hoff : (0 + stop) / 2 = mid at hend
    dsimp only at hend ⊢
    by_cases hmid : mid < s.groupsNumber
    · have hless := hlt mid hmid
      rw [if_neg (ne_of_gt hless), if_neg (not_lt.mpr (le_of_lt hless))] at hend ⊢
      have hsub : sub32 mid 1 ≤ s.groupsNumber ∨ sub32 mid 1 = 2 ^ 32 - 1 := by
        unfold sub32 u32
        omega
      obtain ⟨i, hi, hle⟩ := ih hsub hend
      exact ⟨i, List.mem_cons_of_mem _ hi, hle⟩
    · exact ⟨mid, List.mem_cons_self, by omega⟩

/-- A search that ends inside the table was for a number between its ends. -/
theorem FindsGroup.between (h : s.SortedTable) (hfind : s.FindsGroup gid) : s.Between gid := by
  obtain ⟨fuel, r, hget, hread, -⟩ := hfind
  unfold getGroup at hget
  rw [Option.map_eq_some_iff] at hget
  obtain ⟨found, hsearch, -⟩ := hget
  have hinside : ¬∃ i ∈ s.probes gid fuel 0 s.groupsNumber, s.groupsNumber ≤ i := by
    intro ⟨i, hi, hle⟩
    have := hread i hi
    omega
  have hpos : 0 < s.groupsNumber := by
    by_contra hzero
    apply hinside
    apply h.probes_above (by omega) (Nat.zero_le _) hsearch
  refine ⟨hpos, ?_, ?_⟩
  · by_contra hlt
    apply hinside
    apply h.probes_below (fun i hi => ?_) (Or.inl le_rfl) hsearch
    exact lt_of_lt_of_le (not_le.mp hlt) (h.le (Nat.zero_le i) hi)
  · by_contra hgt
    apply hinside
    apply h.probes_above (fun i hi => ?_) (Nat.zero_le _) hsearch
    exact lt_of_le_of_lt (h.le (by omega) (by omega)) (not_le.mp hgt)

end GroupState

/-- `get_group` ends inside a sorted table, with the entry of the number or without one if
there is none, exactly if the number is between the first and the last one of the
table. -/
theorem getGroup_finds_iff {s : GroupState} (h : s.SortedTable) (gid : ℤ) :
    s.FindsGroup gid ↔ s.Between gid := by
  refine ⟨GroupState.FindsGroup.between h, ?_⟩
  intro hin
  have hb : s.Bounds gid 0 s.groupsNumber :=
    ⟨hin.1, le_rfl, fun i hi => absurd hi (Nat.not_lt_zero i), fun i h1 h2 => by omega⟩
  obtain ⟨hfound, hread⟩ := @GroupState.SortedTable.search s gid 0 s.groupsNumber h hin (s.groupsNumber + 2) 0 hb (by omega)
  obtain ⟨i, hfound⟩ := hfound
  cases hfound with
  | inl hfound =>
    obtain ⟨hsearch, hi, hgid⟩ := hfound
    refine ⟨s.groupsNumber + 2, some i, ?_, hread, ?_, ?_⟩
    · rw [GroupState.getGroup, hsearch]
      rfl
    · intro j hj
      rw [← Option.some.inj hj]
      exact ⟨hi, hgid⟩
    · refine ⟨fun hnone => ?_, fun hnone => absurd hgid (hnone i hi)⟩
      cases hnone
  | inr hnone =>
    obtain ⟨hsearch, hnone⟩ := hnone
    refine ⟨s.groupsNumber + 2, none, ?_, hread, ?_, fun _ => hnone, fun _ => rfl⟩
    · rw [GroupState.getGroup, hsearch]
      rfl
    · intro j hj
      cases hj

/-- A table with the numbers 2, 4 and 6. -/
def evenGroups : GroupState :=
  { threeProcesses with
    groupsNumber := 3
    arrays := fun _ i => ⟨2 * (i : ℤ) + 2, 16, 7⟩ }

theorem evenGroups_sortedTable : evenGroups.SortedTable where
  sorted i j hij _ := by
    change 2 * (i : ℤ) + 2 < 2 * (j : ℤ) + 2
    omega
  memory := by decide

/-- The number 5 is looked for inside the table. -/
theorem getGroup_finds_between : evenGroups.FindsGroup 5 :=
  (getGroup_finds_iff evenGroups_sortedTable 5).mpr ⟨by decide, by decide, by decide⟩

/-- The number 1 is found in no place of the table; the third place that is read is 0, and
the next one is `0x7FFFFFFF`. -/
theorem getGroup_not_finds_below :
    evenGroups.SortedTable ∧ evenGroups.probes 1 3 0 3 = [1, 0, 0x7FFFFFFF] ∧
      ¬evenGroups.FindsGroup 1 := by
  refine ⟨evenGroups_sortedTable, by decide, fun hfind => ?_⟩
  exact absurd (hfind.between evenGroups_sortedTable).2.1 (by decide)

end VkKernel
