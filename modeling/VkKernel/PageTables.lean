import VkKernel.Paging

/-!
# Page tables without aliasing

A directory entry is zero, a 4 MiB page, or a table in a slot of the page heap
together with flag bits. `Tables` says that the tables of a set of directory
entries are pairwise different slots, apart from the entries themselves and from
other words that are to be kept. Under it a change of one page-table entry is
seen through one directory entry only.
-/

namespace VkKernel
open Outcome

/-! ## Entries -/

/-- The physical address of slot `i` of the page heap. -/
def slotPhys (i : ℕ) : ℕ := 0x400000 + kpheapBlockSize * i

/-- A directory entry for the table in slot `i`. -/
def IsTable (entry i : ℕ) : Prop := ∃ f, (f = 7 ∨ f = 259) ∧ entry = slotPhys i + f

/-- Flag bits below an aligned address. -/
theorem or_flags {a f : ℕ} (ha : a % 4096 = 0) (hf : f < 4096) : a ||| f = a + f := by
  obtain ⟨q, rfl⟩ := Nat.dvd_of_mod_eq_zero ha
  exact (Nat.two_pow_add_eq_or_of_lt (i := 12) hf q).symm

theorem frameOf_add {a f : ℕ} (ha : a % 4096 = 0) (hf : f < 4096) : frameOf (a + f) = a := by
  unfold frameOf
  omega

theorem pageFlags_eq (g : Paging) (pd : ℕ) : g.pageFlags pd = 7 ∨ g.pageFlags pd = 259 := by
  unfold Paging.pageFlags Paging.kernelOr
  split_ifs
  · exact .inr rfl
  · exact .inl rfl

theorem pageFlags_lt (g : Paging) (pd : ℕ) : g.pageFlags pd < 4096 := by
  rcases pageFlags_eq g pd with h | h <;> omega

theorem pageFlags_pos (g : Paging) (pd : ℕ) : 0 < g.pageFlags pd := by
  rcases pageFlags_eq g pd with h | h <;> omega

theorem slotPhys_mod (i : ℕ) : slotPhys i % 4096 = 0 := by
  unfold slotPhys kpheapBlockSize
  omega

theorem slotAddr_eq (i : ℕ) : slotAddr i = slotPhys i + kernelVirtualBase := by
  unfold slotAddr slotPhys kpheapVirtBase kernelVirtualBase
  omega

theorem slotPhys_lt {i : ℕ} (hi : i < 1024) : slotPhys i + 4096 ≤ 0x800000 := by
  unfold slotPhys kpheapBlockSize
  omega

section IsTable

variable {e i : ℕ}

theorem IsTable.ne_zero (h : IsTable e i) : e ≠ 0 := by
  obtain ⟨f, hf, rfl⟩ := h
  omega

theorem IsTable.frameOf_eq (h : IsTable e i) : frameOf e = slotPhys i := by
  obtain ⟨f, hf, rfl⟩ := h
  exact frameOf_add (slotPhys_mod i) (by omega)

theorem IsTable.pageSizeBit_eq (h : IsTable e i) : pageSizeBit e = 0 := by
  obtain ⟨f, hf, rfl⟩ := h
  have := slotPhys_mod i
  unfold pageSizeBit
  omega

theorem IsTable.slot_unique {j : ℕ} (h : IsTable e i) (h' : IsTable e j) : i = j := by
  have := h.frameOf_eq.symm.trans h'.frameOf_eq
  unfold slotPhys kpheapBlockSize at this
  omega

theorem isTable_or (g : Paging) (pd : ℕ) : IsTable (slotPhys i ||| g.pageFlags pd) i :=
  ⟨g.pageFlags pd, pageFlags_eq g pd, or_flags (slotPhys_mod i) (pageFlags_lt g pd)⟩

end IsTable

/-- The address of entry `q` of the table in a slot, as `map_page` computes it. -/
theorem entryAddr_eq {i q : ℕ} (hi : i < 1024) (hq : q < 1024) :
    u32 (slotPhys i + q * 4 + kernelVirtualBase) = slotAddr i + 4 * q := by
  have := slotPhys_lt hi
  rw [slotAddr_eq, u32_of_lt (by unfold kernelVirtualBase; omega)]
  omega

/-- The page-table entry number `q` behind the directory entry at `a`; zero when
there is no table. -/
def Paging.leafAt (g : Paging) (a q : ℕ) : ℕ :=
  if g.word a = 0 ∨ pageSizeBit (g.word a) = 1 then 0
  else g.word (u32 (frameOf (g.word a) + q * 4 + kernelVirtualBase))

theorem leafAt_of_isTable {g : Paging} {a i q : ℕ} (h : IsTable (g.word a) i) (hi : i < 1024)
    (hq : q < 1024) : g.leafAt a q = g.word (slotAddr i + 4 * q) := by
  rw [Paging.leafAt, if_neg (by rw [h.pageSizeBit_eq]; simp [h.ne_zero]), h.frameOf_eq,
    entryAddr_eq hi hq]

/-! ## The invariant -/

/-- The word at `a` is not in slot `i`. -/
def OffSlot (i a : ℕ) : Prop := a < slotAddr i ∨ slotAddr i + 4096 ≤ a

theorem OffSlot.ne {i a q : ℕ} (h : OffSlot i a) (hq : q < 1024) : a ≠ slotAddr i + 4 * q := by
  unfold OffSlot at h
  omega

/-- The directory entries `own` have tables of their own, and the words `keep`
are in none of them. With `large`, an entry can also be a 4 MiB page, if the
processor has these. -/
structure Tables (large : Prop) (own keep : ℕ → Prop) (g : Paging) : Prop where
  apart : ∀ a, own a ∨ keep a → ∀ i < 1024, g.kpheapBlocks i = false → OffSlot i a
  table : ∀ a, own a → g.word a ≠ 0 →
    (large ∧ g.cpuPse = true ∧ pageSizeBit (g.word a) = 1) ∨
    ∃ i < 1024, g.kpheapBlocks i = true ∧ IsTable (g.word a) i ∧ ∀ b, own b ∨ keep b → OffSlot i b
  unshared : ∀ a b i, own a → own b → IsTable (g.word a) i → IsTable (g.word b) i → a = b
  disjoint : ∀ a, own a → ¬ keep a

/-- What every operation on tables leaves alone. -/
structure PagingFrame (keep : ℕ → Prop) (g g' : Paging) : Prop where
  words : ∀ b, keep b → g'.word b = g.word b
  kernel : g'.kernelPageDirectory = g.kernelPageDirectory
  current : g'.currentPageDirectory = g.currentPageDirectory
  pse : g'.cpuPse = g.cpuPse
  used : ∀ i < 1024, g.kpheapBlocks i = true → g'.kpheapBlocks i = true

theorem PagingFrame.refl (keep : ℕ → Prop) (g : Paging) : PagingFrame keep g g :=
  ⟨fun _ _ => rfl, rfl, rfl, rfl, fun _ _ h => h⟩

theorem PagingFrame.trans {keep : ℕ → Prop} {g1 g2 g3 : Paging} (h : PagingFrame keep g1 g2)
    (h' : PagingFrame keep g2 g3) : PagingFrame keep g1 g3 where
  words b hb := (h'.words b hb).trans (h.words b hb)
  kernel := h'.kernel.trans h.kernel
  current := h'.current.trans h.current
  pse := h'.pse.trans h.pse
  used i hi hu := h'.used i hi (h.used i hi hu)

theorem PagingFrame.pageFlags {keep : ℕ → Prop} {g g' : Paging} (h : PagingFrame keep g g')
    (pd : ℕ) : g'.pageFlags pd = g.pageFlags pd := by
  unfold Paging.pageFlags Paging.kernelOr
  rw [h.kernel]

/-- The page-table entries seen through the directory entries are the same. -/
def SameLeaves (own : ℕ → Prop) (g g' : Paging) : Prop :=
  ∀ b, own b → ∀ q < 1024, g'.leafAt b q = g.leafAt b q

/-- One page-table entry is changed. -/
def SetsLeaf (own : ℕ → Prop) (a q v : ℕ) (g g' : Paging) : Prop :=
  ∀ b, own b → ∀ q' < 1024, g'.leafAt b q' = if b = a ∧ q' = q then v else g.leafAt b q'

variable {large : Prop} {own keep : ℕ → Prop} {g g' : Paging}

/-! ## Allocating a slot -/

theorem ptAllocFrom_eq_ok {n a : ℕ} (hn : n ≤ 1024) (h : ptAllocFrom g n = .ok (a, g')) :
    ∃ i < 1024, g.kpheapBlocks i = false ∧ a = slotAddr i ∧
      g' = { g.clearPage (slotAddr i) with kpheapBlocks := Function.update g.kpheapBlocks i true } := by
  induction n with
  | zero => cases h
  | succ n ih =>
    rw [ptAllocFrom] at h
    dsimp only at h
    split_ifs at h with hfree
    · injection h with h
      rw [Prod.mk.injEq] at h
      exact ⟨_, by omega, hfree, h.1.symm, h.2.symm⟩
    · exact ih (by omega) h

theorem ptAlloc_eq_ok {a : ℕ} (h : ptAlloc g = .ok (a, g')) :
    ∃ i < 1024, g.kpheapBlocks i = false ∧ a = slotAddr i ∧
      g' = { g.clearPage (slotAddr i) with kpheapBlocks := Function.update g.kpheapBlocks i true } :=
  ptAllocFrom_eq_ok le_rfl h

theorem ptAllocFrom_ok {n i : ℕ} (hn : n ≤ 1024) (hi : 1024 - n ≤ i) (hi' : i < 1024)
    (hfree : g.kpheapBlocks i = false) : ∃ r, ptAllocFrom g n = .ok r := by
  induction n with
  | zero => omega
  | succ n ih =>
    rw [ptAllocFrom]
    dsimp only
    split_ifs with h
    · exact ⟨_, rfl⟩
    · have hne : 1024 - (n + 1) ≠ i := by
        rintro rfl
        exact h hfree
      exact ih (by omega) (by omega)

/-- `pt_alloc` returns while a slot is free. -/
theorem ptAlloc_ok {i : ℕ} (hi : i < 1024) (hfree : g.kpheapBlocks i = false) :
    ∃ r, ptAlloc g = .ok r := ptAllocFrom_ok le_rfl (by omega) hi hfree

theorem clearPage_of_offSlot {i b : ℕ} (h : OffSlot i b) :
    (g.clearPage (slotAddr i)).word b = g.word b := by
  unfold OffSlot at h
  exact if_neg (by omega)

theorem clearPage_entry {i q : ℕ} (hq : q < 1024) :
    (g.clearPage (slotAddr i)).word (slotAddr i + 4 * q) = 0 := if_pos (by omega)

/-- Changing slot `i`, which holds no table of an entry, keeps the invariant and
all page-table entries. -/
theorem Tables.change (h : Tables large own keep g) (g' : Paging) {i : ℕ}
    (hoff : ∀ b, own b ∨ keep b → OffSlot i b) (hno : ∀ a, own a → ¬ IsTable (g.word a) i)
    (hw : ∀ b, OffSlot i b → g'.word b = g.word b)
    (hused : ∀ j, g'.kpheapBlocks j = if j = i then true else g.kpheapBlocks j)
    (hpse : g'.cpuPse = g.cpuPse) :
    Tables large own keep g' ∧ SameLeaves own g g' := by
  have hown : ∀ a, own a → g'.word a = g.word a := fun a ha => hw a (hoff a (.inl ha))
  refine ⟨⟨?_, ?_, ?_, h.disjoint⟩, ?_⟩
  · intro a ha j hj hfree
    rw [hused] at hfree
    split_ifs at hfree
    exact h.apart a ha j hj hfree
  · intro a ha hne
    rw [hown a ha] at hne ⊢
    rw [hpse]
    refine (h.table a ha hne).imp_right fun ⟨j, hj, hu, ht, hb⟩ => ⟨j, hj, ?_, ht, hb⟩
    rw [hused, hu]
    exact ite_self _
  · intro a b j ha hb hta htb
    rw [hown a ha] at hta
    rw [hown b hb] at htb
    exact h.unshared a b j ha hb hta htb
  · intro b hb q hq
    rw [Paging.leafAt, Paging.leafAt, hown b hb]
    split_ifs with hz
    · rfl
    · rw [not_or] at hz
      obtain ⟨-, -, hsize⟩ | ⟨j, hj, -, ht, -⟩ := h.table b hb hz.1
      · exact absurd hsize hz.2
      · have hij : i ≠ j := by
          rintro rfl
          exact hno b hb ht
        rw [ht.frameOf_eq, entryAddr_eq hj hq]
        refine hw _ ?_
        unfold OffSlot slotAddr kpheapBlockSize
        omega

/-- A free slot holds no table of an entry. -/
theorem Tables.not_isTable_of_free (h : Tables large own keep g) {i : ℕ}
    (hfree : g.kpheapBlocks i = false) {a : ℕ} (ha : own a) : ¬ IsTable (g.word a) i := by
  intro ht
  obtain ⟨-, -, hsize⟩ | ⟨j, -, hu, htj, -⟩ := h.table a ha ht.ne_zero
  · rw [ht.pageSizeBit_eq] at hsize
    cases hsize
  · rw [ht.slot_unique htj, hu] at hfree
    cases hfree

/-- Slot `i` has just been allocated: it is zero, and no entry is in it or points
to it. -/
structure FreshSlot (own keep : ℕ → Prop) (g g' : Paging) (i : ℕ) : Prop where
  lt : i < 1024
  free : g.kpheapBlocks i = false
  used : g'.kpheapBlocks i = true
  zero : ∀ q < 1024, g'.word (slotAddr i + 4 * q) = 0
  off : ∀ b, own b ∨ keep b → OffSlot i b
  entries : ∀ b, own b → g'.word b = g.word b
  unreferenced : ∀ b, own b → ¬ IsTable (g'.word b) i
  clearPage_eq : g'.clearPage (slotAddr i) = g'

/-- What `pt_alloc` does to the tables. -/
theorem Tables.ptAlloc (h : Tables large own keep g) {a : ℕ} (hr : ptAlloc g = .ok (a, g')) :
    ∃ i, a = slotAddr i ∧ FreshSlot own keep g g' i ∧ Tables large own keep g' ∧
      SameLeaves own g g' ∧ PagingFrame keep g g' := by
  obtain ⟨i, hi, hfree, rfl, rfl⟩ := ptAlloc_eq_ok hr
  have hoff : ∀ b, own b ∨ keep b → OffSlot i b := fun b hb => h.apart b hb i hi hfree
  have hentries : ∀ b, own b → (g.clearPage (slotAddr i)).word b = g.word b :=
    fun b hb => clearPage_of_offSlot (hoff b (.inl hb))
  obtain ⟨ht, hl⟩ := h.change { g.clearPage (slotAddr i) with
      kpheapBlocks := Function.update g.kpheapBlocks i true } hoff
    (fun b hb => h.not_isTable_of_free hfree hb) (fun b hb => clearPage_of_offSlot hb)
    (fun j => Function.update_apply _ _ _ _) rfl
  refine ⟨i, rfl, ⟨hi, hfree, Function.update_self _ _ _, fun q hq => clearPage_entry hq, hoff,
    hentries, ?_, ?_⟩, ht, hl, ?_⟩
  · intro b hb
    dsimp only
    rw [hentries b hb]
    exact h.not_isTable_of_free hfree hb
  · simp only [Paging.clearPage, Paging.mk.injEq, and_self, and_true]
    funext x
    split_ifs <;> rfl
  · refine ⟨fun b hb => clearPage_of_offSlot (hoff b (.inr hb)), rfl, rfl, rfl, fun j _ hj => ?_⟩
    dsimp only
    rw [Function.update_apply, hj]
    exact ite_self _

theorem offSlot_of_inside {i j a : ℕ} (h : ¬ OffSlot i a) (hij : j ≠ i) : OffSlot j a := by
  unfold OffSlot slotAddr kpheapBlockSize at *
  omega

/-- More entries, in a slot that holds no table: the new directory entries are
empty. -/
theorem Tables.extend (h : Tables large own keep g) {i : ℕ} (hused : g.kpheapBlocks i = true)
    (hno : ∀ a, own a → ¬ IsTable (g.word a) i) {own' keep' : ℕ → Prop}
    (hown : ∀ a, own' a → own a ∨ (¬ OffSlot i a ∧ g.word a = 0))
    (hkeep : ∀ a, keep' a → keep a ∨ ¬ OffSlot i a) (hdis : ∀ a, own' a → ¬ keep' a) :
    Tables large own' keep' g := by
  have hall : ∀ a, own' a ∨ keep' a → (own a ∨ keep a) ∨ ¬ OffSlot i a := by
    rintro a (ha | ha)
    · exact (hown a ha).imp .inl And.left
    · exact (hkeep a ha).imp .inr id
  have hoff : ∀ j, j ≠ i → (∀ b, own b ∨ keep b → OffSlot j b) → ∀ b, own' b ∨ keep' b →
      OffSlot j b := by
    intro j hji hb b hb'
    rcases hall b hb' with hb' | hb'
    · exact hb b hb'
    · exact offSlot_of_inside hb' hji
  refine ⟨?_, ?_, ?_, hdis⟩
  · intro a ha j hj hfree
    have hji : j ≠ i := by
      rintro rfl
      rw [hused] at hfree
      cases hfree
    exact hoff j hji (fun b hb => h.apart b hb j hj hfree) a ha
  · intro a ha hne
    rcases hown a ha with ha | ha
    · refine (h.table a ha hne).imp_right fun ⟨j, hj, hu, ht, hb⟩ => ⟨j, hj, hu, ht, ?_⟩
      have hji : j ≠ i := by
        rintro rfl
        exact hno a ha ht
      exact hoff j hji hb
    · exact absurd ha.2 hne
  · intro a b j ha hb hta htb
    rcases hown a ha with ha | ha
    · rcases hown b hb with hb | hb
      · exact h.unshared a b j ha hb hta htb
      · exact absurd hb.2 htb.ne_zero
    · exact absurd ha.2 hta.ne_zero

/-! ## Writing entries -/

theorem setWord_apply (a v b : ℕ) : (g.setWord a v).word b = if b = a then v else g.word b :=
  Function.update_apply _ _ _ _

/-- Writing a directory entry that shares no table with another one. -/
theorem Tables.setOwn (h : Tables large own keep g) {a v : ℕ} (ha : own a)
    (hv : v ≠ 0 → (large ∧ g.cpuPse = true ∧ pageSizeBit v = 1) ∨
      ∃ i < 1024, g.kpheapBlocks i = true ∧ IsTable v i ∧ ∀ b, own b ∨ keep b → OffSlot i b)
    (hno : ∀ b i, own b → IsTable v i → ¬ IsTable (g.word b) i) :
    Tables large own keep (g.setWord a v) ∧ PagingFrame keep g (g.setWord a v) := by
  refine ⟨⟨h.apart, ?_, ?_, h.disjoint⟩, ?_, rfl, rfl, rfl, fun _ _ hj => hj⟩
  · intro b hb hne
    rw [setWord_apply] at hne ⊢
    split_ifs at hne ⊢ with hba
    · exact hv hne
    · exact h.table b hb hne
  · intro b c j hb hc htb htc
    rw [setWord_apply] at htb htc
    split_ifs at htb htc with hba hca hca
    · exact hba.trans hca.symm
    · exact absurd htc (hno c j hc htb)
    · exact absurd htb (hno b j hb htc)
    · exact h.unshared b c j hb hc htb htc
  · intro b hb
    rw [setWord_apply, if_neg]
    rintro rfl
    exact h.disjoint b ha hb

/-- Pointing an empty directory entry at a fresh table. -/
theorem Tables.setEntry {g0 : Paging} (h : Tables large own keep g) {a e i : ℕ} (ha : own a)
    (hz : g.word a = 0) (hs : FreshSlot own keep g0 g i) (he : IsTable e i) :
    Tables large own keep (g.setWord a e) ∧ SameLeaves own g (g.setWord a e) ∧
      PagingFrame keep g (g.setWord a e) := by
  have hoff := hs.off
  obtain ⟨ht', hf'⟩ := h.setOwn (v := e) ha (fun _ => .inr ⟨i, hs.lt, hs.used, he, hoff⟩)
    fun b j hb hj => he.slot_unique hj ▸ hs.unreferenced b hb
  refine ⟨ht', ?_, hf'⟩
  intro b hb q hq
  by_cases hba : b = a
  · -- the entry was empty, and its new table has no page
    subst hba
    have hself : IsTable ((g.setWord b e).word b) i := by rwa [setWord_apply, if_pos rfl]
    rw [leafAt_of_isTable hself hs.lt hq, setWord_apply,
      if_neg fun hc => (hoff b (.inl hb)).ne hq hc.symm, hs.zero q hq, Paging.leafAt,
      if_pos (.inl hz)]
  · have hself : (g.setWord a e).word b = g.word b := by rw [setWord_apply, if_neg hba]
    rw [Paging.leafAt, Paging.leafAt, hself]
    split_ifs with hc
    · rfl
    · rw [not_or] at hc
      obtain ⟨-, -, hsize⟩ | ⟨j, hj, -, ht, hb'⟩ := h.table b hb hc.1
      · exact absurd hsize hc.2
      · rw [ht.frameOf_eq, entryAddr_eq hj hq, setWord_apply,
          if_neg fun hc => (hb' a (.inl ha)).ne hq hc.symm]

/-- A change outside the directory entries and the words to keep. -/
theorem Tables.congr (h : Tables large own keep g) (g' : Paging)
    (hw : ∀ b, own b ∨ keep b → g'.word b = g.word b) (hk : g'.kpheapBlocks = g.kpheapBlocks)
    (hd : g'.kernelPageDirectory = g.kernelPageDirectory)
    (hc : g'.currentPageDirectory = g.currentPageDirectory) (hp : g'.cpuPse = g.cpuPse) :
    Tables large own keep g' ∧ PagingFrame keep g g' := by
  refine ⟨⟨hk ▸ h.apart, ?_, ?_, h.disjoint⟩, fun b hb => hw b (.inr hb), hd, hc, hp,
    fun _ _ hj => hk ▸ hj⟩
  · intro b hb hne
    rw [hw b (.inl hb)] at hne ⊢
    rw [hk, hp]
    exact h.table b hb hne
  · intro b c j hb hc htb htc
    rw [hw b (.inl hb)] at htb
    rw [hw c (.inl hc)] at htc
    exact h.unshared b c j hb hc htb htc

/-- Writing an entry of the table behind a directory entry. -/
theorem Tables.setLeaf (h : Tables large own keep g) {a i q : ℕ} (ha : own a)
    (ht : IsTable (g.word a) i) (hi : i < 1024) (hq : q < 1024) (v : ℕ) :
    Tables large own keep (g.setWord (slotAddr i + 4 * q) v) ∧
      SetsLeaf own a q v g (g.setWord (slotAddr i + 4 * q) v) ∧
      PagingFrame keep g (g.setWord (slotAddr i + 4 * q) v) := by
  have hoff : ∀ b, own b ∨ keep b → OffSlot i b := by
    obtain ⟨-, -, hsize⟩ | ⟨j, -, -, htj, hoff⟩ := h.table a ha ht.ne_zero
    · rw [ht.pageSizeBit_eq] at hsize
      cases hsize
    · rwa [ht.slot_unique htj]
  have hown : ∀ b, own b ∨ keep b → (g.setWord (slotAddr i + 4 * q) v).word b = g.word b := by
    intro b hb
    rw [setWord_apply, if_neg ((hoff b hb).ne hq)]
  obtain ⟨ht', hf'⟩ := h.congr (g.setWord (slotAddr i + 4 * q) v) hown rfl rfl rfl rfl
  refine ⟨ht', ?_, hf'⟩
  intro b hb q' hq'
  by_cases hba : b = a
  · subst hba
    have htb : IsTable ((g.setWord (slotAddr i + 4 * q) v).word b) i := by
      rwa [hown b (.inl hb)]
    rw [leafAt_of_isTable htb hi hq', leafAt_of_isTable ht hi hq', setWord_apply]
    refine if_congr ?_ rfl rfl
    omega
  · rw [if_neg fun hc => hba hc.1, Paging.leafAt, Paging.leafAt, hown b (.inl hb)]
    split_ifs with hz
    · rfl
    · rw [not_or] at hz
      obtain ⟨-, -, hsize⟩ | ⟨j, hj, -, htj, -⟩ := h.table b hb hz.1
      · exact absurd hsize hz.2
      · -- another directory entry has another table
        have hij : j ≠ i := by
          rintro rfl
          exact hba (h.unshared b a j hb ha htj ht)
        rw [htj.frameOf_eq, entryAddr_eq hj hq', setWord_apply, if_neg]
        unfold slotAddr kpheapBlockSize
        omega

theorem sub32_slotAddr {i : ℕ} (hi : i < 1024) : sub32 (slotAddr i) kernelVirtualBase = slotPhys i := by
  have := slotPhys_lt hi
  rw [slotAddr_eq, sub32_of_le (by unfold kernelVirtualBase; omega) (by omega)]
  omega

theorem u32_slotPhys {i : ℕ} (hi : i < 1024) : u32 (slotPhys i + kernelVirtualBase) = slotAddr i := by
  have := entryAddr_eq (q := 0) hi (by omega)
  simpa using this

/-- The table that `map_page` writes to. -/
theorem Tables.pageTableFor (h : Tables large own keep g) {virt pd t : ℕ}
    (ha : own (pd + 4 * pdIndex virt)) (hr : pageTableFor virt pd g = .ok (t, g')) :
    Tables large own keep g' ∧ SameLeaves own g g' ∧ PagingFrame keep g g' ∧
      ∃ i < 1024, t = slotPhys i ∧ IsTable (g'.word (pd + 4 * pdIndex virt)) i := by
  rw [VkKernel.pageTableFor] at hr
  dsimp only at hr
  split_ifs at hr with hz hsize
  · obtain ⟨⟨pt, g1⟩, hpt, hr⟩ := bind_eq_ok.mp hr
    obtain ⟨i, rfl, hs, h1, hl1, hf1⟩ := h.ptAlloc hpt
    injection hr with hr
    rw [Prod.mk.injEq] at hr
    obtain ⟨rfl, rfl⟩ := hr
    dsimp only
    -- the second `memset` clears the same page again
    rw [sub32_slotAddr hs.lt, u32_slotPhys hs.lt, hs.clearPage_eq]
    have he := isTable_or (i := i) g1 pd
    obtain ⟨h2, hl2, hf2⟩ := h1.setEntry ha ((hs.entries _ ha).trans hz) hs he
    refine ⟨h2, ?_, hf1.trans hf2, i, hs.lt, rfl, ?_⟩
    · exact fun b hb q hq => (hl2 b hb q hq).trans (hl1 b hb q hq)
    · rwa [setWord_apply, if_pos rfl]
  · cases hr
  · injection hr with hr
    rw [Prod.mk.injEq] at hr
    obtain ⟨rfl, rfl⟩ := hr
    obtain ⟨-, -, hbit⟩ | ⟨i, hi, -, ht, -⟩ := h.table _ ha hz
    · exact absurd hbit hsize
    · exact ⟨h, fun _ _ _ _ => rfl, .refl _ _, i, hi, ht.frameOf_eq, ht⟩

/-- `map_page` adds one page. -/
theorem Tables.mapPage (h : Tables large own keep g) {phys virt pd : ℕ}
    (ha : own (pd + 4 * pdIndex virt)) (hr : mapPage phys virt pd g = .ok g') :
    phys % 4096 = 0 ∧ Tables large own keep g' ∧ PagingFrame keep g g' ∧
      SetsLeaf own (pd + 4 * pdIndex virt) (ptIndex virt) (phys + g.pageFlags pd) g g' := by
  rw [VkKernel.mapPage] at hr
  split_ifs at hr with hphys hvirt
  · cases hr
  · cases hr
  · obtain ⟨⟨t, g1⟩, ht, hr⟩ := bind_eq_ok.mp hr
    obtain ⟨h1, hl1, hf1, i, hi, rfl, hti⟩ := h.pageTableFor ha ht
    have hq : ptIndex virt < 1024 := Nat.mod_lt _ (by norm_num)
    dsimp only at hr
    rw [pageAddr, entryAddr_eq hi hq] at hr
    split_ifs at hr
    · cases hr
    · injection hr with hr
      subst hr
      rw [not_ne_iff] at hphys
      rw [or_flags hphys (pageFlags_lt g1 pd), hf1.pageFlags]
      obtain ⟨h2, hl2, hf2⟩ := h1.setLeaf ha hti hi hq (phys + g.pageFlags pd)
      refine ⟨hphys, h2, hf1.trans hf2, fun b hb q hq => ?_⟩
      rw [hl2 b hb q hq, hl1 b hb q hq]

/-- `map_page` allocates at most one slot, and none when there is a table. -/
theorem mapPage_blocks {phys virt pd : ℕ} (hr : VkKernel.mapPage phys virt pd g = .ok g') :
    (g.word (pd + 4 * pdIndex virt) ≠ 0 → g'.kpheapBlocks = g.kpheapBlocks) ∧
      ∃ i, ∀ j, j ≠ i → g'.kpheapBlocks j = g.kpheapBlocks j := by
  rw [VkKernel.mapPage] at hr
  split_ifs at hr
  · cases hr
  · cases hr
  · obtain ⟨⟨t, g1⟩, ht, hr⟩ := bind_eq_ok.mp hr
    dsimp only at hr
    split_ifs at hr
    · cases hr
    · injection hr with hr
      subst hr
      rw [VkKernel.pageTableFor] at ht
      dsimp only at ht
      split_ifs at ht with hz
      · obtain ⟨⟨pt, g2⟩, hpt, ht⟩ := bind_eq_ok.mp ht
        obtain ⟨i, -, -, -, rfl⟩ := ptAlloc_eq_ok hpt
        injection ht with ht
        rw [Prod.mk.injEq] at ht
        obtain ⟨-, rfl⟩ := ht
        exact ⟨fun h => absurd hz h, i, fun j hj => Function.update_of_ne hj _ _⟩
      · cases ht
      · injection ht with ht
        rw [Prod.mk.injEq] at ht
        obtain ⟨-, rfl⟩ := ht
        exact ⟨fun _ => rfl, 0, fun _ _ => rfl⟩

/-- `unmap_page` removes one page, if there is a table for it. -/
theorem Tables.unmapPage (h : Tables large own keep g) {virt pd : ℕ}
    (ha : own (pd + 4 * pdIndex virt)) (hr : unmapPage virt pd g = .ok g') :
    Tables large own keep g' ∧ PagingFrame keep g g' ∧
      SetsLeaf own (pd + 4 * pdIndex virt) (ptIndex virt) 0 g g' := by
  rw [VkKernel.unmapPage] at hr
  dsimp only at hr
  have hq : ptIndex virt < 1024 := Nat.mod_lt _ (by norm_num)
  split_ifs at hr with hvirt hz hsize hpage
  · cases hr
  · injection hr with hr
    subst hr
    refine ⟨h, .refl _ _, fun b hb q hq => ?_⟩
    split_ifs with hc
    · rw [hc.1, Paging.leafAt, if_pos (.inl hz)]
    · rfl
  · cases hr
  · cases hr
  · injection hr with hr
    subst hr
    obtain ⟨-, -, hbit⟩ | ⟨i, hi, -, ht, -⟩ := h.table _ ha hz
    · exact absurd hbit hsize
    · rw [pageAddr, ht.frameOf_eq, entryAddr_eq hi hq]
      obtain ⟨h2, hl2, hf2⟩ := h.setLeaf ha ht hi hq 0
      exact ⟨h2, hf2, hl2⟩

/-- `map_page` returns when the page is not mapped and there is a table for it or
a slot for a new one. -/
theorem Tables.mapPage_ok (h : Tables False own keep g) (phys virt pd : ℕ)
    (ha : own (pd + 4 * pdIndex virt)) (hp : phys % 4096 = 0) (hv : virt % 4096 = 0)
    (hfree : g.word (pd + 4 * pdIndex virt) = 0 → ∃ i < 1024, g.kpheapBlocks i = false)
    (hleaf : g.leafAt (pd + 4 * pdIndex virt) (ptIndex virt) = 0) :
    ∃ g', VkKernel.mapPage phys virt pd g = .ok g' := by
  have hpt : ∃ r, VkKernel.pageTableFor virt pd g = .ok r := by
    rw [VkKernel.pageTableFor]
    by_cases hz : g.word (pd + 4 * pdIndex virt) = 0
    · obtain ⟨i, hi, hf⟩ := hfree hz
      obtain ⟨⟨pt, g1⟩, hr⟩ := ptAlloc_ok hi hf
      rw [if_pos hz, hr, ok_bind]
      exact ⟨_, rfl⟩
    · obtain ⟨hf, -⟩ | ⟨i, -, -, ht, -⟩ := h.table _ ha hz
      · exact hf.elim
      · rw [if_neg hz, if_neg (by rw [ht.pageSizeBit_eq]; decide)]
        exact ⟨_, rfl⟩
  obtain ⟨⟨t, g1⟩, hr⟩ := hpt
  obtain ⟨h1, hl1, -, i, hi, rfl, hti⟩ := h.pageTableFor ha hr
  have hq : ptIndex virt < 1024 := Nat.mod_lt _ (by norm_num)
  have hz : g1.word (pageAddr (slotPhys i) virt) = 0 := by
    rw [pageAddr, entryAddr_eq hi hq, ← leafAt_of_isTable hti hi hq, hl1 _ ha _ hq, hleaf]
  rw [VkKernel.mapPage, if_neg (by omega), if_neg (by omega), hr, ok_bind]
  dsimp only
  rw [if_neg (by simpa using hz)]
  exact ⟨_, rfl⟩

/-! ## Pages of 4 MiB -/

theorem fillTable_frame (t flags n i phys : ℕ) :
    let g' := fillTable t flags n i phys g
    (∀ b, t + 4 * (i + n) ≤ b → g'.word b = g.word b) ∧ g'.kpheapBlocks = g.kpheapBlocks ∧
      g'.kernelPageDirectory = g.kernelPageDirectory ∧
      g'.currentPageDirectory = g.currentPageDirectory ∧ g'.cpuPse = g.cpuPse := by
  induction n generalizing i phys g with
  | zero => exact ⟨fun _ _ => rfl, rfl, rfl, rfl, rfl⟩
  | succ n ih =>
    obtain ⟨hw, hk, hd, hc, hp⟩ :=
      ih (g := g.setWord (t + 4 * i) (phys ||| flags)) (i + 1) (u32 (phys + 0x1000))
    refine ⟨fun b hb => ?_, hk, hd, hc, hp⟩
    rw [fillTable, hw b (by omega), setWord_apply, if_neg (by omega)]

/-- `map_page_table` maps 4 MiB at once, or fills a table whose entries go to
its physical address. -/
theorem Tables.mapPageTable (h : Tables True own keep g) {phys virt pd : ℕ}
    (hhigh : ∀ b, own b ∨ keep b → kernelVirtualBase ≤ b) (ha : own (pd + 4 * pdIndex virt))
    (hr : mapPageTable phys virt pd g = .ok g') :
    Tables True own keep g' ∧ PagingFrame keep g g' := by
  rw [VkKernel.mapPageTable] at hr
  split_ifs at hr with hphys hvirt hz hpse
  · cases hr
  · cases hr
  · cases hr
  · injection hr with hr
    subst hr
    have hflags : g.kernelOr pd 387 135 = 387 ∨ g.kernelOr pd 387 135 = 135 := by
      unfold Paging.kernelOr
      split_ifs
      · exact .inl rfl
      · exact .inr rfl
    rw [not_ne_iff] at hphys
    have hbit : pageSizeBit (phys ||| g.kernelOr pd 387 135) = 1 := by
      rw [or_flags (by omega) (by omega), pageSizeBit]
      omega
    refine h.setOwn ha (fun _ => .inl ⟨trivial, hpse, hbit⟩) fun b i _ ht => ?_
    rw [ht.pageSizeBit_eq] at hbit
    cases hbit
  · obtain ⟨⟨pt, g1⟩, hpt, hr⟩ := bind_eq_ok.mp hr
    obtain ⟨i, rfl, hs, h1, -, hf1⟩ := h.ptAlloc hpt
    dsimp only at hr
    injection hr with hr
    subst hr
    rw [sub32_slotAddr hs.lt]
    rw [not_ne_iff] at hz
    obtain ⟨h2, -, hf2⟩ := h1.setEntry ha ((hs.entries _ ha).trans hz) hs (isTable_or g1 pd)
    obtain ⟨hw, hk, hd, hc, hp⟩ := fillTable_frame (slotPhys i)
      ((g1.setWord (pd + 4 * pdIndex virt) (slotPhys i ||| g1.pageFlags pd)).kernelOr pd 3 7) 1024 0
      phys (g := g1.setWord (pd + 4 * pdIndex virt) (slotPhys i ||| g1.pageFlags pd))
    have hlow := slotPhys_lt hs.lt
    obtain ⟨h3, hf3⟩ := h2.congr _ (fun b hb => hw b (by
      have := hhigh b hb
      unfold kernelVirtualBase at this
      omega)) hk hd hc hp
    exact ⟨h3, (hf1.trans hf2).trans hf3⟩

/-- `unmap_page_table` empties a directory entry. Without 4 MiB pages its
`pt_free` is about an index that no slot has. -/
theorem Tables.unmapPageTable (h : Tables True own keep g) {virt pd : ℕ}
    (ha : own (pd + 4 * pdIndex virt)) (hr : unmapPageTable virt pd g = .ok g') :
    Tables True own keep g' ∧ PagingFrame keep g g' := by
  have hno : ∀ b i, own b → IsTable 0 i → ¬ IsTable (g.word b) i :=
    fun b i _ ht => absurd rfl ht.ne_zero
  rw [VkKernel.unmapPageTable] at hr
  dsimp only at hr
  split_ifs at hr with hvirt hz hpse
  · cases hr
  · cases hr
  · injection hr with hr
    subst hr
    exact h.setOwn ha (fun hne => absurd rfl hne) hno
  · injection hr with hr
    subst hr
    obtain ⟨-, hp, -⟩ | ⟨i, hi, -, ht, -⟩ := h.table _ ha hz
    · exact absurd hp hpse
    · obtain ⟨h1, hf1⟩ := h.setOwn (v := 0) ha (fun hne => absurd rfl hne) hno
      generalize g.word (pd + 4 * pdIndex virt) = e at ht
      have hindex : 1024 ≤ sub32 (u32 (e + 4 * kernelVirtualBase)) kpheapVirtBase / kpheapBlockSize := by
        obtain ⟨f, hf, rfl⟩ := ht
        have := slotPhys_lt hi
        unfold sub32 u32 kernelVirtualBase kpheapVirtBase kpheapBlockSize
        omega
      have hused : ∀ j < 1024, ((ptFree (u32 (e + 4 * kernelVirtualBase)) g).setWord
          (pd + 4 * pdIndex virt) 0).kpheapBlocks j = g.kpheapBlocks j := by
        intro j hj
        exact Function.update_of_ne (by omega) _ _
      refine ⟨⟨fun b hb j hj hfree => h1.apart b hb j hj ((hused j hj).symm.trans hfree), ?_,
        h1.unshared, h1.disjoint⟩, hf1.words, rfl, rfl, rfl, fun j hj hu => (hused j hj).trans hu⟩
      intro b hb hne
      refine (h1.table b hb hne).imp_right fun ⟨j, hj, hu, htj, hoff⟩ => ⟨j, hj, ?_, htj, hoff⟩
      exact (hused j hj).trans hu

end VkKernel
