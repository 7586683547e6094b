import VkKernel.Lib.IntervalUpdate
import VkKernel.KheapRun
import VkKernel.PageTables
import VkKernel.PhysicalSpec

/-!
# Ranges of pages

The loops of `map_memory`, `map_flexible`, `unmap_flexible` and
`unmap_memory_if_mapped` over the user half of page directories that
`get_kernel_pd_clone` has returned. Each loop overwrites an interval of pages of
one directory and leaves the pages of all others.
-/

namespace VkKernel
open Outcome IntervalUpdate

/-- A loop whose step number `i` takes the assertion `P i` to `P (i + 1)`. -/
theorem stepLoop_rule {step : ℕ} {f : ℕ → Paging → Result Paging} {E : Stop → Prop} {n : ℕ}
    (P : ℕ → Paging → Prop) {add : ℕ} {g : Paging}
    (hf : ∀ i < n, ∀ g, P i g → Holds (f (add + i * step) g) (P (i + 1)) E) (h0 : P 0 g) :
    Holds (stepLoop step f n add g) (P n) E := by
  induction n generalizing P add g with
  | zero => exact h0
  | succ n ih =>
    rw [stepLoop, holds_bind]
    have hfirst := hf 0 (by omega) g h0
    rw [Nat.zero_mul, Nat.add_zero] at hfirst
    refine hfirst.mono (fun g1 h1 => ih (fun i => P (i + 1)) (fun i hi g hg => ?_) h1) fun e h => h
    have := hf (i + 1) (by omega) g hg
    rwa [show add + (i + 1) * step = add + step + i * step by ring] at this

/-- Mapping `n` pages of one 4 MiB range completes when none of them is mapped
and there is a table for them or a slot for a new one. -/
theorem Tables.mapPages {own keep : ℕ → Prop} {g : Paging} (h : Tables False own keep g)
    {phys virt pd n : ℕ} (ha : own (pd + 4 * pdIndex virt)) (hp : phys % 4096 = 0)
    (hv : virt % 4096 = 0) (hv' : virt < 2 ^ 32) (hn : ptIndex virt + n ≤ 1024)
    (hz : ∀ i < n, g.leafAt (pd + 4 * pdIndex virt) (ptIndex virt + i) = 0)
    (hfree : ∃ i < 1024, g.kpheapBlocks i = false) :
    ∃ g', stepLoop 4096 (fun add => VkKernel.mapPage (u32 (phys + add)) (u32 (virt + add)) pd) n 0 g
        = .ok g' ∧ Tables False own keep g' ∧ PagingFrame keep g g' ∧
      (∀ q < 1024, g'.leafAt (pd + 4 * pdIndex virt) q =
        overwrite (g.leafAt (pd + 4 * pdIndex virt)) (ptIndex virt) n
          (fun i => u32 (phys + i * 4096) + g.pageFlags pd) q) ∧
      (∀ b, own b → b ≠ pd + 4 * pdIndex virt → ∀ q < 1024, g'.leafAt b q = g.leafAt b q) ∧
      ∃ i, ∀ j, j ≠ i → g'.kpheapBlocks j = g.kpheapBlocks j := by
  let a := pd + 4 * pdIndex virt
  let P : ℕ → Paging → Prop := fun m g1 => Tables False own keep g1 ∧ PagingFrame keep g g1 ∧
    (∀ q < 1024, g1.leafAt a q = overwrite (g.leafAt a) (ptIndex virt) m
      (fun i => u32 (phys + i * 4096) + g.pageFlags pd) q) ∧
    (∀ b, own b → b ≠ a → ∀ q < 1024, g1.leafAt b q = g.leafAt b q) ∧
    (m = 0 → g1.kpheapBlocks = g.kpheapBlocks) ∧
    ∃ i, ∀ j, j ≠ i → g1.kpheapBlocks j = g.kpheapBlocks j
  have hloop : Holds (stepLoop 4096 (fun add => VkKernel.mapPage (u32 (phys + add))
      (u32 (virt + add)) pd) n 0 g) (P n) fun _ => False := by
    refine stepLoop_rule P (fun i hi g1 ⟨h1, hf1, hl1, ho1, hs1, hone⟩ => ?_)
      ⟨h, .refl _ _, fun q _ => by rw [overwrite_zero], fun _ _ _ _ _ => rfl, fun _ => rfl, 0,
        fun _ _ => rfl⟩
    -- page number `i` is in the same 4 MiB range as the first one
    have hvi : u32 (virt + i * 4096) = virt + i * 4096 := by
      rw [u32_of_lt]
      unfold ptIndex at hn
      omega
    have hdi : pdIndex (virt + i * 4096) = pdIndex virt := by
      unfold ptIndex at hn
      unfold pdIndex
      omega
    have hti : ptIndex (virt + i * 4096) = ptIndex virt + i := by
      unfold ptIndex at hn ⊢
      omega
    have hpi : u32 (phys + i * 4096) % 4096 = 0 := by
      unfold u32
      omega
    have hlt : ptIndex virt + i < 1024 := by omega
    have hleaf : g1.leafAt a (ptIndex virt + i) = 0 := by
      rw [hl1 _ hlt, overwrite_of_notMem (by omega)]
      exact hz i hi
    have hfirst : g1.word a = 0 → i = 0 := by
      intro hzero
      -- after the first page the table exists
      refine Nat.eq_zero_of_not_pos fun hpos => ?_
      have hfirst := hl1 (ptIndex virt) (by omega)
      rw [overwrite_of_mem le_rfl (by omega), Paging.leafAt, if_pos (.inl hzero)] at hfirst
      have := pageFlags_pos g pd
      omega
    have hslot : g1.word a = 0 → ∃ j < 1024, g1.kpheapBlocks j = false := fun hzero => by
      rw [hs1 (hfirst hzero)]
      exact hfree
    rw [Nat.zero_add, hvi]
    obtain ⟨g2, hg2⟩ := h1.mapPage_ok (u32 (phys + i * 4096)) (virt + i * 4096) pd (by rwa [hdi]) hpi (by omega) (by rwa [hdi]) (by rwa [hdi, hti])
    obtain ⟨-, h2, hf2, hl2⟩ := h1.mapPage (by rwa [hdi]) hg2
    obtain ⟨hkept, hblocks⟩ := mapPage_blocks hg2
    rw [hdi] at hkept
    rw [hdi, hti, hf1.pageFlags] at hl2
    rw [hg2]
    refine ⟨h2, hf1.trans hf2, fun q hq => ?_, fun b hb hne q hq => ?_, fun h0 => by omega, ?_⟩
    · rw [hl2 a ha q hq, overwrite_succ]
      by_cases hqi : q = ptIndex virt + i
      · subst hqi
        rw [if_pos ⟨rfl, rfl⟩, overwrite_of_mem le_rfl (by omega)]
      · rw [if_neg fun hc => hqi hc.2, overwrite_of_notMem (by omega), hl1 q hq]
    · rw [hl2 b hb q hq, if_neg fun hc => hne hc.1, ho1 b hb hne q hq]
    · by_cases hzero : g1.word a = 0
      · rw [← hs1 (hfirst hzero)]
        exact hblocks
      · rw [hkept hzero]
        exact hone
  obtain ⟨g', hr, h', hf', hl', ho', -, hone⟩ := hloop.exists_ok
  exact ⟨g', hr, h', hf', hl', ho', hone⟩

/-! ## Directories -/

/-- The entries for user memory of the directories `ds`. -/
def userEntry (ds : List ℕ) (a : ℕ) : Prop := ∃ d ∈ ds, ∃ j < 768, a = d + 4 * j

/-- Directories in slots of the page heap, with tables of their own for user
memory. -/
structure Spaces (large : Prop) (keep : ℕ → Prop) (ds : List ℕ) (g : Paging) : Prop where
  dirs : ∀ d ∈ ds, ∃ i < 1024, d = slotAddr i ∧ g.kpheapBlocks i = true
  tables : Tables large (userEntry ds) keep g

/-- The page-table entry of page `p`. -/
def Paging.pageEntry (g : Paging) (d p : ℕ) : ℕ := g.leafAt (d + 4 * (p / 1024)) (p % 1024)

theorem pdIndex_eq (virt : ℕ) : pdIndex virt = virt / 4096 / 1024 :=
  (Nat.div_div_eq_div_mul virt 4096 1024).symm

theorem leafAt_eq_pageEntry (g : Paging) (virt d : ℕ) :
    g.leafAt (d + 4 * pdIndex virt) (ptIndex virt) = g.pageEntry d (virt / 4096) := by
  rw [Paging.pageEntry, pdIndex_eq]
  rfl

/-- The pages of user memory. -/
def userPages : ℕ := 0xC0000

variable {large : Prop} {keep : ℕ → Prop} {ds : List ℕ} {g g' : Paging} {d : ℕ}

theorem userEntry_of_mem (hd : d ∈ ds) {virt : ℕ} (hv : virt < kernelVirtualBase) :
    userEntry ds (d + 4 * pdIndex virt) := by
  refine ⟨d, hd, pdIndex virt, ?_, rfl⟩
  unfold pdIndex
  unfold kernelVirtualBase at hv
  omega

theorem userEntry_of_page (hd : d ∈ ds) {p : ℕ} (hp : p < userPages) :
    userEntry ds (d + 4 * (p / 1024)) := by
  refine ⟨d, hd, p / 1024, ?_, rfl⟩
  unfold userPages at hp
  omega

/-- The pages of one directory are overwritten on an interval. -/
def SetsPages (ds : List ℕ) (d p n : ℕ) (v : ℕ → ℕ) (g g' : Paging) : Prop :=
  ∀ c ∈ ds, ∀ x < userPages,
    g'.pageEntry c x = if c = d then overwrite (g.pageEntry c) p n v x else g.pageEntry c x

theorem SetsPages.refl (ds : List ℕ) (d p : ℕ) (v : ℕ → ℕ) (g : Paging) :
    SetsPages ds d p 0 v g g := by
  intro c _ x _
  rw [overwrite_zero, ite_self]

/-- One more page at the end. -/
theorem SetsPages.succ {p n : ℕ} {v : ℕ → ℕ} {g1 : Paging} (h : SetsPages ds d p n v g g1)
    (h' : SetsPages ds d (p + n) 1 (fun _ => v n) g1 g') : SetsPages ds d p (n + 1) v g g' := by
  intro c hc x hx
  rw [h' c hc x hx]
  by_cases hcd : c = d
  · rw [if_pos hcd, if_pos hcd, overwrite_succ (g.pageEntry c) p n v]
    by_cases hxp : x = p + n
    · subst hxp
      rw [overwrite_of_mem le_rfl (by omega), overwrite_of_mem le_rfl (by omega)]
    · rw [overwrite_of_notMem (by omega), overwrite_of_notMem (by omega), h c hc x hx, if_pos hcd]
  · rw [if_neg hcd, if_neg hcd, h c hc x hx, if_neg hcd]

/-- Directory entries of different directories, or of different 4 MiB ranges,
have different addresses. -/
theorem Spaces.entry_inj (h : Spaces large keep ds g) {c : ℕ} (hc : c ∈ ds) (hd : d ∈ ds)
    {p q : ℕ} (hp : p < userPages) (hq : q < userPages)
    (heq : c + 4 * (p / 1024) = d + 4 * (q / 1024)) : c = d ∧ p / 1024 = q / 1024 := by
  obtain ⟨i, -, rfl, -⟩ := h.dirs c hc
  obtain ⟨j, -, rfl, -⟩ := h.dirs d hd
  unfold slotAddr kpheapBlockSize at heq ⊢
  unfold userPages at hp hq
  omega

/-- A changed table entry is a changed page. -/
theorem Spaces.setsPages (h : Spaces large keep ds g) (hd : d ∈ ds) {virt v : ℕ}
    (hv : virt < kernelVirtualBase)
    (hs : SetsLeaf (userEntry ds) (d + 4 * pdIndex virt) (ptIndex virt) v g g') :
    SetsPages ds d (virt / 4096) 1 (fun _ => v) g g' := by
  intro c hc x hx
  have hp : virt / 4096 < userPages := by
    unfold userPages
    unfold kernelVirtualBase at hv
    omega
  have hidx : ptIndex virt = virt / 4096 % 1024 := rfl
  rw [Paging.pageEntry, hs _ (userEntry_of_page hc hx) _ (Nat.mod_lt _ (by norm_num)), pdIndex_eq, hidx]
  by_cases hcd : c = d
  · subst hcd
    rw [if_pos rfl]
    by_cases hxp : x = virt / 4096
    · subst hxp
      rw [if_pos ⟨rfl, rfl⟩, overwrite_of_mem le_rfl (by omega)]
    · rw [if_neg (by omega), overwrite_of_notMem (by omega)]
      rfl
  · rw [if_neg hcd, if_neg]
    · rfl
    · rintro ⟨heq, -⟩
      exact hcd (h.entry_inj hc hd hx hp heq).1

theorem Spaces.of_frame (h : Spaces large keep ds g)
    (ht : Tables large (userEntry ds) keep g') (hf : PagingFrame keep g g') :
    Spaces large keep ds g' := by
  refine ⟨fun d hd => ?_, ht⟩
  obtain ⟨i, hi, hdi, hu⟩ := h.dirs d hd
  exact ⟨i, hi, hdi, hf.used i hi hu⟩

theorem Spaces.mapPage (h : Spaces large keep ds g) (hd : d ∈ ds) {phys virt : ℕ}
    (hv : virt < kernelVirtualBase) (hr : mapPage phys virt d g = .ok g') :
    phys % 4096 = 0 ∧ Spaces large keep ds g' ∧ PagingFrame keep g g' ∧
      SetsPages ds d (virt / 4096) 1 (fun _ => phys + g.pageFlags d) g g' := by
  obtain ⟨hp, ht, hf, hs⟩ := h.tables.mapPage (userEntry_of_mem hd hv) hr
  exact ⟨hp, h.of_frame ht hf, hf, h.setsPages hd hv hs⟩

theorem Spaces.unmapPage (h : Spaces large keep ds g) (hd : d ∈ ds) {virt : ℕ}
    (hv : virt < kernelVirtualBase) (hr : unmapPage virt d g = .ok g') :
    Spaces large keep ds g' ∧ PagingFrame keep g g' ∧
      SetsPages ds d (virt / 4096) 1 (fun _ => 0) g g' := by
  obtain ⟨ht, hf, hs⟩ := h.tables.unmapPage (userEntry_of_mem hd hv) hr
  exact ⟨h.of_frame ht hf, hf, h.setsPages hd hv hs⟩

/-! ## A new directory -/

theorem copyKernelHalf_frame (tr n i : ℕ) :
    let g' := copyKernelHalf tr n i g
    (∀ b, (∀ j, i ≤ j → j < i + n → b ≠ tr + 4 * j) → g'.word b = g.word b) ∧
      g'.kpheapBlocks = g.kpheapBlocks ∧ g'.kernelPageDirectory = g.kernelPageDirectory ∧
      g'.currentPageDirectory = g.currentPageDirectory ∧ g'.cpuPse = g.cpuPse := by
  induction n generalizing i g with
  | zero => exact ⟨fun _ _ => rfl, rfl, rfl, rfl, rfl⟩
  | succ n ih =>
    obtain ⟨hw, hk, hd, hc, hp⟩ := ih (i := i + 1)
      (g := g.setWord (tr + 4 * i) (g.word (g.kernelPageDirectory + 4 * i)))
    refine ⟨fun b hb => ?_, hk, hd, hc, hp⟩
    rw [copyKernelHalf, hw b fun j hj hj' => hb j (by omega) (by omega), setWord_apply,
      if_neg (hb i le_rfl (by omega))]

theorem copyKernelHalf_copy {tr n i : ℕ} (hapart : ∀ j, i ≤ j → j < i + n → ∀ l, i ≤ l → l < i + n →
    g.kernelPageDirectory + 4 * j ≠ tr + 4 * l) {j : ℕ} (hj : i ≤ j) (hj' : j < i + n) :
    (copyKernelHalf tr n i g).word (tr + 4 * j) = g.word (g.kernelPageDirectory + 4 * j) := by
  induction n generalizing i g with
  | zero => omega
  | succ n ih =>
    rw [copyKernelHalf]
    rcases Nat.eq_or_lt_of_le hj with rfl | hlt
    · rw [(copyKernelHalf_frame _ _ _).1 _ fun l hl _ => by omega, setWord_apply, if_pos rfl]
    · have hrest := ih (g := g.setWord (tr + 4 * i) (g.word (g.kernelPageDirectory + 4 * i)))
        (i := i + 1)
        (fun a ha ha' l hl hl' => hapart a (by omega) (by omega) l (by omega) (by omega))
        (by omega) (by omega)
      rw [hrest, setWord_apply]
      exact if_neg (hapart j (by omega) (by omega) i le_rfl (by omega))

/-- `get_kernel_pd_clone` returns a directory without user pages. -/
theorem Spaces.clone (h : Spaces large keep ds g) (hr : getKernelPdClone g = .ok (d, g'))
    (keep' : ℕ → Prop)
    (hkeep : ∀ b, keep' b → keep b ∨ ∃ j, 768 ≤ j ∧ j < 1024 ∧ b = d + 4 * j) :
    d ∉ ds ∧ Spaces large keep' (d :: ds) g' ∧ PagingFrame keep g g' ∧
      (∀ c ∈ ds, ∀ p < userPages, g'.pageEntry c p = g.pageEntry c p) ∧
      ∀ p < userPages, g'.pageEntry d p = 0 := by
  obtain ⟨⟨tr, g1⟩, hpt, hr⟩ := bind_eq_ok.mp hr
  obtain ⟨i, rfl, hs, h1, hl1, hf1⟩ := h.tables.ptAlloc hpt
  injection hr with hr
  rw [Prod.mk.injEq] at hr
  obtain ⟨rfl, rfl⟩ := hr
  obtain ⟨hw, hk, hkd, hc, hp⟩ := copyKernelHalf_frame (g := g1) (slotAddr i)
    (1024 - kernelVirtualBase / 2 ^ 22) (kernelVirtualBase / 2 ^ 22)
  generalize copyKernelHalf (slotAddr i) _ _ g1 = g2 at *
  -- the copy stays inside the new slot, and there in the kernel half
  have hbase : kernelVirtualBase / 2 ^ 22 = 768 := by decide
  rw [hbase] at hw
  have hoff : ∀ b, OffSlot i b → g2.word b = g1.word b := fun b hb =>
    hw b fun j _ hj => hb.ne (by omega)
  have hzero : ∀ j < 768, g2.word (slotAddr i + 4 * j) = 0 := fun j hj => by
    rw [hw _ fun j' hj' _ => by omega]
    exact hs.zero j (by omega)
  obtain ⟨h2, hl2⟩ := h1.change g2 hs.off hs.unreferenced hoff
    (fun j => by rw [hk]; split_ifs with hj; exacts [hj ▸ hs.used, rfl]) hp
  have hnot : slotAddr i ∉ ds := by
    intro hm
    obtain ⟨j, hj, hij, hu⟩ := h.dirs _ hm
    have : i = j := by
      unfold slotAddr kpheapBlockSize at hij
      omega
    rw [← this, hs.free] at hu
    cases hu
  have hin : ∀ j < 1024, ¬ OffSlot i (slotAddr i + 4 * j) := fun j hj => by
    unfold OffSlot
    omega
  have hf2 : PagingFrame keep g1 g2 := ⟨fun b hb => hoff b (hs.off b (.inr hb)), hkd, hc, hp,
    fun j _ hj => hk ▸ hj⟩
  have hframe := hf1.trans hf2
  refine ⟨hnot, ⟨?_, ?_⟩, hframe, ?_, ?_⟩
  · intro c hc
    rcases List.mem_cons.mp hc with rfl | hc
    · exact ⟨i, hs.lt, rfl, hk ▸ hs.used⟩
    · obtain ⟨j, hj, hcj, hu⟩ := h.dirs c hc
      exact ⟨j, hj, hcj, hframe.used j hj hu⟩
  · refine h2.extend (i := i) (hk ▸ hs.used) ?_ ?_ ?_ ?_
    · intro a ha
      rw [hoff a (hs.off a (.inl ha))]
      exact hs.unreferenced a ha
    · rintro a ⟨c, hc, j, hj, rfl⟩
      rcases List.mem_cons.mp hc with rfl | hc
      · exact .inr ⟨hin j (by omega), hzero j hj⟩
      · exact .inl ⟨c, hc, j, hj, rfl⟩
    · intro a ha
      refine (hkeep a ha).imp_right ?_
      rintro ⟨j, -, hj, rfl⟩
      exact hin j hj
    · rintro a ⟨c, hc, j, hj, rfl⟩ ha
      rcases List.mem_cons.mp hc with rfl | hc
      · rcases hkeep _ ha with ha | ⟨j', hj', -, heq⟩
        · exact hin j (by omega) (hs.off _ (.inr ha))
        · omega
      · rcases hkeep _ ha with ha | ⟨j', hj', hj'', heq⟩
        · exact h.tables.disjoint _ ⟨c, hc, j, hj, rfl⟩ ha
        · refine hin j' hj'' ?_
          rw [← heq]
          exact hs.off _ (.inl ⟨c, hc, j, hj, rfl⟩)
  · intro c hc p hp
    have hq := Nat.mod_lt p (show 1024 > 0 by norm_num)
    rw [Paging.pageEntry, hl2 _ (userEntry_of_page hc hp) _ hq, hl1 _ (userEntry_of_page hc hp) _ hq]
    rfl
  · intro p hp
    unfold userPages at hp
    rw [Paging.pageEntry, Paging.leafAt, if_pos (.inl (hzero (p / 1024) (by omega)))]

/-! ## What the lookups see -/

/-- The table entry that the lookups read. -/
theorem Spaces.pageEntry_eq (h : Spaces False keep ds g) (hd : d ∈ ds) {virt : ℕ}
    (hv : virt < kernelVirtualBase) (hz : g.word (d + 4 * pdIndex virt) ≠ 0) :
    pageSizeBit (g.word (d + 4 * pdIndex virt)) = 0 ∧
      g.pageEntry d (virt / 4096) = g.word (pageAddr (frameOf (g.word (d + 4 * pdIndex virt))) virt) := by
  obtain ⟨hf, -⟩ | ⟨i, -, -, ht, -⟩ := h.tables.table _ (userEntry_of_mem hd hv) hz
  · exact hf.elim
  · have hbit := ht.pageSizeBit_eq
    refine ⟨hbit, ?_⟩
    rw [← leafAt_eq_pageEntry, Paging.leafAt, if_neg (by rw [hbit]; simp [hz])]
    rfl

theorem pageEntry_of_entry_zero {virt : ℕ} (hz : g.word (d + 4 * pdIndex virt) = 0) :
    g.pageEntry d (virt / 4096) = 0 := by
  rw [← leafAt_eq_pageEntry, Paging.leafAt, if_pos (.inl hz)]

/-- `is_mapped` in a directory without 4 MiB pages. -/
theorem Spaces.isMapped_eq (h : Spaces False keep ds g) (hd : d ∈ ds) {virt : ℕ}
    (hv : virt < kernelVirtualBase) : isMapped virt d g = decide (g.pageEntry d (virt / 4096) ≠ 0) := by
  rw [isMapped]
  by_cases hz : g.word (d + 4 * pdIndex virt) = 0
  · simp [hz, pageEntry_of_entry_zero hz]
  · obtain ⟨hbit, hp⟩ := h.pageEntry_eq hd hv hz
    have hbit' : ¬ g.word (d + 4 * pdIndex virt) / 2 ^ 7 % 2 = 1 := by
      rw [← pageSizeBit, hbit]
      decide
    rw [if_neg hz, if_neg hbit', hp]

/-- `get_physical` in a directory without 4 MiB pages. -/
theorem Spaces.getPhysical_eq (h : Spaces False keep ds g) (hd : d ∈ ds) {virt : ℕ}
    (hv : virt < kernelVirtualBase) :
    getPhysical virt d g = if g.pageEntry d (virt / 4096) ≠ 0 then
      frameOf (g.pageEntry d (virt / 4096)) + virt % 4096 else 0 := by
  rw [getPhysical]
  by_cases hz : g.word (d + 4 * pdIndex virt) = 0
  · simp [hz, pageEntry_of_entry_zero hz]
  · obtain ⟨hbit, hp⟩ := h.pageEntry_eq hd hv hz
    rw [if_neg hz, if_neg (by rw [hbit]; decide), hp]

/-! ## Loops over a range -/

/-- A loop over `n` pages from page `p` on, each step of which sets one page. -/
theorem Spaces.range (h : Spaces large keep ds g) {f : ℕ → Paging → Result Paging} {n p : ℕ}
    {v : ℕ → ℕ} {A : ℕ → Prop}
    (hf : ∀ i < n, ∀ g1 g2, Spaces large keep ds g1 → PagingFrame keep g g1 →
      f (i * 4096) g1 = .ok g2 → A i ∧ Spaces large keep ds g2 ∧ PagingFrame keep g1 g2 ∧
        SetsPages ds d (p + i) 1 (fun _ => v i) g1 g2)
    (hr : stepLoop 4096 f n 0 g = .ok g') :
    (∀ i < n, A i) ∧ Spaces large keep ds g' ∧ PagingFrame keep g g' ∧
      SetsPages ds d p n v g g' := by
  let P : ℕ → Paging → Prop := fun m g1 => (∀ i < m, A i) ∧ Spaces large keep ds g1 ∧
    PagingFrame keep g g1 ∧ SetsPages ds d p m v g g1
  have hloop : Holds (stepLoop 4096 f n 0 g) (P n) fun _ => True := by
    refine stepLoop_rule P (fun i hi g1 ⟨hA, h1, hf1, hs1⟩ => ?_) ⟨by simp, h, .refl _ _, .refl _ _ _ _ _⟩
    rw [Nat.zero_add]
    cases hg2 : f (i * 4096) g1 with
    | error e => trivial
    | ok g2 =>
      obtain ⟨hAi, h2, hf2, hs2⟩ := hf i hi g1 g2 h1 hf1 hg2
      refine ⟨fun j hj => ?_, h2, hf1.trans hf2, hs1.succ hs2⟩
      rcases Nat.lt_succ_iff_lt_or_eq.mp hj with hj | rfl
      · exact hA j hj
      · exact hAi
  exact hloop.of_ok hr

/-- A page-aligned range of user memory that is served by 4 KiB pages. -/
structure UserRange (size virt : ℕ) : Prop where
  aligned : virt % 4096 = 0
  small : size ≤ 0x400000
  below : virt + alignup size 4096 ≤ kernelVirtualBase

/-- The pages of a range. -/
def pageCount (size : ℕ) : ℕ := alignup size 4096 / 4096

section UserRange

variable {size virt : ℕ}

theorem UserRange.alignup_eq (h : UserRange size virt) :
    alignup size 4096 = pageCount size * 4096 ∧ alignup size 4096 ≤ 0x400000 := by
  have hs := h.small
  rw [pageCount, VkKernel.alignup_eq (by norm_num) (by omega)]
  omega

theorem UserRange.lt (h : UserRange size virt) {i : ℕ} (hi : i < pageCount size) :
    virt + i * 4096 < kernelVirtualBase ∧ u32 (virt + i * 4096) = virt + i * 4096 := by
  have h1 := h.below
  have h2 := h.alignup_eq.1
  have hlt : virt + i * 4096 < kernelVirtualBase := by omega
  exact ⟨hlt, u32_of_lt (by unfold kernelVirtualBase at hlt; omega)⟩

theorem UserRange.forRange_eq (h : UserRange size virt) (large small : ℕ → Paging → Result Paging)
    (g : Paging) : forRange large small (alignup size 4096) virt g =
      stepLoop 4096 small (pageCount size) 0 g := by
  have hlarge : largePages (alignup size 4096) virt = 0 := by
    have := h.alignup_eq.2
    rw [largePages, if_neg (by omega)]
  rw [forRange, hlarge]
  simp only [stepLoop, ok_bind, Nat.zero_mul, Nat.sub_zero, pageCount]

theorem UserRange.aligndown_eq (h : UserRange size virt) : aligndown virt 4096 = virt := by
  rw [aligndown, h.aligned, Nat.sub_zero]

theorem UserRange.rangeSize_eq (h : UserRange size virt) :
    rangeSize size virt = alignup size 4096 := by
  have := h.small
  rw [rangeSize, h.aligndown_eq, Nat.sub_self, Nat.add_zero, u32_of_lt (by omega)]

end UserRange

theorem Spaces.mapRange (h : Spaces large keep ds g) (hd : d ∈ ds) {size virt phys : ℕ}
    (hu : UserRange size virt)
    (hr : stepLoop 4096 (fun add => VkKernel.mapPage (u32 (phys + add)) (u32 (virt + add)) d)
      (pageCount size) 0 g = .ok g') :
    (∀ i < pageCount size, u32 (phys + i * 4096) % 4096 = 0) ∧ Spaces large keep ds g' ∧
      PagingFrame keep g g' ∧ SetsPages ds d (virt / 4096) (pageCount size)
        (fun i => u32 (phys + i * 4096) + g.pageFlags d) g g' := by
  refine h.range (fun i hi g1 g2 h1 hf1 h2 => ?_) hr
  obtain ⟨hlt, hv⟩ := hu.lt hi
  rw [hv] at h2
  have hpage : (virt + i * 4096) / 4096 = virt / 4096 + i := by omega
  have := h1.mapPage hd hlt h2
  rwa [hpage, hf1.pageFlags] at this

theorem Spaces.mapFlexible (h : Spaces large keep ds g) (hd : d ∈ ds) {size virt physical : ℕ}
    (hu : UserRange size virt) (hr : mapFlexible size physical virt d g = .ok g') :
    (∀ i < pageCount size, u32 (physical + i * 4096) % 4096 = 0) ∧ Spaces large keep ds g' ∧
      PagingFrame keep g g' ∧ SetsPages ds d (virt / 4096) (pageCount size)
        (fun i => u32 (physical + i * 4096) + g.pageFlags d) g g' := by
  rw [VkKernel.mapFlexible, hu.rangeSize_eq, hu.aligndown_eq, hu.forRange_eq] at hr
  exact h.mapRange hd hu hr

theorem Spaces.unmapFlexible (h : Spaces large keep ds g) (hd : d ∈ ds) {size virt : ℕ}
    (hu : UserRange size virt) (hr : unmapFlexible size virt d g = .ok g') :
    Spaces large keep ds g' ∧ PagingFrame keep g g' ∧
      SetsPages ds d (virt / 4096) (pageCount size) (fun _ => 0) g g' := by
  rw [VkKernel.unmapFlexible, hu.rangeSize_eq, hu.aligndown_eq, hu.forRange_eq] at hr
  refine (h.range (A := fun _ => True) (fun i hi g1 g2 h1 hf1 h2 => ⟨trivial, ?_⟩) hr).2
  obtain ⟨hlt, hv⟩ := hu.lt hi
  rw [hv] at h2
  have hpage : (virt + i * 4096) / 4096 = virt / 4096 + i := by omega
  have := h1.unmapPage hd hlt h2
  rwa [hpage] at this

theorem Spaces.unmapMemoryIfMapped (h : Spaces False keep ds g) (hd : d ∈ ds) {size virt : ℕ}
    (hu : UserRange size virt) (hr : unmapMemoryIfMapped size virt d g = .ok g') :
    Spaces False keep ds g' ∧ PagingFrame keep g g' ∧
      SetsPages ds d (virt / 4096) (pageCount size) (fun _ => 0) g g' := by
  rw [VkKernel.unmapMemoryIfMapped, hu.rangeSize_eq, hu.aligndown_eq, hu.forRange_eq] at hr
  refine (h.range (A := fun _ => True) (fun i hi g1 g2 h1 hf1 h2 => ⟨trivial, ?_⟩) hr).2
  obtain ⟨hlt, hv⟩ := hu.lt hi
  rw [hv] at h2
  have hpage : (virt + i * 4096) / 4096 = virt / 4096 + i := by omega
  split_ifs at h2 with hm
  · have := h1.unmapPage hd hlt h2
    rwa [hpage] at this
  · -- the page is not mapped, so its entry is zero already
    injection h2 with h2
    subst h2
    refine ⟨h1, .refl _ _, fun c hc x hx => ?_⟩
    rw [h1.isMapped_eq hd hlt, hpage] at hm
    split_ifs with hcd
    · subst hcd
      by_cases hxp : x = virt / 4096 + i
      · subst hxp
        rw [overwrite_of_mem le_rfl (by omega)]
        simpa using hm
      · rw [overwrite_of_notMem (by omega)]
    · rfl

end VkKernel
