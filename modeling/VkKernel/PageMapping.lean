import VkKernel.AddressSpaces

/-!
# Page by page

When `map_page` returns, and what the processor translates behind it, in a directory whose
user half may have 4 MiB pages. A loop over neighbouring pages returns exactly if none of
them is mapped and the page heap has a slot for every table that is missing.
-/

namespace VkKernel
open Outcome

/-- The translation of the processor: the entry of the directory is a 4 MiB page or leads to
the entry of a table. -/
def Paging.translate (g : Paging) (virt pd : ℕ) : Option ℕ :=
  let entry := g.word (pd + 4 * pdIndex virt)
  if entry = 0 then none
  else if pageSizeBit entry = 1 then some (entry / 2 ^ 22 * 2 ^ 22 + virt % 0x400000)
  else
    let page := g.word (pageAddr (frameOf entry) virt)
    if page = 0 then none else some (frameOf page + virt % 4096)

/-- `is_mapped` asks whether there is a translation. -/
theorem isMapped_eq_translate (virt pd : ℕ) (g : Paging) :
    isMapped virt pd g = (g.translate virt pd).isSome := by
  unfold isMapped Paging.translate pageSizeBit
  dsimp only
  split_ifs with h1 h2 h3
  · rfl
  · rfl
  · simp [h3]
  · simp [h3]

/-- The free slots of the page heap. -/
def freeSlots (g : Paging) : ℕ := ((Finset.range 1024).filter fun i => g.kpheapBlocks i = false).card

/-- The tables that `n` pages from page `p` on lack. -/
def missingTables (g : Paging) (d p n : ℕ) : ℕ :=
  (((Finset.range n).image fun i => (p + i) / 1024).filter fun j => g.word (d + 4 * j) = 0).card

theorem freeSlots_pos_iff {g : Paging} : 0 < freeSlots g ↔ ∃ i < 1024, g.kpheapBlocks i = false := by
  unfold freeSlots
  rw [Finset.card_pos]
  constructor
  · rintro ⟨i, hi⟩
    rw [Finset.mem_filter, Finset.mem_range] at hi
    exact ⟨i, hi.1, hi.2⟩
  · rintro ⟨i, hi, hfree⟩
    exact ⟨i, Finset.mem_filter.mpr ⟨Finset.mem_range.mpr hi, hfree⟩⟩

theorem freeSlots_congr {g g' : Paging} (h : g'.kpheapBlocks = g.kpheapBlocks) :
    freeSlots g' = freeSlots g := by
  unfold freeSlots
  rw [h]

theorem freeSlots_update {g g' : Paging} {i : ℕ} (hi : i < 1024) (hfree : g.kpheapBlocks i = false)
    (h : g'.kpheapBlocks = Function.update g.kpheapBlocks i true) : freeSlots g = freeSlots g' + 1 := by
  unfold freeSlots
  have hsplit : ((Finset.range 1024).filter fun j => g.kpheapBlocks j = false) =
      insert i ((Finset.range 1024).filter fun j => g'.kpheapBlocks j = false) := by
    ext j
    simp only [Finset.mem_filter, Finset.mem_range, Finset.mem_insert, h, Function.update_apply]
    by_cases hj : j = i
    · simp [hj, hi, hfree]
    · simp [hj]
  have hnot : i ∉ (Finset.range 1024).filter fun j => g'.kpheapBlocks j = false := by
    simp [h]
  rw [hsplit, Finset.card_insert_of_notMem hnot]

variable {large : Prop} {own keep : ℕ → Prop} {g g' : Paging}

/-! ## One page -/

/-- The table that `map_page` writes to: an old one, or a new one in a free slot. -/
theorem Tables.pageTableFor_words (h : Tables large own keep g) {virt pd t : ℕ}
    (hr : VkKernel.pageTableFor virt pd g = .ok (t, g')) :
    (∀ b, own b → b ≠ pd + 4 * pdIndex virt → g'.word b = g.word b) ∧
      g'.word (pd + 4 * pdIndex virt) ≠ 0 ∧
      freeSlots g = freeSlots g' + if g.word (pd + 4 * pdIndex virt) = 0 then 1 else 0 := by
  rw [VkKernel.pageTableFor] at hr
  dsimp only at hr
  split_ifs at hr with hz hsize
  · obtain ⟨⟨pt, g1⟩, hpt, hr⟩ := bind_eq_ok.mp hr
    obtain ⟨j, hj, hjfree, hjpt, hg1⟩ := ptAlloc_eq_ok hpt
    obtain ⟨i, rfl, hs, h1, hl1, hf1⟩ := h.ptAlloc hpt
    injection hr with hr
    rw [Prod.mk.injEq] at hr
    obtain ⟨rfl, rfl⟩ := hr
    dsimp only
    rw [sub32_slotAddr hs.lt, u32_slotPhys hs.lt, hs.clearPage_eq]
    have he := isTable_or (i := i) g1 pd
    refine ⟨fun b hb hne => ?_, ?_, ?_⟩
    · rw [setWord_apply, if_neg hne]
      exact hs.entries b hb
    · rw [setWord_apply, if_pos rfl]
      exact he.ne_zero
    · rw [if_pos hz]
      apply freeSlots_update hj hjfree
      rw [hg1]
      rfl
  · cases hr
  · injection hr with hr
    rw [Prod.mk.injEq] at hr
    obtain ⟨rfl, rfl⟩ := hr
    refine ⟨fun _ _ _ => rfl, hz, ?_⟩
    rw [if_neg hz, Nat.add_zero]

/-- What `map_page` has done to the directory: one page, and a table for it. -/
structure MapsPage (own keep : ℕ → Prop) (phys virt pd : ℕ) (g g' : Paging) : Prop where
  frame : PagingFrame keep g g'
  entries : ∀ b, own b → b ≠ pd + 4 * pdIndex virt → g'.word b = g.word b
  entry : g'.word (pd + 4 * pdIndex virt) ≠ 0
  old : g.word (pd + 4 * pdIndex virt) ≠ 0 → g'.word (pd + 4 * pdIndex virt) = g.word (pd + 4 * pdIndex virt)
  table : pageSizeBit (g'.word (pd + 4 * pdIndex virt)) = 0
  slots : freeSlots g = freeSlots g' + if g.word (pd + 4 * pdIndex virt) = 0 then 1 else 0
  leaves : SetsLeaf own (pd + 4 * pdIndex virt) (ptIndex virt) (phys + g.pageFlags pd) g g'

theorem Tables.mapPage_maps (h : Tables large own keep g) {phys virt pd : ℕ}
    (ha : own (pd + 4 * pdIndex virt)) (hr : VkKernel.mapPage phys virt pd g = .ok g') :
    Tables large own keep g' ∧ MapsPage own keep phys virt pd g g' := by
  obtain ⟨-, ht', hf, hl⟩ := h.mapPage ha hr
  rw [VkKernel.mapPage] at hr
  split_ifs at hr with hphys hvirt
  · cases hr
  · cases hr
  · obtain ⟨⟨t, g1⟩, ht, hr⟩ := bind_eq_ok.mp hr
    obtain ⟨hwords, hne, hslots⟩ := h.pageTableFor_words ht
    obtain ⟨h1, hl1, hf1, i, hi, rfl, hti⟩ := h.pageTableFor ha ht
    have hq : ptIndex virt < 1024 := Nat.mod_lt _ (by norm_num)
    dsimp only at hr
    rw [pageAddr, entryAddr_eq hi hq] at hr
    split_ifs at hr
    · cases hr
    · injection hr with hr
      subst hr
      have hoff : ∀ b, own b → OffSlot i b := by
        obtain ⟨-, -, hsize⟩ | ⟨j, -, -, htj, hoff⟩ := h1.table _ ha hne
        · rw [hti.pageSizeBit_eq] at hsize
          cases hsize
        · intro b hb
          rw [hti.slot_unique htj]
          exact hoff b (.inl hb)
      have hkept : ∀ b, own b → (g1.setWord (slotAddr i + 4 * ptIndex virt)
          (phys ||| g1.pageFlags pd)).word b = g1.word b := by
        intro b hb
        rw [setWord_apply, if_neg ((hoff b hb).ne hq)]
      refine ⟨ht', hf, ?_, ?_, ?_, ?_, ?_, hl⟩
      · intro b hb hbne
        rw [hkept b hb, hwords b hb hbne]
      · rw [hkept _ ha]
        exact hne
      · intro hold
        rw [hkept _ ha]
        rw [VkKernel.pageTableFor] at ht
        dsimp only at ht
        rw [if_neg hold] at ht
        split_ifs at ht
        · cases ht
        · have hpair := Except.ok.inj ht
          rw [(Prod.mk.inj hpair).2]
      · rw [hkept _ ha]
        exact hti.pageSizeBit_eq
      · have hsame : freeSlots (g1.setWord (slotAddr i + 4 * ptIndex virt) (phys ||| g1.pageFlags pd)) =
            freeSlots g1 := freeSlots_congr rfl
        rw [hsame]
        exact hslots

/-- `map_page` does not return for a page that is mapped, whatever the tables are like. -/
theorem mapPage_of_isMapped {phys virt pd : ℕ} (hm : isMapped virt pd g = true) :
    ¬∃ g', VkKernel.mapPage phys virt pd g = .ok g' := by
  rintro ⟨g', hr⟩
  rw [VkKernel.mapPage] at hr
  split_ifs at hr
  · cases hr
  · cases hr
  · obtain ⟨⟨t, g1⟩, ht, hr⟩ := bind_eq_ok.mp hr
    unfold isMapped at hm
    dsimp only at hm
    rw [VkKernel.pageTableFor] at ht
    dsimp only at ht
    unfold pageSizeBit at ht
    split_ifs at ht hm with hz hbit
    · cases ht
    · have hpair := Except.ok.inj ht
      rw [Prod.mk.injEq] at hpair
      obtain ⟨rfl, rfl⟩ := hpair
      rw [decide_eq_true_eq] at hm
      dsimp only at hr
      rw [if_pos hm] at hr
      cases hr

/-- The entry of a page that is not mapped. -/
theorem leafAt_of_not_isMapped {virt pd : ℕ} (hm : isMapped virt pd g = false) :
    (g.word (pd + 4 * pdIndex virt) ≠ 0 → pageSizeBit (g.word (pd + 4 * pdIndex virt)) ≠ 1) ∧
      g.leafAt (pd + 4 * pdIndex virt) (ptIndex virt) = 0 := by
  unfold isMapped at hm
  unfold Paging.leafAt pageSizeBit
  dsimp only at hm
  split_ifs at hm with hz hbit
  · exact ⟨fun hne => absurd hz hne, if_pos (.inl hz)⟩
  · refine ⟨fun _ => hbit, ?_⟩
    rw [if_neg (by rw [not_or]; exact ⟨hz, hbit⟩)]
    rw [decide_eq_false_iff_not, not_not] at hm
    exact hm

/-- `map_page` returns exactly if the page is not mapped and there is a table for it or a slot
for a new one. -/
theorem Tables.mapPage_iff (h : Tables large own keep g) {phys virt pd : ℕ}
    (ha : own (pd + 4 * pdIndex virt)) (hp : phys % 4096 = 0) (hv : virt % 4096 = 0) :
    (∃ g', VkKernel.mapPage phys virt pd g = .ok g') ↔
      isMapped virt pd g = false ∧ (g.word (pd + 4 * pdIndex virt) = 0 → 0 < freeSlots g) := by
  constructor
  · rintro ⟨g', hr⟩
    refine ⟨?_, fun hz => ?_⟩
    · by_contra hm
      exact mapPage_of_isMapped (by simpa using hm) ⟨g', hr⟩
    · have hslots := (h.mapPage_maps ha hr).2.slots
      rw [if_pos hz] at hslots
      omega
  · rintro ⟨hm, hfree⟩
    obtain ⟨hbit, hleaf⟩ := leafAt_of_not_isMapped hm
    have hpt : ∃ r, VkKernel.pageTableFor virt pd g = .ok r := by
      rw [VkKernel.pageTableFor]
      by_cases hz : g.word (pd + 4 * pdIndex virt) = 0
      · obtain ⟨i, hi, hf⟩ := freeSlots_pos_iff.mp (hfree hz)
        obtain ⟨⟨pt, g1⟩, hr⟩ := ptAlloc_ok hi hf
        rw [if_pos hz, hr, ok_bind]
        exact ⟨_, rfl⟩
      · rw [if_neg hz, if_neg (hbit hz)]
        exact ⟨_, rfl⟩
    obtain ⟨⟨t, g1⟩, hr⟩ := hpt
    obtain ⟨h1, hl1, -, i, hi, rfl, hti⟩ := h.pageTableFor ha hr
    have hq : ptIndex virt < 1024 := Nat.mod_lt _ (by norm_num)
    have hz : g1.word (pageAddr (slotPhys i) virt) = 0 := by
      rw [pageAddr, entryAddr_eq hi hq, ← leafAt_of_isTable hti hi hq, hl1 _ ha _ hq, hleaf]
    rw [VkKernel.mapPage, if_neg (by omega), if_neg (by omega), hr, ok_bind]
    dsimp only
    rw [if_neg (not_not_intro hz)]
    exact ⟨_, rfl⟩

/-! ## Directories with a kernel half -/

/-- The words that the translations of the kernel half are read from. -/
def kernelWord (g : Paging) (d a : ℕ) : Prop :=
  ∃ virt, kernelVirtualBase ≤ virt ∧ virt < 2 ^ 32 ∧
    (a = d + 4 * pdIndex virt ∨ a = pageAddr (frameOf (g.word (d + 4 * pdIndex virt))) virt)

/-- A page directory of a process: the user half has 4 MiB pages and tables of its own, the
kernel half is kept, and the loader has mapped the kernel image at the start of it. -/
structure UserDirectory (keep : ℕ → Prop) (d : ℕ) (g : Paging) : Prop where
  dir : ∃ i < 1024, d = slotAddr i ∧ g.kpheapBlocks i = true
  tables : Tables True (userEntry [d]) keep g
  kernelWords : ∀ a, kernelWord g d a → keep a
  image : isMapped kernelVirtualBase d g = true

variable {d : ℕ}

theorem UserDirectory.entry (virt : ℕ) (hv : virt < kernelVirtualBase) :
    userEntry [d] (d + 4 * pdIndex virt) := userEntry_of_mem List.mem_cons_self hv

theorem kernelVirtualBase_le_of_pdIndex {virt : ℕ} (hv : kernelVirtualBase ≤ virt) : 768 ≤ pdIndex virt := by
  unfold pdIndex
  unfold kernelVirtualBase at hv
  omega

/-- The kernel half of a directory whose words are kept. -/
theorem translate_kernel (hk : ∀ a, kernelWord g d a → keep a) (hf : PagingFrame keep g g') {virt : ℕ}
    (hv : kernelVirtualBase ≤ virt) (hv' : virt < 2 ^ 32) : g'.translate virt d = g.translate virt d := by
  have hentry : g'.word (d + 4 * pdIndex virt) = g.word (d + 4 * pdIndex virt) :=
    hf.words _ (hk _ ⟨virt, hv, hv', .inl rfl⟩)
  have hleaf : g'.word (pageAddr (frameOf (g.word (d + 4 * pdIndex virt))) virt) =
      g.word (pageAddr (frameOf (g.word (d + 4 * pdIndex virt))) virt) :=
    hf.words _ (hk _ ⟨virt, hv, hv', .inr rfl⟩)
  unfold Paging.translate
  dsimp only
  rw [hentry, hleaf]

theorem kernelWord_congr (hk : ∀ a, kernelWord g d a → keep a) (hf : PagingFrame keep g g') {a : ℕ}
    (ha : kernelWord g' d a) : keep a := by
  obtain ⟨virt, hv, hv', ha⟩ := ha
  have hentry : g'.word (d + 4 * pdIndex virt) = g.word (d + 4 * pdIndex virt) :=
    hf.words _ (hk _ ⟨virt, hv, hv', .inl rfl⟩)
  rw [hentry] at ha
  exact hk a ⟨virt, hv, hv', ha⟩

/-- A user page, by the entry of its table. -/
theorem translate_eq_leaf (g : Paging) (virt d : ℕ) : g.translate virt d =
    if g.word (d + 4 * pdIndex virt) ≠ 0 ∧ pageSizeBit (g.word (d + 4 * pdIndex virt)) = 1 then
      some (g.word (d + 4 * pdIndex virt) / 2 ^ 22 * 2 ^ 22 + virt % 0x400000)
    else if g.leafAt (d + 4 * pdIndex virt) (ptIndex virt) = 0 then none
    else some (frameOf (g.leafAt (d + 4 * pdIndex virt) (ptIndex virt)) + virt % 4096) := by
  unfold Paging.translate Paging.leafAt pageAddr
  dsimp only
  by_cases hz : g.word (d + 4 * pdIndex virt) = 0
  · simp [hz]
  · by_cases hbit : pageSizeBit (g.word (d + 4 * pdIndex virt)) = 1
    · simp [hz, hbit]
    · simp [hz, hbit]

/-- What `map_page` does to the translations of the user half. -/
theorem MapsPage.translate_user {phys virt : ℕ} (h : MapsPage (userEntry [d]) keep phys virt d g g')
    (hphys : phys % 4096 = 0) (hm : isMapped virt d g = false)
    {w : ℕ} (hw : w < kernelVirtualBase) :
    g'.translate w d = if w / 4096 = virt / 4096 then some (phys + w % 4096) else g.translate w d := by
  obtain ⟨hbit, hleaf⟩ := leafAt_of_not_isMapped hm
  have hq : ptIndex w < 1024 := Nat.mod_lt _ (by norm_num)
  have hown : userEntry [d] (d + 4 * pdIndex w) := UserDirectory.entry w hw
  have hset := h.leaves _ hown _ hq
  have hsame : (d + 4 * pdIndex w = d + 4 * pdIndex virt ∧ ptIndex w = ptIndex virt) ↔
      w / 4096 = virt / 4096 := by
    unfold pdIndex ptIndex
    omega
  rw [translate_eq_leaf, translate_eq_leaf, hset]
  by_cases hentry : pdIndex w = pdIndex virt
  · -- the table of the new page
    have hword : g'.word (d + 4 * pdIndex w) ≠ 0 ∧ pageSizeBit (g'.word (d + 4 * pdIndex w)) = 0 := by
      rw [hentry]
      exact ⟨h.entry, h.table⟩
    have hold : ¬(g.word (d + 4 * pdIndex w) ≠ 0 ∧ pageSizeBit (g.word (d + 4 * pdIndex w)) = 1) := by
      rw [hentry]
      exact fun hc => hbit hc.1 hc.2
    rw [if_neg (by rw [hword.2]; simp), if_neg hold]
    by_cases hpage : w / 4096 = virt / 4096
    · have hpos := pageFlags_pos g d
      rw [if_pos (hsame.mpr hpage), if_pos hpage, if_neg (by omega), frameOf_add hphys (pageFlags_lt g d)]
    · rw [if_neg fun hc => hpage (hsame.mp hc), if_neg hpage]
  · have hne : d + 4 * pdIndex w ≠ d + 4 * pdIndex virt := by omega
    have hpage : w / 4096 ≠ virt / 4096 := by
      intro hc
      exact hne (hsame.mpr hc).1
    have hout : ¬(d + 4 * pdIndex w = d + 4 * pdIndex virt ∧ ptIndex w = ptIndex virt) := fun hc => hne hc.1
    rw [h.entries _ hown hne, if_neg hout, if_neg hpage]

/-- A new page, in a directory of a process. -/
theorem UserDirectory.mapPage (h : UserDirectory keep d g) {phys virt : ℕ} (hphys : phys % 4096 = 0)
    (hv : virt < kernelVirtualBase) (hr : VkKernel.mapPage phys virt d g = .ok g') :
    UserDirectory keep d g' ∧ MapsPage (userEntry [d]) keep phys virt d g g' ∧
      ∀ w < 2 ^ 32, g'.translate w d =
        if w / 4096 = virt / 4096 then some (phys + w % 4096) else g.translate w d := by
  have hown := @UserDirectory.entry d virt hv
  obtain ⟨ht', hmaps⟩ := h.tables.mapPage_maps hown hr
  have hm : isMapped virt d g = false := by
    by_contra hc
    exact mapPage_of_isMapped (by simpa using hc) ⟨g', hr⟩
  have hkernel : ∀ w, kernelVirtualBase ≤ w → w < 2 ^ 32 → g'.translate w d = g.translate w d :=
    fun w hw hw' => translate_kernel h.kernelWords hmaps.frame hw hw'
  refine ⟨⟨?_, ht', fun a => kernelWord_congr h.kernelWords hmaps.frame, ?_⟩, hmaps, ?_⟩
  · obtain ⟨i, hi, hd, hu⟩ := h.dir
    exact ⟨i, hi, hd, hmaps.frame.used i hi hu⟩
  · rw [isMapped_eq_translate, hkernel _ le_rfl (by decide), ← isMapped_eq_translate]
    exact h.image
  · intro w hw
    by_cases hlow : w < kernelVirtualBase
    · exact hmaps.translate_user hphys hm hlow
    · rw [hkernel w (not_lt.mp hlow) hw, if_neg]
      unfold kernelVirtualBase at hlow hv
      omega

/-! ## Neighbouring pages -/

/-- Pages that are not mapped are below the kernel image. -/
theorem UserDirectory.below (h : UserDirectory keep d g) {virt n : ℕ} (hv : virt % 4096 = 0)
    (hle : virt ≤ kernelVirtualBase) (hm : ∀ i < n, isMapped (virt + i * 4096) d g = false) :
    virt + n * 4096 ≤ kernelVirtualBase := by
  by_contra hover
  have himage := hm ((kernelVirtualBase - virt) / 4096) (by
    unfold kernelVirtualBase at hover hle ⊢
    omega)
  have heq : virt + (kernelVirtualBase - virt) / 4096 * 4096 = kernelVirtualBase := by
    unfold kernelVirtualBase at hle ⊢
    omega
  rw [heq, h.image] at himage
  cases himage

/-- The first page takes care of its table. -/
theorem missingTables_succ {p n : ℕ}
    (hwords : ∀ i ≤ n, g'.word (d + 4 * ((p + i) / 1024)) = 0 ↔
      g.word (d + 4 * ((p + i) / 1024)) = 0 ∧ (p + i) / 1024 ≠ p / 1024) :
    missingTables g d p (n + 1) =
      missingTables g' d (p + 1) n + if g.word (d + 4 * (p / 1024)) = 0 then 1 else 0 := by
  have hrest : ∀ j, (∃ i < n, (p + 1 + i) / 1024 = j) → (g'.word (d + 4 * j) = 0 ↔
      g.word (d + 4 * j) = 0 ∧ j ≠ p / 1024) := by
    rintro j ⟨i, hi, rfl⟩
    have := hwords (i + 1) (by omega)
    rwa [show p + (i + 1) = p + 1 + i by omega] at this
  have hall : ∀ j, (∃ i < n + 1, (p + i) / 1024 = j) ↔ j = p / 1024 ∨ ∃ i < n, (p + 1 + i) / 1024 = j := by
    intro j
    constructor
    · rintro ⟨i, hi, rfl⟩
      cases i with
      | zero => exact .inl rfl
      | succ i => exact .inr ⟨i, by omega, by rw [show p + 1 + i = p + (i + 1) by omega]⟩
    · rintro (rfl | ⟨i, hi, rfl⟩)
      · exact ⟨0, by omega, rfl⟩
      · exact ⟨i + 1, by omega, by rw [show p + (i + 1) = p + 1 + i by omega]⟩
  unfold missingTables
  by_cases hz : g.word (d + 4 * (p / 1024)) = 0
  · rw [if_pos hz, ← Finset.card_insert_of_notMem]
    · congr 1
      ext j
      simp only [Finset.mem_filter, Finset.mem_image, Finset.mem_range, Finset.mem_insert]
      rw [hall]
      constructor
      · rintro ⟨rfl | hj, hzero⟩
        · exact .inl rfl
        · by_cases hjp : j = p / 1024
          · exact .inl hjp
          · exact .inr ⟨hj, (hrest j hj).mpr ⟨hzero, hjp⟩⟩
      · rintro (rfl | ⟨hj, hzero⟩)
        · exact ⟨.inl rfl, hz⟩
        · exact ⟨.inr hj, ((hrest j hj).mp hzero).1⟩
    · simp only [Finset.mem_filter, Finset.mem_image, Finset.mem_range]
      rintro ⟨hj, hzero⟩
      exact ((hrest _ hj).mp hzero).2 rfl
  · rw [if_neg hz]
    refine (congrArg Finset.card ?_).trans (Nat.add_zero _).symm
    ext j
    simp only [Finset.mem_filter, Finset.mem_image, Finset.mem_range]
    rw [hall]
    constructor
    · rintro ⟨rfl | hj, hzero⟩
      · exact absurd hzero hz
      · refine ⟨hj, (hrest j hj).mpr ⟨hzero, ?_⟩⟩
        rintro rfl
        exact hz hzero
    · rintro ⟨hj, hzero⟩
      exact ⟨.inr hj, ((hrest j hj).mp hzero).1⟩

theorem missingTables_pos {p n : ℕ} (hz : g.word (d + 4 * (p / 1024)) = 0) :
    0 < missingTables g d p (n + 1) := by
  unfold missingTables
  apply Finset.card_pos.mpr
  refine ⟨p / 1024, ?_⟩
  rw [Finset.mem_filter, Finset.mem_image]
  exact ⟨⟨0, Finset.mem_range.mpr (Nat.succ_pos n), rfl⟩, hz⟩

/-- The loop of `map_memory` over 4 KiB pages: when it returns, and what it has mapped. -/
theorem UserDirectory.mapPages (h : UserDirectory keep d g) {phys virt n add : ℕ}
    (hphys : phys % 4096 = 0) (hvirt : virt % 4096 = 0) (hadd : add % 4096 = 0)
    (hle : virt + add ≤ kernelVirtualBase) :
    ((∃ g', stepLoop 4096 (fun add => VkKernel.mapPage (u32 (phys + add)) (u32 (virt + add)) d) n add g = .ok g') ↔
      (∀ i < n, isMapped (virt + add + i * 4096) d g = false) ∧
        missingTables g d ((virt + add) / 4096) n ≤ freeSlots g) ∧
    ∀ g', stepLoop 4096 (fun add => VkKernel.mapPage (u32 (phys + add)) (u32 (virt + add)) d) n add g = .ok g' →
      UserDirectory keep d g' ∧ PagingFrame keep g g' ∧ ∀ w < 2 ^ 32, g'.translate w d =
        if (virt + add) / 4096 ≤ w / 4096 ∧ w / 4096 < (virt + add) / 4096 + n then
          some (u32 (phys + (w / 4096 * 4096 - virt)) + w % 4096)
        else g.translate w d := by
  induction n generalizing add g with
  | zero =>
    refine ⟨⟨fun _ => ⟨fun i hi => absurd hi (Nat.not_lt_zero i), Nat.zero_le _⟩, fun _ => ⟨g, rfl⟩⟩, ?_⟩
    intro g' hr
    injection hr with hr
    subst hr
    refine ⟨h, .refl _ _, fun w _ => ?_⟩
    rw [if_neg (by omega)]
  | succ n ih =>
    have hlt32 : kernelVirtualBase < 2 ^ 32 := by decide
    have hu : u32 (virt + add) = virt + add := u32_of_lt (by omega)
    have hp : u32 (phys + add) % 4096 = 0 := by
      unfold u32
      omega
    rw [stepLoop, hu]
    by_cases hlt : virt + add < kernelVirtualBase
    · have hiff := h.tables.mapPage_iff (UserDirectory.entry (virt + add) hlt) hp (by omega)
      cases hr : VkKernel.mapPage (u32 (phys + add)) (virt + add) d g with
      | error e =>
        rw [hr] at hiff
        refine ⟨⟨?_, ?_⟩, ?_⟩
        · rintro ⟨g', hg⟩
          cases hg
        · rintro ⟨hm, hslots⟩
          have hfirst := hm 0 (Nat.succ_pos n)
          rw [Nat.zero_mul, Nat.add_zero] at hfirst
          obtain ⟨g1, hg1⟩ := hiff.mpr ⟨hfirst, fun hz => by
            rw [pdIndex_eq] at hz
            exact (missingTables_pos hz).trans_le hslots⟩
          cases hg1
        · intro g' hg
          cases hg
      | ok g1 =>
        obtain ⟨hfirst, hfree⟩ := hiff.mp ⟨g1, hr⟩
        obtain ⟨h1, hmaps, htrans⟩ := h.mapPage hp hlt hr
        have hnext : virt + (add + 4096) ≤ kernelVirtualBase := by
          unfold kernelVirtualBase at hlt ⊢
          omega
        obtain ⟨ihiff, ihmap⟩ := @ih g1 h1 (add + 4096) (by omega) hnext
        rw [ok_bind]
        have hpage : (virt + (add + 4096)) / 4096 = (virt + add) / 4096 + 1 := by omega
        rw [hpage] at ihiff ihmap
        -- the other pages are mapped as before
        have hsame : ∀ i, virt + add + (i + 1) * 4096 < 2 ^ 32 →
            isMapped (virt + (add + 4096) + i * 4096) d g1 = isMapped (virt + add + (i + 1) * 4096) d g := by
          intro i hi
          rw [isMapped_eq_translate, isMapped_eq_translate,
            show virt + (add + 4096) + i * 4096 = virt + add + (i + 1) * 4096 by ring, htrans _ hi, if_neg (by omega)]
        have hcount : virt + add + (n + 1) * 4096 ≤ kernelVirtualBase →
            (missingTables g1 d ((virt + add) / 4096 + 1) n ≤ freeSlots g1 ↔
              missingTables g d ((virt + add) / 4096) (n + 1) ≤ freeSlots g) := by
          intro hbelow
          have hwords : ∀ i ≤ n, g1.word (d + 4 * (((virt + add) / 4096 + i) / 1024)) = 0 ↔
              g.word (d + 4 * (((virt + add) / 4096 + i) / 1024)) = 0 ∧
                ((virt + add) / 4096 + i) / 1024 ≠ (virt + add) / 4096 / 1024 := by
            intro i hi
            have hentry := hmaps.entry
            have hothers := hmaps.entries (d + 4 * (((virt + add) / 4096 + i) / 1024))
              (userEntry_of_page List.mem_cons_self (by
                unfold userPages
                unfold kernelVirtualBase at hbelow
                omega))
            rw [pdIndex_eq] at hentry hothers
            by_cases hj : ((virt + add) / 4096 + i) / 1024 = (virt + add) / 4096 / 1024
            · rw [hj]
              simp [hentry]
            · rw [hothers (by omega)]
              simp [hj]
          have hsucc := missingTables_succ hwords
          have hslots := hmaps.slots
          rw [pdIndex_eq] at hslots
          rw [hsucc, hslots]
          omega
        refine ⟨?_, ?_⟩
        · rw [ihiff]
          constructor
          · rintro ⟨hm, hslots⟩
            have hbelow := h1.below (by omega) hnext hm
            have hbelow' : virt + add + (n + 1) * 4096 ≤ kernelVirtualBase := by omega
            refine ⟨?_, (hcount hbelow').mp hslots⟩
            intro i hi
            cases i with
            | zero => rwa [Nat.zero_mul, Nat.add_zero]
            | succ i =>
              rw [← hsame i (by omega)]
              exact hm i (by omega)
          · rintro ⟨hm, hslots⟩
            have hbelow := h.below (by omega) hle hm
            refine ⟨?_, (hcount hbelow).mpr hslots⟩
            intro i hi
            rw [hsame i (by omega)]
            exact hm (i + 1) (by omega)
        · intro g' hg
          obtain ⟨h', hf', htrans'⟩ := ihmap g' hg
          refine ⟨h', hmaps.frame.trans hf', ?_⟩
          intro w hw
          rw [htrans' w hw, htrans w hw]
          by_cases hwp : w / 4096 = (virt + add) / 4096
          · rw [if_neg (by omega), if_pos hwp, if_pos (by omega), hwp,
              show (virt + add) / 4096 * 4096 - virt = add by omega]
          · rw [if_neg hwp]
            refine if_congr ?_ rfl rfl
            omega
    · have heq : virt + add = kernelVirtualBase := by omega
      have hno := @mapPage_of_isMapped g (u32 (phys + add)) kernelVirtualBase d h.image
      rw [heq]
      cases hr : VkKernel.mapPage (u32 (phys + add)) kernelVirtualBase d g with
      | ok g1 => exact absurd ⟨g1, hr⟩ hno
      | error e =>
        refine ⟨⟨?_, ?_⟩, ?_⟩
        · rintro ⟨g', hg⟩
          cases hg
        · rintro ⟨hm, -⟩
          have himage := hm 0 (Nat.succ_pos n)
          rw [Nat.zero_mul, Nat.add_zero, h.image] at himage
          cases himage
        · intro g' hg
          cases hg

/-! ## New directories -/

/-- One directory out of many, whose kernel half is kept. -/
theorem Spaces.userDirectory {ds : List ℕ} (h : Spaces large keep ds g) (hd : d ∈ ds)
    (hk : ∀ a, kernelWord g d a → keep a) (himage : isMapped kernelVirtualBase d g = true) :
    UserDirectory keep d g := by
  have hsub : ∀ a, userEntry [d] a → userEntry ds a := by
    rintro a ⟨c, hc, j, hj, rfl⟩
    rw [List.mem_singleton.mp hc]
    exact ⟨d, hd, j, hj, rfl⟩
  refine ⟨h.dirs d hd, ⟨?_, ?_, ?_, ?_⟩, hk, himage⟩
  · intro a ha
    exact h.tables.apart a (ha.imp_left (hsub a))
  · intro a ha hne
    obtain ⟨hlarge, hpse, hsize⟩ | ⟨i, hi, hu, ht, hoff⟩ := h.tables.table a (hsub a ha) hne
    · exact .inl ⟨trivial, hpse, hsize⟩
    · exact .inr ⟨i, hi, hu, ht, fun b hb => hoff b (hb.imp_left (hsub b))⟩
  · intro a b i ha hb
    exact h.tables.unshared a b i (hsub a ha) (hsub b hb)
  · intro a ha
    exact h.tables.disjoint a (hsub a ha)

/-- The entries that `get_kernel_pd_clone` writes. -/
theorem getKernelPdClone_word {ds : List ℕ} (h : Spaces large keep ds g)
    (hk : ∀ j, 768 ≤ j → j < 1024 → keep (g.kernelPageDirectory + 4 * j))
    (hr : getKernelPdClone g = .ok (d, g')) {j : ℕ} (hj : j < 1024) :
    g'.word (d + 4 * j) = if j < 768 then 0 else g.word (g.kernelPageDirectory + 4 * j) := by
  obtain ⟨⟨tr, g1⟩, hpt, hr⟩ := bind_eq_ok.mp hr
  obtain ⟨i, rfl, hs, h1, hl1, hf1⟩ := h.tables.ptAlloc hpt
  have hbase : kernelVirtualBase / 2 ^ 22 = 768 := by decide
  rw [hbase] at hr
  have hpair := Except.ok.inj hr
  rw [Prod.mk.injEq] at hpair
  obtain ⟨rfl, rfl⟩ := hpair
  split_ifs with hlow
  · rw [(copyKernelHalf_frame _ _ _).1 _ fun l hl _ => by omega]
    exact hs.zero j hj
  · rw [copyKernelHalf_copy _ (not_lt.mp hlow) (by omega)]
    · rw [hf1.kernel]
      exact hf1.words _ (hk j (not_lt.mp hlow) hj)
    · -- the copy does not write to its source
      intro l hl hl' m hm hm'
      rw [hf1.kernel]
      exact (hs.off _ (.inr (hk l hl hl'))).ne hm'

/-- `get_kernel_pd_clone` returns a directory of a process, once the words that the
translations of the kernel are read from are kept. -/
theorem UserDirectory.clone {ds : List ℕ} (h : Spaces large keep ds g)
    (hk : ∀ a, kernelWord g g.kernelPageDirectory a → keep a)
    (himage : isMapped kernelVirtualBase g.kernelPageDirectory g = true)
    (hr : getKernelPdClone g = .ok (d, g')) :
    UserDirectory (fun a => keep a ∨ ∃ j, 768 ≤ j ∧ j < 1024 ∧ a = d + 4 * j) d g' ∧
      freeSlots g = freeSlots g' + 1 ∧ ∀ virt < kernelVirtualBase, g'.translate virt d = none := by
  have hentry : ∀ virt, kernelVirtualBase ≤ virt → virt < 2 ^ 32 → 768 ≤ pdIndex virt ∧ pdIndex virt < 1024 := by
    intro virt hv hv'
    refine ⟨kernelVirtualBase_le_of_pdIndex hv, ?_⟩
    unfold pdIndex
    omega
  have hdir : ∀ j, 768 ≤ j → j < 1024 → keep (g.kernelPageDirectory + 4 * j) := by
    intro j hj hj'
    apply hk
    refine ⟨j * 2 ^ 22, by unfold kernelVirtualBase; omega, by omega, .inl ?_⟩
    unfold pdIndex
    rw [Nat.mul_div_cancel _ (by norm_num)]
  obtain ⟨-, hs, hf, -, -⟩ := h.clone hr _ fun b hb => hb
  have hword : ∀ virt, kernelVirtualBase ≤ virt → virt < 2 ^ 32 →
      g'.word (d + 4 * pdIndex virt) = g.word (g.kernelPageDirectory + 4 * pdIndex virt) := by
    intro virt hv hv'
    have hcopy := getKernelPdClone_word h hdir hr (hentry virt hv hv').2
    rwa [if_neg (not_lt.mpr (hentry virt hv hv').1)] at hcopy
  refine ⟨hs.userDirectory List.mem_cons_self ?_ ?_, ?_, ?_⟩
  · intro a ha
    obtain ⟨virt, hv, hv', ha⟩ := ha
    rcases ha with ha | ha
    · exact .inr ⟨pdIndex virt, (hentry virt hv hv').1, (hentry virt hv hv').2, ha⟩
    · rw [ha, hword virt hv hv']
      exact .inl (hk _ ⟨virt, hv, hv', .inr rfl⟩)
  · rw [isMapped_eq_translate] at himage ⊢
    have hbase := hword kernelVirtualBase le_rfl (by decide)
    have hleafWord : kernelWord g g.kernelPageDirectory (pageAddr (frameOf
        (g.word (g.kernelPageDirectory + 4 * pdIndex kernelVirtualBase))) kernelVirtualBase) :=
      ⟨kernelVirtualBase, le_rfl, by decide, .inr rfl⟩
    have hleaf := hf.words _ (hk _ hleafWord)
    unfold Paging.translate at himage ⊢
    dsimp only at himage ⊢
    rw [hbase, hleaf]
    exact himage
  · obtain ⟨⟨tr, g1⟩, hpt, hr⟩ := bind_eq_ok.mp hr
    obtain ⟨j, hj, hjfree, -, hg1⟩ := ptAlloc_eq_ok hpt
    have hpair := Except.ok.inj hr
    rw [Prod.mk.injEq] at hpair
    obtain ⟨rfl, rfl⟩ := hpair
    apply freeSlots_update hj hjfree
    rw [(copyKernelHalf_frame _ _ _).2.1, hg1]
  · intro virt hv
    have hlow : pdIndex virt < 768 := by
      unfold pdIndex
      unfold kernelVirtualBase at hv
      omega
    have hcopy := getKernelPdClone_word h hdir hr (hlow.trans (by norm_num))
    rw [if_pos hlow] at hcopy
    unfold Paging.translate
    dsimp only
    rw [if_pos hcopy]

end VkKernel
