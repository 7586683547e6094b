import VkKernel.KernelHalf
import VkKernel.PageFault

/-!
# Mapping a free range

`map_memory` maps a range with 4 MiB pages while more than 4 MiB are left, if it starts at a
multiple of 4 MiB, and with 4 KiB pages behind. When it returns, and what `get_physical` says
about the range, in every directory that calls for ranges have led to.
-/

namespace VkKernel
open Outcome

variable {own keep : ℕ → Prop} {g g' : Paging} {d : ℕ}

/-! ## 4 KiB pages -/

theorem ptIndex_lt (virt : ℕ) : ptIndex virt < 1024 := Nat.mod_lt _ (by norm_num)

/-- A page is mapped by a 4 MiB page or by the entry of a table. -/
theorem not_isMapped_iff {virt : ℕ} : isMapped virt d g = false ↔
    (g.word (d + 4 * pdIndex virt) ≠ 0 → pageSizeBit (g.word (d + 4 * pdIndex virt)) ≠ 1) ∧
      g.leafAt (d + 4 * pdIndex virt) (ptIndex virt) = 0 := by
  refine ⟨leafAt_of_not_isMapped, fun ⟨hbit, hleaf⟩ => ?_⟩
  unfold Paging.leafAt at hleaf
  unfold isMapped pageAddr
  unfold pageSizeBit at hbit hleaf
  dsimp only
  split_ifs with hz hlarge
  · rfl
  · exact absurd hlarge (hbit hz)
  · rw [if_neg (by rw [not_or]; exact ⟨hz, hlarge⟩)] at hleaf
    simp [hleaf]

/-- The entries of the directory that have no table yet. -/
def emptyEntries (g : Paging) (d : ℕ) (js : Finset ℕ) : ℕ :=
  (js.filter fun j => g.word (d + 4 * j) = 0).card

/-- What a loop over `n` 4 KiB pages has done to the tables. New entries of the directory are
tables, each in a slot of its own. -/
structure MapsPages (own keep : ℕ → Prop) (d : ℕ) (page frame : ℕ → ℕ) (js : Finset ℕ) (g : Paging)
    (n : ℕ) (g' : Paging) : Prop where
  tables : Tables True own keep g'
  frames : PagingFrame keep g g'
  kept : ∀ a, own a → g.word a ≠ 0 → g'.word a = g.word a
  fresh : ∀ a, own a → g.word a = 0 → pageSizeBit (g'.word a) = 0
  slots : freeSlots g' + emptyEntries g d js = freeSlots g + emptyEntries g' d js
  mapped : ∀ i < n, g'.leafAt (d + 4 * pdIndex (page i)) (ptIndex (page i)) =
    frame i + g.pageFlags d
  others : ∀ a, own a → ∀ q < 1024,
    (∀ i < n, ¬(a = d + 4 * pdIndex (page i) ∧ q = ptIndex (page i))) → g'.leafAt a q = g.leafAt a q

/-- The entry that a page fills no longer counts. -/
theorem MapsPage.emptyEntries_eq {phys virt : ℕ} (h : MapsPage own keep phys virt d g g')
    {js : Finset ℕ} (hown : ∀ j ∈ js, own (d + 4 * j)) (hmem : pdIndex virt ∈ js) :
    freeSlots g' + emptyEntries g d js = freeSlots g + emptyEntries g' d js := by
  have hslots := h.slots
  have hrest : ∀ j ∈ js, j ≠ pdIndex virt → g'.word (d + 4 * j) = g.word (d + 4 * j) :=
    fun j hj hne => h.entries _ (hown j hj) (by omega)
  by_cases hz : g.word (d + 4 * pdIndex virt) = 0
  · have hsplit : js.filter (fun j => g.word (d + 4 * j) = 0) =
        insert (pdIndex virt) (js.filter fun j => g'.word (d + 4 * j) = 0) := by
      ext j
      simp only [Finset.mem_filter, Finset.mem_insert]
      by_cases hj : j = pdIndex virt
      · simp [hj, hmem, hz]
      · constructor
        · intro ⟨hjs, hzero⟩
          exact .inr ⟨hjs, (hrest j hjs hj).trans hzero⟩
        · intro hor
          obtain ⟨hjs, hzero⟩ := hor.resolve_left hj
          exact ⟨hjs, (hrest j hjs hj).symm.trans hzero⟩
    have hnot : pdIndex virt ∉ js.filter fun j => g'.word (d + 4 * j) = 0 := by
      simp [h.entry]
    unfold emptyEntries
    rw [hsplit, Finset.card_insert_of_notMem hnot, hslots, if_pos hz]
    omega
  · have hsame : js.filter (fun j => g.word (d + 4 * j) = 0) =
        js.filter fun j => g'.word (d + 4 * j) = 0 := by
      apply Finset.filter_congr
      intro j hj
      by_cases hjp : j = pdIndex virt
      · rw [hjp, h.old hz]
      · rw [hrest j hj hjp]
    unfold emptyEntries
    rw [hsame, hslots, if_neg hz, Nat.add_zero]

/-- The loop of `map_memory` over 4 KiB pages that are not mapped, with enough slots. -/
theorem Tables.mapFreePages (h : Tables True own keep g) {phys virt add n : ℕ} {js : Finset ℕ}
    (hown : ∀ j ∈ js, own (d + 4 * j))
    (hmem : ∀ i < n, pdIndex (u32 (virt + (add + i * 4096))) ∈ js)
    (hphys : phys % 4096 = 0) (hvirt : virt % 4096 = 0) (hadd : add % 4096 = 0)
    (hn : n * 4096 ≤ 2 ^ 32)
    (hfree : ∀ i < n, isMapped (u32 (virt + (add + i * 4096))) d g = false)
    (hslots : emptyEntries g d js ≤ freeSlots g) :
    ∃ g', stepLoop 4096
        (fun add => VkKernel.mapPage (u32 (phys + add)) (u32 (virt + add)) d) n add g = .ok g' ∧
      MapsPages own keep d (fun i => u32 (virt + (add + i * 4096)))
        (fun i => u32 (phys + (add + i * 4096))) js g n g' := by
  have hloop : Holds
      (stepLoop 4096 (fun add => VkKernel.mapPage (u32 (phys + add)) (u32 (virt + add)) d) n add g)
      (MapsPages own keep d (fun i => u32 (virt + (add + i * 4096)))
        (fun i => u32 (phys + (add + i * 4096))) js g n)
      fun _ => False := by
    apply stepLoop_rule (MapsPages own keep d (fun i => u32 (virt + (add + i * 4096)))
      (fun i => u32 (phys + (add + i * 4096))) js g)
    · intro i hi g1 h1
      generalize hpage : u32 (virt + (add + i * 4096)) = v
      generalize hframe : u32 (phys + (add + i * 4096)) = f
      have hv : v % 4096 = 0 := by
        rw [← hpage]
        unfold u32
        omega
      have hf : f % 4096 = 0 := by
        rw [← hframe]
        unfold u32
        omega
      have hjs : pdIndex v ∈ js := hpage ▸ hmem i hi
      have hvown := hown _ hjs
      have hq := ptIndex_lt v
      -- the earlier pages are other pages
      have hother : ∀ m < i, ¬(d + 4 * pdIndex v = d + 4 * pdIndex (u32 (virt + (add + m * 4096))) ∧
          ptIndex v = ptIndex (u32 (virt + (add + m * 4096)))) := by
        intro m hm hc
        rw [← hpage] at hc
        unfold pdIndex ptIndex u32 at hc
        omega
      have hunmapped : isMapped v d g1 = false := by
        obtain ⟨hbit, hleaf⟩ := not_isMapped_iff.mp (hpage ▸ hfree i hi)
        rw [not_isMapped_iff, h1.others _ hvown _ hq hother]
        refine ⟨fun hne => ?_, hleaf⟩
        by_cases hz : g.word (d + 4 * pdIndex v) = 0
        · rw [h1.fresh _ hvown hz]
          decide
        · rw [h1.kept _ hvown hz]
          exact hbit hz
      have hroom : g1.word (d + 4 * pdIndex v) = 0 → 0 < freeSlots g1 := by
        intro hz
        have hpos : 0 < emptyEntries g1 d js :=
          Finset.card_pos.mpr ⟨_, Finset.mem_filter.mpr ⟨hjs, hz⟩⟩
        have := h1.slots
        omega
      obtain ⟨g2, hg2⟩ := (h1.tables.mapPage_iff hvown hf hv).mpr ⟨hunmapped, hroom⟩
      obtain ⟨h2, hmaps⟩ := h1.tables.mapPage_maps hvown hg2
      have hcount := hmaps.emptyEntries_eq hown hjs
      rw [hg2]
      refine ⟨h2, h1.frames.trans hmaps.frame, ?_, ?_, ?_, ?_, ?_⟩
      · intro a ha hne
        have hkept := h1.kept a ha hne
        by_cases hav : a = d + 4 * pdIndex v
        · rw [hav, hmaps.old (by rw [← hav, hkept]; exact hne), ← hav, hkept]
        · rw [hmaps.entries a ha hav, hkept]
      · intro a ha hz
        by_cases hav : a = d + 4 * pdIndex v
        · rw [hav]
          exact hmaps.table
        · rw [hmaps.entries a ha hav]
          exact h1.fresh a ha hz
      · have := h1.slots
        omega
      · intro m hm
        by_cases hmi : m = i
        · rw [hmi, hpage, hmaps.leaves _ hvown _ hq, if_pos ⟨rfl, rfl⟩, h1.frames.pageFlags, hframe]
        · have hm' : m < i := by omega
          have hne := hother m hm'
          rw [hmaps.leaves _ (hown _ (hmem m (by omega))) _ (ptIndex_lt _),
            if_neg fun hc => hne ⟨hc.1.symm, hc.2.symm⟩]
          exact h1.mapped m hm'
      · intro a ha q hq' hout
        have hi' := hout i (Nat.lt_succ_self i)
        rw [hpage] at hi'
        rw [hmaps.leaves a ha q hq', if_neg hi', h1.others a ha q hq' fun m hm => hout m (by omega)]
    · refine ⟨h, .refl _ _, fun _ _ _ => rfl, fun a _ hz => ?_, rfl, fun i hi => ?_,
        fun _ _ _ _ _ => rfl⟩
      · rw [hz]
        rfl
      · omega
  obtain ⟨g', hr, hmaps⟩ := hloop.exists_ok
  exact ⟨g', hr, hmaps⟩

/-! ## Words between the entries -/

/-- `pt_alloc` clears a word. -/
def ClearedByPtAlloc (g : Paging) (e : ℕ) : Prop :=
  ∃ p g', ptAlloc g = .ok (p, g') ∧ p ≤ e ∧ e < p + 4096

theorem ClearedByPtAlloc.congr {e : ℕ} (h : g'.kpheapBlocks = g.kpheapBlocks) :
    ClearedByPtAlloc g' e ↔ ClearedByPtAlloc g e := by
  have hone : ∀ {g g' : Paging}, g'.kpheapBlocks = g.kpheapBlocks → ∀ n p g1,
      ptAllocFrom g n = .ok (p, g1) → ∃ g1', ptAllocFrom g' n = .ok (p, g1') := by
    intro g g' h n
    induction n with
    | zero =>
      intro p g1 hr
      cases hr
    | succ n ih =>
      intro p g1 hr
      rw [ptAllocFrom] at hr ⊢
      dsimp only at hr ⊢
      rw [h]
      split_ifs at hr ⊢
      · have hpair := Prod.mk.inj (Except.ok.inj hr)
        rw [hpair.1]
        exact ⟨_, rfl⟩
      · exact ih p g1 hr
  constructor
  · rintro ⟨p, g1, hr, hin⟩
    obtain ⟨g2, hr2⟩ := hone h.symm 1024 p g1 hr
    exact ⟨p, g2, hr2, hin⟩
  · rintro ⟨p, g1, hr, hin⟩
    obtain ⟨g2, hr2⟩ := hone h 1024 p g1 hr
    exact ⟨p, g2, hr2, hin⟩

/-- A word that is not an entry: only a new table can clear it. -/
theorem Tables.mapPage_word (h : Tables True own keep g) {phys virt e : ℕ}
    (ha : own (d + 4 * pdIndex virt)) (hd : d % 4 = 0) (he : e % 4 ≠ 0)
    (hr : VkKernel.mapPage phys virt d g = .ok g') :
    (g.word (d + 4 * pdIndex virt) = 0 ∧ ClearedByPtAlloc g e → g'.word e = 0) ∧
      (¬(g.word (d + 4 * pdIndex virt) = 0 ∧ ClearedByPtAlloc g e) → g'.word e = g.word e) := by
  have hentry : e ≠ d + 4 * pdIndex virt := by omega
  rw [VkKernel.mapPage] at hr
  split_ifs at hr
  · cases hr
  · cases hr
  obtain ⟨⟨t, g1⟩, ht, hr⟩ := bind_eq_ok.mp hr
  obtain ⟨-, -, -, i, hi, rfl, -⟩ := h.pageTableFor ha ht
  have hleaf : ∀ q, e ≠ slotAddr i + 4 * q := by
    intro q
    unfold slotAddr kpheapVirtBase kpheapBlockSize
    omega
  have hword : g'.word e = g1.word e := by
    dsimp only at hr
    rw [pageAddr, entryAddr_eq hi (ptIndex_lt _)] at hr
    split_ifs at hr
    · cases hr
    · injection hr with hr
      rw [← hr, setWord_apply, if_neg (hleaf _)]
  rw [hword]
  rw [VkKernel.pageTableFor] at ht
  dsimp only at ht
  split_ifs at ht with hz
  · obtain ⟨⟨pt, g2⟩, hpt, ht⟩ := bind_eq_ok.mp ht
    obtain ⟨j, rfl, hs, -, -, -⟩ := h.ptAlloc hpt
    obtain ⟨j', -, -, hj, hg2⟩ := ptAlloc_eq_ok hpt
    have hpair := Prod.mk.inj (Except.ok.inj ht)
    have hg1 : g1.word e = g2.word e := by
      rw [← hpair.2, sub32_slotAddr hs.lt, u32_slotPhys hs.lt, hs.clearPage_eq, setWord_apply,
        if_neg hentry]
    have hg2w : g2.word e = if slotAddr j ≤ e ∧ e < slotAddr j + 4096 then 0 else g.word e := by
      rw [hg2, ← hj]
      rfl
    rw [hg1, hg2w]
    constructor
    · rintro ⟨_, p, g3, hp, hin⟩
      rw [hpt] at hp
      have hp' := (Prod.mk.inj (Except.ok.inj hp)).1
      rw [if_pos (hp' ▸ hin)]
    · intro hno
      rw [if_neg]
      intro hin
      exact hno ⟨hz, _, _, hpt, hin⟩
  · cases ht
  · have hpair := Prod.mk.inj (Except.ok.inj ht)
    rw [← hpair.2]
    exact ⟨fun hc => absurd hc.1 hz, fun _ => rfl⟩

/-- The pages behind the last 4 MiB page are in one table. -/
theorem Tables.mapPages_word (h : Tables True own keep g) {phys virt add n j e : ℕ}
    (ha : own (d + 4 * j))
    (hsame : ∀ i < n, pdIndex (u32 (virt + (add + i * 4096))) = j) (hn : 0 < n) (hd : d % 4 = 0)
    (he : e % 4 ≠ 0)
    (hr : stepLoop 4096
      (fun add => VkKernel.mapPage (u32 (phys + add)) (u32 (virt + add)) d) n add g = .ok g') :
    (g.word (d + 4 * j) = 0 ∧ ClearedByPtAlloc g e → g'.word e = 0) ∧
      (¬(g.word (d + 4 * j) = 0 ∧ ClearedByPtAlloc g e) → g'.word e = g.word e) := by
  induction n generalizing add g with
  | zero => omega
  | succ n ih =>
    obtain ⟨g1, hg1, hr⟩ := bind_eq_ok.mp hr
    have hj : pdIndex (u32 (virt + add)) = j := hsame 0 (Nat.succ_pos n)
    have hown : own (d + 4 * pdIndex (u32 (virt + add))) := hj ▸ ha
    have hfirst := h.mapPage_word hown hd he hg1
    obtain ⟨h1, hmaps⟩ := h.mapPage_maps hown hg1
    have hentry := hmaps.entry
    rw [hj] at hfirst hentry
    have hrest : g'.word e = g1.word e := by
      by_cases hn0 : n = 0
      · subst hn0
        rw [← Except.ok.inj hr]
      · apply (ih h1 (fun i hi => ?_) (Nat.pos_of_ne_zero hn0) hr).2 fun hc => hentry hc.1
        rw [← hsame (i + 1) (by omega), show add + 4096 + i * 4096 = add + (i + 1) * 4096 by ring]
    rw [hrest]
    exact hfirst

/-! ## 4 MiB pages -/

/-- The flags of a 4 MiB page: as those of a page, with the page-size bit. -/
def Paging.largeFlags (g : Paging) (pd : ℕ) : ℕ := g.kernelOr pd 387 135

theorem largeFlags_eq (g : Paging) (pd : ℕ) : g.largeFlags pd = 387 ∨ g.largeFlags pd = 135 := by
  unfold Paging.largeFlags Paging.kernelOr
  split_ifs
  · exact .inl rfl
  · exact .inr rfl

theorem pageSizeBit_large {phys : ℕ} (hphys : phys % 0x400000 = 0) :
    pageSizeBit (phys ||| g.largeFlags d) = 1 := by
  have hflags := largeFlags_eq g d
  rw [or_flags (by omega) (by omega), pageSizeBit]
  omega

/-- What `map_page_table` has done: its entry was empty, and no page of a table has changed. -/
structure MapsTable (own keep : ℕ → Prop) (phys virt d : ℕ) (g g' : Paging) : Prop where
  tables : Tables True own keep g'
  frames : PagingFrame keep g g'
  phys_aligned : phys % 0x400000 = 0
  virt_aligned : virt % 0x400000 = 0
  empty : g.word (d + 4 * pdIndex virt) = 0
  entries : ∀ b, own b → b ≠ d + 4 * pdIndex virt → g'.word b = g.word b
  leaves : SameLeaves own g g'
  large : g.cpuPse = true → g' = g.setWord (d + 4 * pdIndex virt) (phys ||| g.largeFlags d)
  table : g.cpuPse = false → pageSizeBit (g'.word (d + 4 * pdIndex virt)) = 0

theorem Tables.mapPageTable_maps (h : Tables True own keep g) {phys virt : ℕ}
    (hhigh : ∀ b, own b ∨ keep b → kernelVirtualBase ≤ b) (ha : own (d + 4 * pdIndex virt))
    (hr : VkKernel.mapPageTable phys virt d g = .ok g') : MapsTable own keep phys virt d g g' := by
  obtain ⟨h', hf⟩ := h.mapPageTable hhigh ha hr
  rw [VkKernel.mapPageTable] at hr
  split_ifs at hr with hphys hvirt hz hpse
  · cases hr
  · cases hr
  · cases hr
  · injection hr with hr
    rw [not_ne_iff] at hphys hvirt hz
    have hbit : pageSizeBit (phys ||| g.largeFlags d) = 1 := pageSizeBit_large hphys
    refine ⟨h', hf, hphys, hvirt, hz, ?_, ?_, fun _ => hr.symm, fun hno => ?_⟩
    · intro b _ hb
      rw [← hr, setWord_apply, if_neg hb]
    · intro b hb q hq
      rw [← hr]
      by_cases hba : b = d + 4 * pdIndex virt
      · -- the entry was empty, and the new one is no table
        have hold : g.leafAt b q = 0 := if_pos (.inl (hba ▸ hz))
        rw [hold]
        apply if_pos
        right
        rw [setWord_apply, if_pos hba]
        exact hbit
      · have hself : (g.setWord (d + 4 * pdIndex virt) (phys ||| g.kernelOr d 387 135)).word b =
          g.word b := by
          rw [setWord_apply, if_neg hba]
        rw [Paging.leafAt, Paging.leafAt, hself]
        split_ifs with hc
        · rfl
        · -- the entry is in none of the tables
          rw [not_or] at hc
          obtain ⟨-, -, hsize⟩ | ⟨j, hj, -, ht, hoff⟩ := h.table b hb hc.1
          · exact absurd hsize hc.2
          · rw [ht.frameOf_eq, entryAddr_eq hj hq, setWord_apply, if_neg]
            exact fun heq => (hoff _ (.inl ha)).ne hq heq.symm
    · rw [hno] at hpse
      cases hpse
  · rw [not_ne_iff] at hphys hvirt hz
    obtain ⟨⟨pt, g1⟩, hpt, hr⟩ := bind_eq_ok.mp hr
    obtain ⟨i, rfl, hs, h1, hl1, hf1⟩ := h.ptAlloc hpt
    dsimp only at hr
    injection hr with hr
    rw [sub32_slotAddr hs.lt] at hr
    have hentry := isTable_or (i := i) g1 d
    obtain ⟨h2, hl2, hf2⟩ := h1.setEntry ha ((hs.entries _ ha).trans hz) hs hentry
    have hlow := slotPhys_lt hs.lt
    have hw := (fillTable_frame (slotPhys i) ((g1.setWord (d + 4 * pdIndex virt)
      (slotPhys i ||| g1.pageFlags d)).kernelOr d 3 7) 1024 0 phys
      (g := g1.setWord (d + 4 * pdIndex virt) (slotPhys i ||| g1.pageFlags d))).1
    rw [hr] at hw
    -- the table is filled far below the entries and the tables
    have hword : ∀ b, kernelVirtualBase ≤ b → g'.word b =
        (g1.setWord (d + 4 * pdIndex virt) (slotPhys i ||| g1.pageFlags d)).word b := by
      intro b hb
      apply hw
      unfold kernelVirtualBase at hb
      omega
    have hown : ∀ b, own b → g'.word b =
        (g1.setWord (d + 4 * pdIndex virt) (slotPhys i ||| g1.pageFlags d)).word b :=
      fun b hb => hword b (hhigh b (.inl hb))
    refine ⟨h', hf, hphys, hvirt, hz, ?_, ?_, fun hyes => absurd hyes hpse, fun _ => ?_⟩
    · intro b hb hne
      rw [hown b hb, setWord_apply, if_neg hne]
      exact hs.entries b hb
    · intro b hb q hq
      rw [← hl1 b hb q hq, ← hl2 b hb q hq, Paging.leafAt, Paging.leafAt, hown b hb]
      split_ifs with hc
      · rfl
      · rw [not_or] at hc
        obtain ⟨-, -, hsize⟩ | ⟨j, hj, -, ht, -⟩ := h2.table b hb hc.1
        · exact absurd hsize hc.2
        · rw [ht.frameOf_eq, entryAddr_eq hj hq]
          apply hword
          rw [slotAddr_eq]
          omega
    · rw [hown _ ha, setWord_apply, if_pos rfl]
      exact hentry.pageSizeBit_eq

/-- A 4 MiB page at an empty entry. -/
theorem mapPageTable_ok {phys virt : ℕ} (hpse : g.cpuPse = true) (hphys : phys % 0x400000 = 0)
    (hvirt : virt % 0x400000 = 0) (hz : g.word (d + 4 * pdIndex virt) = 0) :
    ∃ g', VkKernel.mapPageTable phys virt d g = .ok g' := by
  rw [VkKernel.mapPageTable, if_neg (not_not_intro hphys), if_neg (not_not_intro hvirt),
    if_neg (not_not_intro hz), if_pos hpse]
  exact ⟨_, rfl⟩

/-- What a loop over `n` 4 MiB pages has done, on a processor that has them. -/
structure MapsTables (own keep : ℕ → Prop) (d : ℕ) (page frame : ℕ → ℕ) (g : Paging) (n : ℕ)
    (g' : Paging) :
    Prop where
  tables : Tables True own keep g'
  frames : PagingFrame keep g g'
  leaves : SameLeaves own g g'
  blocks : g'.kpheapBlocks = g.kpheapBlocks
  aligned : ∀ i < n, frame i % 0x400000 = 0
  empty : ∀ i < n, g.word (d + 4 * pdIndex (page i)) = 0
  entries : ∀ i < n, g'.word (d + 4 * pdIndex (page i)) = frame i ||| g.largeFlags d
  others : ∀ b, (∀ i < n, b ≠ d + 4 * pdIndex (page i)) → g'.word b = g.word b

theorem MapsTables.zero (h : Tables True own keep g) (page frame : ℕ → ℕ) :
    MapsTables own keep d page frame g 0 g := by
  refine ⟨h, .refl _ _, fun _ _ _ _ => rfl, rfl, ?_, ?_, ?_, fun _ _ => rfl⟩
  · intro i hi
    omega
  · intro i hi
    omega
  · intro i hi
    omega

/-- One more 4 MiB page, at another entry. -/
theorem MapsTables.succ {page frame : ℕ → ℕ} {n : ℕ} {g1 g2 : Paging}
    (h : MapsTables own keep d page frame g n g1)
    (hhigh : ∀ b, own b ∨ keep b → kernelVirtualBase ≤ b)
    (hpse : g.cpuPse = true) (hown : own (d + 4 * pdIndex (page n)))
    (hne : ∀ i < n, pdIndex (page n) ≠ pdIndex (page i))
    (hr : VkKernel.mapPageTable (frame n) (page n) d g1 = .ok g2) :
    MapsTables own keep d page frame g (n + 1) g2 := by
  have hmaps := h.tables.mapPageTable_maps hhigh hown hr
  have hset := hmaps.large (h.frames.pse.trans hpse)
  have hold : g1.word (d + 4 * pdIndex (page n)) = g.word (d + 4 * pdIndex (page n)) :=
    h.others _ fun i hi hc => hne i hi (by omega)
  have hflags : g1.largeFlags d = g.largeFlags d := by
    unfold Paging.largeFlags Paging.kernelOr
    rw [h.frames.kernel]
  refine ⟨hmaps.tables, h.frames.trans hmaps.frames, fun b hb q hq => ?_, ?_, fun i hi => ?_,
    fun i hi => ?_,
    fun i hi => ?_, fun b hb => ?_⟩
  · rw [hmaps.leaves b hb q hq, h.leaves b hb q hq]
  · rw [hset, ← h.blocks]
    rfl
  · rcases Nat.lt_succ_iff_lt_or_eq.mp hi with hi | rfl
    · exact h.aligned i hi
    · exact hmaps.phys_aligned
  · rcases Nat.lt_succ_iff_lt_or_eq.mp hi with hi | rfl
    · exact h.empty i hi
    · exact hold.symm.trans hmaps.empty
  · rcases Nat.lt_succ_iff_lt_or_eq.mp hi with hi | rfl
    · have := hne i hi
      rw [hset, setWord_apply, if_neg (by omega), h.entries i hi]
    · rw [hset, setWord_apply, if_pos rfl, hflags]
  · rw [hset, setWord_apply, if_neg (hb n (Nat.lt_succ_self n)),
      h.others b fun i hi => hb i (by omega)]

/-- The loop of `map_memory` over 4 MiB pages, on a processor that has them. -/
theorem Tables.mapTables (h : Tables True own keep g) {phys virt n : ℕ}
    (hhigh : ∀ b, own b ∨ keep b → kernelVirtualBase ≤ b) (hpse : g.cpuPse = true)
    (hvirt : virt % 0x400000 = 0)
    (hn : n * 0x400000 ≤ 2 ^ 32)
    (hown : ∀ i < n, own (d + 4 * pdIndex (u32 (virt + i * 0x400000)))) :
    ((∃ g', stepLoop 0x400000
      (fun add => VkKernel.mapPageTable (u32 (phys + add)) (u32 (virt + add)) d) n 0 g = .ok g') ↔
      n = 0 ∨ (phys % 0x400000 = 0 ∧
        ∀ i < n, g.word (d + 4 * pdIndex (u32 (virt + i * 0x400000))) = 0)) ∧
    ∀ g', stepLoop 0x400000
      (fun add => VkKernel.mapPageTable (u32 (phys + add)) (u32 (virt + add)) d) n 0 g = .ok g' →
      MapsTables own keep d (fun i => u32 (virt + i * 0x400000))
        (fun i => u32 (phys + i * 0x400000)) g n g' := by
  have hne : ∀ i < n, ∀ m < i, pdIndex (u32 (virt + i * 0x400000)) ≠
      pdIndex (u32 (virt + m * 0x400000)) := by
    intro i hi m hm
    unfold pdIndex u32
    omega
  have hmaps : ∀ g', stepLoop 0x400000
      (fun add => VkKernel.mapPageTable (u32 (phys + add)) (u32 (virt + add)) d) n 0 g = .ok g' →
      MapsTables own keep d (fun i => u32 (virt + i * 0x400000))
        (fun i => u32 (phys + i * 0x400000)) g n g' := by
    intro g' hr
    apply (stepLoop_rule (E := fun _ => True)
      (MapsTables own keep d (fun i => u32 (virt + i * 0x400000))
      (fun i => u32 (phys + i * 0x400000)) g) (fun i hi g1 h1 => ?_) (.zero h _ _)).of_ok hr
    rw [Nat.zero_add]
    cases hr2 :
      VkKernel.mapPageTable (u32 (phys + i * 0x400000)) (u32 (virt + i * 0x400000)) d g1 with
    | error e => trivial
    | ok g2 => exact h1.succ hhigh hpse (hown i hi) (hne i hi) hr2
  refine ⟨⟨fun ⟨g', hr⟩ => ?_, fun hor => ?_⟩, hmaps⟩
  · have hm := hmaps g' hr
    by_cases hn0 : n = 0
    · exact .inl hn0
    · right
      have hfirst := hm.aligned 0 (Nat.pos_of_ne_zero hn0)
      refine ⟨?_, hm.empty⟩
      unfold u32 at hfirst
      omega
  · rcases hor with rfl | ⟨hphys, hempty⟩
    · exact ⟨g, rfl⟩
    · refine (stepLoop_rule (E := fun _ => False)
        (MapsTables own keep d (fun i => u32 (virt + i * 0x400000))
        (fun i => u32 (phys + i * 0x400000)) g) (fun i hi g1 h1 => ?_) (.zero h _ _)).exists_ok.imp
          fun g' hg => hg.1
      rw [Nat.zero_add]
      have hz : g1.word (d + 4 * pdIndex (u32 (virt + i * 0x400000))) = 0 := by
        rw [h1.others _ fun m hm hc => hne i hi m hm (by omega)]
        exact hempty i hi
      obtain ⟨g2, hr2⟩ :=
        @mapPageTable_ok g1 d (u32 (phys + i * 0x400000)) (u32 (virt + i * 0x400000))
        (h1.frames.pse.trans hpse) (by unfold u32; omega) (by unfold u32; omega) hz
      rw [hr2]
      exact h1.succ hhigh hpse (hown i hi) (hne i hi) hr2

/-! ## What `get_physical` reads -/

/-- An address of a page that a loop has mapped. -/
theorem MapsPages.getPhysical_eq {phys virt add n : ℕ} {js : Finset ℕ}
    (h : MapsPages own keep d (fun i => u32 (virt + (add + i * 4096)))
      (fun i => u32 (phys + (add + i * 4096))) js g n g')
    (hphys : phys % 4096 = 0) (hvirt : virt % 4096 = 0) (hadd : add % 4096 = 0) {j : ℕ}
    (hj : j < n * 4096) :
    getPhysical (u32 (virt + (add + j))) d g' = u32 (phys + (add + j)) := by
  have hleaf := h.mapped (j / 4096) (by omega)
  have hpd : pdIndex (u32 (virt + (add + j))) = pdIndex (u32 (virt + (add + j / 4096 * 4096))) := by
    unfold pdIndex u32
    omega
  have hpt : ptIndex (u32 (virt + (add + j))) = ptIndex (u32 (virt + (add + j / 4096 * 4096))) := by
    unfold ptIndex u32
    omega
  rw [← hpd, ← hpt] at hleaf
  have hflags := pageFlags_pos g d
  have haligned : u32 (phys + (add + j / 4096 * 4096)) % 4096 = 0 := by
    unfold u32
    omega
  rw [getPhysical_of_leaf (by omega), hleaf, frameOf_add haligned (pageFlags_lt g d)]
  unfold u32
  omega

/-- An address behind a table without the page. -/
theorem getPhysical_of_blank {virt : ℕ} (hbit : pageSizeBit (g.word (d + 4 * pdIndex virt)) = 0)
    (hleaf : g.leafAt (d + 4 * pdIndex virt) (ptIndex virt) = 0) : getPhysical virt d g = 0 := by
  have hsmall : pageSizeBit (g.word (d + 4 * pdIndex virt)) ≠ 1 := by omega
  unfold Paging.leafAt at hleaf
  unfold getPhysical pageAddr
  dsimp only
  by_cases hz : g.word (d + 4 * pdIndex virt) = 0
  · exact if_pos hz
  · rw [if_neg (by rw [not_or]; exact ⟨hz, hsmall⟩)] at hleaf
    rw [if_neg hz, if_neg hsmall, if_neg (not_not_intro hleaf)]

/-- An address of a 4 MiB page: the word at the value of its entry. -/
theorem getPhysical_of_large {virt e : ℕ} (hbit : pageSizeBit e = 1)
    (hentry : g.word (d + 4 * pdIndex virt) = e) :
    getPhysical virt d g = u32 (frameOf (g.word e) + virt % 0x400000) := by
  have hne : e ≠ 0 := by
    rintro rfl
    cases hbit
  unfold getPhysical
  dsimp only
  rw [hentry, if_neg hne, if_pos hbit]

/-! ## Ranges -/

/-- The entries of the directory for a range of pages. -/
def rangeEntries (size virt : ℕ) : Finset ℕ :=
  (Finset.range (size / 4096)).image fun i => pdIndex (u32 (virt + i * 4096))

/-- When `map_memory` maps a free range to the block at `phys` as `get_physical` reads it. It has no
4 MiB page, and the block is aligned; or the processor has 4 MiB pages, the block is aligned for
them, their entries are empty, and the words at the values of the new entries happen to hold the
frames, also behind a new table for the last pages. -/
def MapsRange (g : Paging) (d phys size virt : ℕ) : Prop :=
  size = 0 ∨ (largePages size virt = 0 ∧ phys % 4096 = 0) ∨
  (0 < largePages size virt ∧ g.cpuPse = true ∧ phys % 0x400000 = 0 ∧ ∀ i < largePages size virt,
    g.word (d + 4 * pdIndex (u32 (virt + i * 0x400000))) = 0 ∧
    u32 (frameOf (g.word (u32 (phys + i * 0x400000) ||| g.largeFlags d))) =
      u32 (phys + i * 0x400000) ∧
    ¬(g.word (d + 4 * pdIndex (u32 (virt + largePages size virt * 0x400000))) = 0 ∧
      ClearedByPtAlloc g (u32 (phys + i * 0x400000) ||| g.largeFlags d)))

theorem emptyEntries_mono {js js' : Finset ℕ} (hsub : js' ⊆ js)
    (hw : ∀ j ∈ js', g'.word (d + 4 * j) = 0 → g.word (d + 4 * j) = 0) :
    emptyEntries g' d js' ≤ emptyEntries g d js := by
  apply Finset.card_le_card
  intro j hj
  rw [Finset.mem_filter] at hj ⊢
  exact ⟨hsub hj.1, hw j hj.1 hj.2⟩

/-- The first entry of a loop over 4 KiB pages has to be aligned. -/
theorem Tables.mapPages_aligned (h : Tables True own keep g) {phys virt add n : ℕ} (hn : 0 < n)
    (hadd : add % 4096 = 0) (hown : own (d + 4 * pdIndex (u32 (virt + add))))
    (hr : stepLoop 4096
      (fun add => VkKernel.mapPage (u32 (phys + add)) (u32 (virt + add)) d) n add g = .ok g') :
    phys % 4096 = 0 := by
  obtain ⟨n, rfl⟩ := Nat.exists_eq_succ_of_ne_zero hn.ne'
  obtain ⟨g1, hg1, -⟩ := bind_eq_ok.mp hr
  have haligned := (h.mapPage hown hg1).1
  unfold u32 at haligned
  omega

/-- The 4 KiB pages of a range, once nothing in it is mapped. -/
theorem Tables.mapRest (h : Tables True own keep g) {phys virt add n : ℕ} (hphys : phys % 4096 = 0)
    (hvirt : virt % 4096 = 0) (hadd : add % 4096 = 0) (hn : n * 4096 ≤ 2 ^ 32)
    (hown : ∀ j < n * 4096, own (d + 4 * pdIndex (u32 (virt + (add + j)))))
    (hfree : ∀ j < n * 4096, isMapped (u32 (virt + (add + j))) d g = false)
    (hslots : emptyEntries g d
      ((Finset.range n).image fun i => pdIndex (u32 (virt + (add + i * 4096)))) ≤ freeSlots g) :
    ∃ g', stepLoop 4096
        (fun add => VkKernel.mapPage (u32 (phys + add)) (u32 (virt + add)) d) n add g = .ok g' ∧
      (∀ a, own a → g.word a ≠ 0 → g'.word a = g.word a) ∧
      ∀ j < n * 4096, getPhysical (u32 (virt + (add + j))) d g' = u32 (phys + (add + j)) := by
  have hentries : ∀ j ∈ (Finset.range n).image (fun i => pdIndex (u32 (virt + (add + i * 4096)))),
      own (d + 4 * j) := by
    intro j hj
    obtain ⟨i, hi, rfl⟩ := Finset.mem_image.mp hj
    have hlt := Finset.mem_range.mp hi
    exact hown _ (by omega)
  obtain ⟨g', hr, hmaps⟩ := @Tables.mapFreePages own keep g d h phys virt add n _ hentries
    (fun i hi => Finset.mem_image_of_mem _ (Finset.mem_range.mpr hi)) hphys hvirt hadd hn
    (fun i hi => hfree _ (by omega)) hslots
  exact ⟨g', hr, hmaps.kept, fun j hj => hmaps.getPhysical_eq hphys hvirt hadd hj⟩

/-- A range without 4 MiB pages. -/
theorem Tables.forRange_small (h : Tables True own keep g) {phys size virt : ℕ}
    (hvirt : virt % 4096 = 0)
    (hsize : size % 4096 = 0) (hlt : size < 2 ^ 32)
    (hown : ∀ j < size, own (d + 4 * pdIndex (u32 (virt + j))))
    (hfree : ∀ j < size, isMapped (u32 (virt + j)) d g = false)
    (hslots : emptyEntries g d (rangeEntries size virt) ≤ freeSlots g)
    (hn : largePages size virt = 0) :
    (∃ g', forRange (fun add => VkKernel.mapPageTable (u32 (phys + add)) (u32 (virt + add)) d)
        (fun add => VkKernel.mapPage (u32 (phys + add)) (u32 (virt + add)) d) size virt g = .ok g' ∧
      ∀ j < size, getPhysical (u32 (virt + j)) d g' = u32 (phys + j)) ↔
        MapsRange g d phys size virt := by
  have hpages : size / 4096 * 4096 = size := by omega
  rw [forRange, hn, stepLoop, ok_bind, Nat.zero_mul, Nat.sub_zero]
  unfold MapsRange
  rw [hn]
  constructor
  · rintro ⟨g', hr, _⟩
    by_cases hz : size = 0
    · exact .inl hz
    · exact .inr (.inl ⟨rfl, h.mapPages_aligned (by omega) rfl (hown 0 (by omega)) hr⟩)
  · intro hcase
    rcases hcase with hz | ⟨-, hphys⟩ | ⟨hlarge, -⟩
    · subst hz
      exact ⟨g, rfl, fun j hj => absurd hj (Nat.not_lt_zero j)⟩
    · obtain ⟨g', hr, -, hget⟩ :=
        @Tables.mapRest own keep g d h phys virt 0 (size / 4096) hphys hvirt rfl
        (by omega) (fun j hj => by rw [Nat.zero_add]; exact hown j (by omega))
        (fun j hj => by rw [Nat.zero_add]; exact hfree j (by omega))
        (by simpa only [Nat.zero_add, rangeEntries] using hslots)
      refine ⟨g', hr, fun j hj => ?_⟩
      have hj' := hget j (by omega)
      rwa [Nat.zero_add] at hj'
    · omega

/-- What the word at the value of an entry for a 4 MiB page is after the call. -/
def readBack (g : Paging) (tail e : ℕ) : ℕ → Prop := fun w =>
  (g.word tail = 0 ∧ ClearedByPtAlloc g e → w = 0) ∧
    (¬(g.word tail = 0 ∧ ClearedByPtAlloc g e) → w = g.word e)

/-! Offsets in a range of `n` 4 MiB pages and `m` 4 KiB pages. -/

theorem largeStart_lt {n i : ℕ} (m : ℕ) (hi : i < n) :
    i * 0x400000 < n * 0x400000 + m * 4096 := by
  omega

theorem smallStart_lt {m i : ℕ} (hi : i < m) : i * 4096 < m * 4096 := by omega

theorem smallStart_bounds {n m i : ℕ} (hi : i < m) :
    0x400000 ≤ (n + 1) * 0x400000 + i * 4096 ∧
      (n + 1) * 0x400000 + i * 4096 < (n + 1) * 0x400000 + m * 4096 := by omega

theorem range_div (n m : ℕ) : (n * 0x400000 + m * 4096) / 4096 = n * 1024 + m := by omega

/-- A range with `n` 4 MiB pages and `m` 4 KiB pages behind, on a processor that has both, at an
aligned block and with empty entries. -/
theorem Tables.mapLargeRange (h : Tables True own keep g) {phys virt n m : ℕ}
    (hhigh : ∀ b, own b ∨ keep b → kernelVirtualBase ≤ b) (hd : d % 4 = 0) (hpse : g.cpuPse = true)
    (hvirt : virt % 0x400000 = 0) (hpos : 0 < m) (hm : m ≤ 1024)
    (hlt : n * 0x400000 + m * 4096 < 2 ^ 32)
    (hown : ∀ j < n * 0x400000 + m * 4096, own (d + 4 * pdIndex (u32 (virt + j))))
    (hfree : ∀ j < n * 0x400000 + m * 4096, isMapped (u32 (virt + j)) d g = false)
    (hslots : emptyEntries g d (rangeEntries (n * 0x400000 + m * 4096) virt) ≤ freeSlots g)
    (hphys : phys % 0x400000 = 0)
    (hempty : ∀ i < n, g.word (d + 4 * pdIndex (u32 (virt + i * 0x400000))) = 0) :
    ∃ g1 g', stepLoop 0x400000
      (fun add => VkKernel.mapPageTable (u32 (phys + add)) (u32 (virt + add)) d) n 0 g = .ok g1 ∧
      stepLoop 4096 (fun add => VkKernel.mapPage (u32 (phys + add)) (u32 (virt + add)) d) m
        (n * 0x400000) g1 = .ok g' ∧
      (∀ j < m * 4096, getPhysical (u32 (virt + (n * 0x400000 + j))) d g' =
        u32 (phys + (n * 0x400000 + j))) ∧
      ∀ i < n, ∃ w, readBack g (d + 4 * pdIndex (u32 (virt + n * 0x400000)))
        (u32 (phys + i * 0x400000) ||| g.largeFlags d) w ∧
        ∀ r < 0x400000, getPhysical (u32 (virt + (i * 0x400000 + r))) d g' =
          u32 (frameOf w + r) := by
  obtain ⟨hiff, hmaps⟩ := @Tables.mapTables own keep g d h phys virt n hhigh hpse hvirt (by omega)
    fun i hi => hown (i * 0x400000) (largeStart_lt m hi)
  obtain ⟨g1, hg1⟩ := hiff.mpr (.inr ⟨hphys, hempty⟩)
  have hlarge := hmaps g1 hg1
  -- the last pages are behind another entry
  have htail : ∀ j < m * 4096, pdIndex (u32 (virt + (n * 0x400000 + j))) =
      pdIndex (u32 (virt + n * 0x400000)) ∧
      ∀ i < n, pdIndex (u32 (virt + (n * 0x400000 + j))) ≠ pdIndex (u32 (virt + i * 0x400000)) := by
    intro j hj
    unfold pdIndex u32
    refine ⟨by omega, fun i hi => ?_⟩
    omega
  have hentry : ∀ j < m * 4096, g1.word (d + 4 * pdIndex (u32 (virt + (n * 0x400000 + j)))) =
      g.word (d + 4 * pdIndex (u32 (virt + (n * 0x400000 + j)))) :=
    fun j hj => hlarge.others _ fun i hi hc => (htail j hj).2 i hi (by omega)
  have hown1 : ∀ j < m * 4096, own (d + 4 * pdIndex (u32 (virt + (n * 0x400000 + j)))) :=
    fun j hj => hown (n * 0x400000 + j) (by omega)
  have hfree1 : ∀ j < m * 4096, isMapped (u32 (virt + (n * 0x400000 + j))) d g1 = false := by
    intro j hj
    obtain ⟨hbit, hleaf⟩ := not_isMapped_iff.mp (hfree (n * 0x400000 + j) (by omega))
    rw [not_isMapped_iff, hentry j hj, hlarge.leaves _ (hown1 j hj) _ (ptIndex_lt _)]
    exact ⟨hbit, hleaf⟩
  have hslots1 : emptyEntries g1 d ((Finset.range m).image
      fun i => pdIndex (u32 (virt + (n * 0x400000 + i * 4096)))) ≤ freeSlots g1 := by
    rw [freeSlots_congr hlarge.blocks]
    refine (emptyEntries_mono (fun j hj => ?_) fun j hj hz => ?_).trans hslots
    · obtain ⟨i, hi, rfl⟩ := Finset.mem_image.mp hj
      have hi' := Finset.mem_range.mp hi
      refine Finset.mem_image.mpr ⟨n * 1024 + i, ?_, ?_⟩
      · rw [Finset.mem_range, range_div]
        exact Nat.add_lt_add_left hi' _
      · rw [show (n * 1024 + i) * 4096 = n * 0x400000 + i * 4096 by ring]
    · obtain ⟨i, hi, rfl⟩ := Finset.mem_image.mp hj
      have hi' := Finset.mem_range.mp hi
      rwa [hentry (i * 4096) (smallStart_lt hi')] at hz
  obtain ⟨g', hg', hkept, hget⟩ :=
    @Tables.mapRest own keep g1 d hlarge.tables phys virt (n * 0x400000) m
    (by omega) (by omega) (by omega) (by omega) hown1 hfree1 hslots1
  refine ⟨g1, g', hg1, hg', hget, fun i hi => ?_⟩
  have hflags := largeFlags_eq g d
  have haligned : u32 (phys + i * 0x400000) % 0x400000 = 0 := by
    unfold u32
    omega
  have hsum : u32 (phys + i * 0x400000) ||| g.largeFlags d =
      u32 (phys + i * 0x400000) + g.largeFlags d :=
    or_flags (by omega) (by omega)
  have hodd : (u32 (phys + i * 0x400000) ||| g.largeFlags d) % 4 ≠ 0 := by omega
  have hpages : ∀ l < m, pdIndex (u32 (virt + (n * 0x400000 + l * 4096))) =
      pdIndex (u32 (virt + n * 0x400000)) :=
    fun l hl => (htail (l * 4096) (smallStart_lt hl)).1
  have hbytes : 0 < m * 4096 := Nat.mul_pos hpos (by norm_num)
  have hownTail := hown1 0 hbytes
  have htailEntry := hentry 0 hbytes
  rw [Nat.add_zero] at hownTail htailEntry
  have hword := @Tables.mapPages_word own keep g1 g' d hlarge.tables phys virt (n * 0x400000) m
    (pdIndex (u32 (virt + n * 0x400000))) (u32 (phys + i * 0x400000) ||| g.largeFlags d)
    hownTail hpages hpos hd hodd hg'
  have hvalue : g1.word (u32 (phys + i * 0x400000) ||| g.largeFlags d) =
      g.word (u32 (phys + i * 0x400000) ||| g.largeFlags d) :=
    hlarge.others _ fun l _ hc => by omega
  rw [htailEntry, ClearedByPtAlloc.congr hlarge.blocks, hvalue] at hword
  refine ⟨g'.word (u32 (phys + i * 0x400000) ||| g.largeFlags d), hword, fun r hr => ?_⟩
  have hpd : pdIndex (u32 (virt + (i * 0x400000 + r))) = pdIndex (u32 (virt + i * 0x400000)) := by
    unfold pdIndex u32
    omega
  have hmod : u32 (virt + (i * 0x400000 + r)) % 0x400000 = r := by
    unfold u32
    omega
  have hne : g1.word (d + 4 * pdIndex (u32 (virt + i * 0x400000))) ≠ 0 := by
    rw [hlarge.entries i hi, hsum]
    omega
  have hset : g'.word (d + 4 * pdIndex (u32 (virt + i * 0x400000))) =
      u32 (phys + i * 0x400000) ||| g.largeFlags d := by
    rw [hkept _ (hown (i * 0x400000) (largeStart_lt m hi)) hne, hlarge.entries i hi]
  rw [← hpd] at hset
  rw [getPhysical_of_large (pageSizeBit_large haligned) hset, hmod]

/-- The sizes of the two loops. -/
theorem largePages_split {size virt : ℕ} (hsize : size % 4096 = 0) (h : 0 < largePages size virt) :
    virt % 0x400000 = 0 ∧ ∃ m, 0 < m ∧ m ≤ 1024 ∧
      size = largePages size virt * 0x400000 + m * 4096 ∧
      (size - largePages size virt * 0x400000) / 4096 = m := by
  unfold largePages at h ⊢
  split_ifs at h ⊢ with hc
  · refine ⟨hc.1, (size - (size - 1) / 0x400000 * 0x400000) / 4096, ?_, ?_, ?_, rfl⟩
    · omega
    · omega
    · omega
  · omega

theorem ClearedByPtAlloc.high {e : ℕ} (h : ClearedByPtAlloc g e) : kpheapVirtBase ≤ e := by
  obtain ⟨p, g', hp, hle, -⟩ := h
  obtain ⟨i, -, -, rfl, -⟩ := ptAlloc_eq_ok hp
  exact (Nat.le_add_right _ _).trans hle

/-- Reading back the frame of a 4 MiB page. -/
theorem readBack_iff {tail f w : ℕ} (hf : f % 0x400000 = 0)
    (hw : readBack g tail (f ||| g.largeFlags d) w) :
    u32 (frameOf w) = f ↔ u32 (frameOf (g.word (f ||| g.largeFlags d))) = f ∧
      ¬(g.word tail = 0 ∧ ClearedByPtAlloc g (f ||| g.largeFlags d)) := by
  by_cases hclear : g.word tail = 0 ∧ ClearedByPtAlloc g (f ||| g.largeFlags d)
  · have hhigh := hclear.2.high
    have hflags := largeFlags_eq g d
    rw [or_flags (by omega) (by omega)] at hhigh
    rw [hw.1 hclear]
    constructor
    · intro heq
      -- the frame would be zero, and the word in the page heap
      change 0 = f at heq
      unfold kpheapVirtBase at hhigh
      omega
    · exact fun h => absurd hclear h.2
  · rw [hw.2 hclear]
    exact ⟨fun heq => ⟨heq, hclear⟩, And.left⟩

/-- A range with 4 MiB pages, on a processor that has them. -/
theorem Tables.forRange_large (h : Tables True own keep g) {phys size virt : ℕ}
    (hhigh : ∀ b, own b ∨ keep b → kernelVirtualBase ≤ b) (hd : d % 4 = 0) (hpse : g.cpuPse = true)
    (hsize : size % 4096 = 0) (hlt : size < 2 ^ 32)
    (hown : ∀ j < size, own (d + 4 * pdIndex (u32 (virt + j))))
    (hfree : ∀ j < size, isMapped (u32 (virt + j)) d g = false)
    (hslots : emptyEntries g d (rangeEntries size virt) ≤ freeSlots g)
    (hn : 0 < largePages size virt) :
    (∃ g', forRange (fun add => VkKernel.mapPageTable (u32 (phys + add)) (u32 (virt + add)) d)
        (fun add => VkKernel.mapPage (u32 (phys + add)) (u32 (virt + add)) d) size virt g = .ok g' ∧
      ∀ j < size, getPhysical (u32 (virt + j)) d g' = u32 (phys + j)) ↔
        MapsRange g d phys size virt := by
  obtain ⟨hvirt, m, hpos, hm, hsum, hrest⟩ := largePages_split hsize hn
  unfold MapsRange
  rw [forRange, hrest]
  generalize largePages size virt = n at hn hsum
  subst hsum
  have hrun := @Tables.mapLargeRange own keep g d h phys virt n m hhigh hd hpse hvirt hpos hm hlt
    hown hfree hslots
  constructor
  · rintro ⟨g', hr, hget⟩
    obtain ⟨g1, hg1, hr⟩ := bind_eq_ok.mp hr
    have hcase := (@Tables.mapTables own keep g d h phys virt n hhigh hpse hvirt (by omega)
      fun i hi => hown (i * 0x400000) (largeStart_lt m hi)).1.mp ⟨g1, hg1⟩
    obtain ⟨hphys, hempty⟩ := hcase.resolve_left hn.ne'
    obtain ⟨g2, g3, hg2, hg3, -, hread⟩ := hrun hphys hempty
    rw [hg2] at hg1
    obtain rfl := Except.ok.inj hg1
    rw [hg3] at hr
    obtain rfl := Except.ok.inj hr
    refine .inr (.inr ⟨hn, hpse, hphys, fun i hi => ⟨hempty i hi, ?_⟩⟩)
    obtain ⟨w, hw, hbytes⟩ := hread i hi
    have hfirst := hbytes 0 (by norm_num)
    rw [Nat.add_zero, Nat.add_zero, hget _ (largeStart_lt m hi)] at hfirst
    have haligned : u32 (phys + i * 0x400000) % 0x400000 = 0 := by
      unfold u32
      omega
    exact (readBack_iff haligned hw).mp hfirst.symm
  · intro hcase
    rcases hcase with hz | ⟨hz, -⟩ | ⟨-, -, hphys, hall⟩
    · omega
    · omega
    obtain ⟨g1, g', hg1, hg', hrestPages, hread⟩ := hrun hphys fun i hi => (hall i hi).1
    refine ⟨g', by rw [hg1, ok_bind, hg'], fun j hj => ?_⟩
    by_cases hsmall : n * 0x400000 ≤ j
    · have hj' := hrestPages (j - n * 0x400000) (by omega)
      rwa [Nat.add_sub_cancel' hsmall] at hj'
    · have hi : j / 0x400000 < n := by omega
      obtain ⟨w, hw, hbytes⟩ := hread _ hi
      have hr : j % 0x400000 < 0x400000 := Nat.mod_lt _ (by norm_num)
      have haligned : u32 (phys + j / 0x400000 * 0x400000) % 0x400000 = 0 := by
        unfold u32
        omega
      have hframe := (readBack_iff haligned hw).mpr (hall _ hi).2
      have hbyte := hbytes _ hr
      rw [show j / 0x400000 * 0x400000 + j % 0x400000 = j by omega] at hbyte
      rw [hbyte]
      unfold u32 at hframe ⊢
      omega

/-- Behind the first 4 MiB of a range are other entries. -/
theorem pdIndex_ne_first {virt j : ℕ} (hvirt : virt % 0x400000 = 0) (hj : 0x400000 ≤ j)
    (hlt : j < 2 ^ 32) : pdIndex (u32 (virt + 0)) ≠ pdIndex (u32 (virt + j)) := by
  unfold pdIndex u32
  omega

/-- A directory entry with a table, whose first page is not mapped. -/
structure BlankTable (own keep : ℕ → Prop) (a : ℕ) (g : Paging) : Prop where
  tables : Tables True own keep g
  table : pageSizeBit (g.word a) = 0
  blank : g.leafAt a 0 = 0

theorem BlankTable.mapPageTable {a phys virt : ℕ} (h : BlankTable own keep a g)
    (hhigh : ∀ b, own b ∨ keep b → kernelVirtualBase ≤ b) (ha : own a)
    (hown : own (d + 4 * pdIndex virt))
    (hne : a ≠ d + 4 * pdIndex virt) (hr : VkKernel.mapPageTable phys virt d g = .ok g') :
    BlankTable own keep a g' := by
  have hmaps := h.tables.mapPageTable_maps hhigh hown hr
  refine ⟨hmaps.tables, ?_, ?_⟩
  · rw [hmaps.entries a ha hne]
    exact h.table
  · rw [hmaps.leaves a ha 0 (by norm_num)]
    exact h.blank

theorem BlankTable.mapPage {a phys virt : ℕ} (h : BlankTable own keep a g) (ha : own a)
    (hown : own (d + 4 * pdIndex virt)) (hne : a ≠ d + 4 * pdIndex virt)
    (hr : VkKernel.mapPage phys virt d g = .ok g') : BlankTable own keep a g' := by
  obtain ⟨h', hmaps⟩ := h.tables.mapPage_maps hown hr
  refine ⟨h', ?_, ?_⟩
  · rw [hmaps.entries a ha hne]
    exact h.table
  · rw [hmaps.leaves a ha 0 (by norm_num), if_neg fun hc => hne hc.1]
    exact h.blank

/-- Without 4 MiB pages the first table stays without pages: its entries are written elsewhere. -/
theorem Tables.forRange_tables (h : Tables True own keep g) {phys size virt : ℕ}
    (hhigh : ∀ b, own b ∨ keep b → kernelVirtualBase ≤ b) (hpse : g.cpuPse = false)
    (hsize : size % 4096 = 0) (hlt : size < 2 ^ 32)
    (hown : ∀ j < size, own (d + 4 * pdIndex (u32 (virt + j))))
    (hfree : ∀ j < size, isMapped (u32 (virt + j)) d g = false) (hn : 0 < largePages size virt) :
    ¬∃ g', forRange (fun add => VkKernel.mapPageTable (u32 (phys + add)) (u32 (virt + add)) d)
        (fun add => VkKernel.mapPage (u32 (phys + add)) (u32 (virt + add)) d) size virt g = .ok g' ∧
      ∀ j < size, getPhysical (u32 (virt + j)) d g' = u32 (phys + j) := by
  rintro ⟨g', hr, hget⟩
  obtain ⟨hvirt, m, hpos, hm, hsum, hrest⟩ := largePages_split hsize hn
  rw [forRange, hrest] at hr
  generalize largePages size virt = n at hn hsum hr
  subst hsum
  obtain ⟨n, rfl⟩ := Nat.exists_eq_succ_of_ne_zero hn.ne'
  obtain ⟨g1, hg1, hr⟩ := bind_eq_ok.mp hr
  obtain ⟨g0, hg0, hg1⟩ := bind_eq_ok.mp hg1
  have hzero : ptIndex (u32 (virt + 0)) = 0 := by
    unfold ptIndex u32
    omega
  have hfirst := hown 0 (by omega)
  have hleaf := (not_isMapped_iff.mp (hfree 0 (by omega))).2
  have hmaps := h.mapPageTable_maps hhigh hfirst hg0
  rw [hzero] at hleaf
  have h0 : BlankTable own keep (d + 4 * pdIndex (u32 (virt + 0))) g0 :=
    ⟨hmaps.tables, hmaps.table hpse, by rw [hmaps.leaves _ hfirst 0 (by norm_num), hleaf]⟩
  -- the other pages are behind other entries
  have h1 : BlankTable own keep (d + 4 * pdIndex (u32 (virt + 0))) g1 := by
    apply (stepLoop_rule (E := fun _ => True)
      (fun _ => BlankTable own keep (d + 4 * pdIndex (u32 (virt + 0))))
      (fun i hi ga ha => ?_) h0).of_ok hg1
    cases hgb : VkKernel.mapPageTable (u32 (phys + (0 + 0x400000 + i * 0x400000)))
      (u32 (virt + (0 + 0x400000 + i * 0x400000))) d ga with
    | error e => trivial
    | ok gb =>
      have hbelow : 0 + 0x400000 + i * 0x400000 < (n + 1) * 0x400000 + m * 4096 := by omega
      have hne := @pdIndex_ne_first virt (0 + 0x400000 + i * 0x400000) hvirt (by omega) (by omega)
      exact ha.mapPageTable hhigh hfirst (hown _ hbelow) (by omega) hgb
  have h2 : BlankTable own keep (d + 4 * pdIndex (u32 (virt + 0))) g' := by
    apply (stepLoop_rule (E := fun _ => True)
      (fun _ => BlankTable own keep (d + 4 * pdIndex (u32 (virt + 0))))
      (fun i hi ga ha => ?_) h1).of_ok hr
    cases hgb : VkKernel.mapPage (u32 (phys + ((n + 1) * 0x400000 + i * 4096)))
      (u32 (virt + ((n + 1) * 0x400000 + i * 4096))) d ga with
    | error e => trivial
    | ok gb =>
      obtain ⟨hge, hbelow⟩ := @smallStart_bounds n m i hi
      have hne := pdIndex_ne_first hvirt hge (hbelow.trans hlt)
      exact ha.mapPage hfirst (hown _ hbelow) (by omega) hgb
  have hsame : pdIndex (u32 (virt + 1)) = pdIndex (u32 (virt + 0)) := by
    unfold pdIndex u32
    omega
  have hpage : ptIndex (u32 (virt + 1)) = 0 := by
    unfold ptIndex u32
    omega
  have hread := hget 1 (by omega)
  have htable := h2.table
  have hblank := h2.blank
  rw [← hsame] at htable hblank
  rw [getPhysical_of_blank htable (by rwa [hpage])] at hread
  have haligned := hmaps.phys_aligned
  unfold u32 at hread haligned
  omega

/-- A range of any size of which nothing is mapped. -/
theorem Tables.forRange_iff (h : Tables True own keep g) {phys size virt : ℕ}
    (hhigh : ∀ b, own b ∨ keep b → kernelVirtualBase ≤ b) (hd : d % 4 = 0) (hvirt : virt % 4096 = 0)
    (hsize : size % 4096 = 0) (hlt : size < 2 ^ 32)
    (hown : ∀ j < size, own (d + 4 * pdIndex (u32 (virt + j))))
    (hfree : ∀ j < size, isMapped (u32 (virt + j)) d g = false)
    (hslots : emptyEntries g d (rangeEntries size virt) ≤ freeSlots g) :
    (∃ g', forRange (fun add => VkKernel.mapPageTable (u32 (phys + add)) (u32 (virt + add)) d)
        (fun add => VkKernel.mapPage (u32 (phys + add)) (u32 (virt + add)) d) size virt g = .ok g' ∧
      ∀ j < size, getPhysical (u32 (virt + j)) d g' = u32 (phys + j)) ↔
        MapsRange g d phys size virt := by
  by_cases hn : largePages size virt = 0
  · exact h.forRange_small hvirt hsize hlt hown hfree hslots hn
  · have hpos := Nat.pos_of_ne_zero hn
    cases hpse : g.cpuPse with
    | true => exact h.forRange_large hhigh hd hpse hsize hlt hown hfree hslots hpos
    | false =>
      have hno : ¬MapsRange g d phys size virt := by
        unfold MapsRange
        rw [hpse]
        rintro (hz | ⟨hz, -⟩ | ⟨-, hc, -⟩)
        · rw [hz] at hpos
          exact absurd hpos (by unfold largePages; simp)
        · exact hn hz
        · cases hc
      exact iff_of_false (h.forRange_tables hhigh hpse hsize hlt hown hfree hpos) hno

end VkKernel
