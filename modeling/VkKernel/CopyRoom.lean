import VkKernel.CopyAdressSpace

/-!
# Room for a copy

A page of a copy takes a page of physical memory, heap for a node of the block list and for the
buffer, and perhaps a slot of the page heap. With all that for every page, `copy_adress_space`
returns, and the heap does not grow.
-/

namespace VkKernel
open ByteMemory BlockLayout LinkedList RegionList Outcome IntervalUpdate

/-- There is a free block of `n` pages, and free blocks start at page boundaries. -/
def AlignedBlocks (n : ℕ) (k : Kernel) : Prop :=
  ∃ rs, Listing noStale k.phys rs ∧ (∃ r ∈ rs, available (n * 4096) r = true) ∧
    ∀ r ∈ rs, available 4096 r = true → r.base % 4096 = 0

/-- Free memory for `n` pages, with heap and page heap for their copy. -/
structure EnoughFor (n : ℕ) (k : Kernel) : Prop where
  blocks : AlignedBlocks n k
  heap : k.heap.Room (n * 4144)
  slots : n ≤ freeSlots k.paging

section Room
variable {k k' : Kernel} {n fuel : ℕ}

/-- With room to spare, an allocation completes, whatever the fuel, and leaves room. -/
theorem Heap.Room.kmalloc {size : ℕ} (hr : k.heap.Room (n + alignup size 4 + 12))
    (hsize : size ≤ 0xFFFFFFFC) :
    ∃ p k', (∀ fuel, VkKernel.kmalloc (fuel + 1) size k = .ok (p, k')) ∧
      k' = { k with heap := k'.heap } ∧ k'.heap.baseEnd = k.heap.baseEnd ∧ k'.heap.Room n := by
  obtain ⟨bs, b, hi, hb, hu, hn⟩ := hr
  have hfit : (bs.find? (Block.fits (alignup size 4))).isSome := by
    rw [List.find?_isSome]
    exact ⟨b, hb, Block.fits_iff.mpr ⟨hu, by omega⟩⟩
  obtain ⟨c, hc⟩ := Option.isSome_iff_exists.mp hfit
  refine ⟨c.addr + 8, { k with heap := takeBlock k.heap c.addr (alignup size 4) }, fun fuel => ?_,
    rfl, takeBlock_baseEnd, ?_⟩
  · rw [kmalloc_succ hi, hc]
  · obtain ⟨hcfit, xs, ys, rfl, -⟩ := List.find?_eq_some_iff_append.mp hc
    obtain ⟨hcu, hcsize⟩ := Block.fits_iff.mp hcfit
    have hi' := (HeapInv.takeBlock_inv _ _ hi hcu hcsize (alignup_four hsize).1).1
    by_cases hcb : c = b
    · -- the block with room is the one that is carved
      subst hcb
      have hcarve : carve 8 c (alignup size 4) = [⟨c.addr, alignup size 4, true⟩,
          ⟨c.addr + 8 + alignup size 4, c.size - alignup size 4 - 8, false⟩] := by
        rw [carve, if_pos (by omega)]
      rw [hcarve] at hi'
      refine ⟨_, ⟨c.addr + 8 + alignup size 4, c.size - alignup size 4 - 8, false⟩, hi', by simp,
        rfl, ?_⟩
      dsimp only
      omega
    · refine ⟨_, b, hi', ?_, hu, by omega⟩
      simp only [List.mem_append, List.mem_cons, Ne.symm hcb, false_or] at hb ⊢
      tauto

/-- Stores into a block leave room. -/
theorem Heap.Room.store {h : Heap} (hr : h.Room n) {p : ℕ} (hp : p ∈ h.live) {m : Mem}
    (hm : ∀ x, x < p ∨ p + h.size (p - 8) ≤ x → m x = h.mem x) :
    Heap.Room { h with mem := m } n := by
  obtain ⟨bs, b, hi, hb, hu, hn⟩ := hr
  obtain ⟨c, hc, -, rfl⟩ := (hi.live p).mp hp
  rw [hi.size_eq hc] at hm
  refine ⟨bs, b, hi.write_inv hc fun x hx => hm x ?_, hb, hu, hn⟩
  unfold Block.stop at hx
  omega

theorem reserveBlock_congr {a a' : Alloc} {size type : ℕ} (h : a sizeofPBlock k = a' sizeofPBlock k) :
    reserveBlock a size type k = reserveBlock a' size type k := by
  unfold reserveBlock
  rw [h]

theorem available_mono {m : ℕ} {r : PRegion} (h : available n r = true) (hm : m ≤ n) :
    available m r = true := by
  rw [available_iff] at h ⊢
  exact ⟨h.1, h.2.1, hm.trans h.2.2⟩

/-- A page can be reserved, and what is left is enough for the others. -/
theorem RunInv.reserve_page (type : ℕ) {rv : List (ℕ × ℕ)} {rs : List PRegion}
    (hi : RunInv noStale [] ReservedType k rv rs) (he : EnoughFor (n + 1) k) :
    ∃ a k', (∀ fuel, reserveBlock (kmalloc (fuel + 1)) 4096 type k = .ok (a, k')) ∧ a % 4096 = 0 ∧
      k'.heap.Room (n * 4144 + 4112) ∧ AlignedBlocks n k' := by
  obtain ⟨⟨rs₁, hl, ⟨big, hbig, hsize⟩, haligned⟩, hheap, -⟩ := he
  have hpage : alignup 4096 4096 = 4096 := alignup_of_dvd (by decide)
  have hphys := hi.phys
  have hrs : rs₁ = rs := hl.unique (by simpa using hphys.listing)
  subst hrs
  -- the first block with a page
  have hsome : (rs₁.find? (available 4096)).isSome := by
    rw [List.find?_isSome]
    exact ⟨big, hbig, available_mono hsize (by omega)⟩
  obtain ⟨r, hr⟩ := Option.isSome_iff_exists.mp hsome
  obtain ⟨hav, xs, ys, rfl, hxs⟩ := List.find?_eq_some_iff_append.mp hr
  have hxs' : ∀ x ∈ xs, available (alignup 4096 4096) x = false := by
    intro x hx
    rw [hpage]
    simpa using hxs x hx
  obtain ⟨k', node, hk', hi', hroom⟩ := hphys.reserveBlock_of_room xs 4096 type
    (n * 4144 + 4112) (hheap.mono (by omega)) hxs' (by rw [hpage]; exact hav)
  have hfuel : ∀ fuel, VkKernel.kmalloc (fuel + 1) sizeofPBlock k = VkKernel.kmalloc 1 sizeofPBlock k := by
    intro fuel
    have hroom : k.heap.Room (0 + alignup sizeofPBlock 4 + 12) := hheap.mono (by
      rw [alignup_of_dvd (by decide), sizeofPBlock]
      omega)
    obtain ⟨p, k₁, hk₁, -⟩ := hroom.kmalloc (by decide)
    rw [hk₁ fuel, hk₁ 0]
  have hbase := haligned r (by simp) hav
  rw [available_iff] at hav
  refine ⟨r.base, k', fun fuel => (reserveBlock_congr (hfuel fuel)).trans hk', hbase, hroom, _,
    by simpa using hi'.listing, ?_, ?_⟩
  · by_cases hbr : big = r
    · subst hbr
      rw [available_iff] at hsize
      refine ⟨big.rest (alignup 4096 4096) node physFreeBlockType, by simp, ?_⟩
      rw [available_iff, Region.rest_base, Region.rest_tag, Region.rest_size, hpage]
      exact ⟨by omega, rfl, by omega⟩
    · refine ⟨big, ?_, available_mono hsize (by omega)⟩
      simp only [List.mem_append, List.mem_cons, hbr, false_or] at hbig ⊢
      tauto
  · intro s hs hsav
    simp only [List.mem_append, List.mem_cons] at hs
    rcases hs with hs | rfl | rfl | hs
    · exact haligned s (by simp [hs]) hsav
    · exact hbase
    · rw [Region.rest_base, hpage]
      omega
    · exact haligned s (by simp [hs]) hsav

end Room

/-! ## Pages -/

section Pages
variable {k k' : Kernel} {n fuel : ℕ} {ds : List ℕ} {σ : Translations} {rv : List (ℕ × ℕ)}

/-- A page that is not mapped can be mapped. -/
theorem PrivateFrames.mapMemory_returns (h : PrivateFrames k ds σ rv) {d p : ℕ} (hd : d ∈ ds)
    (hp : p < userPages) (hnone : σ d p = none) (he : EnoughFor (n + 1) k) :
    ∃ k', (∀ fuel, VkKernel.mapMemory (kmalloc (fuel + 1)) 4096 (p * 4096) d k = .ok k') ∧
      k'.heap.Room (n * 4144 + 4112) ∧ AlignedBlocks n k' ∧ n ≤ freeSlots k'.paging := by
  obtain ⟨rs, hi⟩ := h.blocks
  obtain ⟨a, k₁, hres, ha, hroom, hblocks⟩ := hi.reserve_page (blockTypeFor d k.paging) he
  obtain ⟨bs, hheap⟩ := h.sound
  have hg := (hheap.reserveBlock_paging (hres 0)).1
  have hu := userRange_page hp
  have hone : pageCount 4096 = 1 := by rw [pageCount, alignup_of_dvd (by decide)]
  have hlt : p * 4096 < kernelVirtualBase := by
    unfold userPages at hp
    unfold kernelVirtualBase
    omega
  have hown := userEntry_of_mem hd hlt
  have htables := h.spaces.spaces.tables
  have hphys : u32 (a + 0) % 4096 = 0 := by
    unfold u32
    omega
  have hvirt : u32 (p * 4096 + 0) = p * 4096 := by
    unfold kernelVirtualBase at hlt
    rw [Nat.add_zero, u32_of_lt (by omega)]
  have hleaf : k.paging.leafAt (d + 4 * pdIndex (p * 4096)) (ptIndex (p * 4096)) = 0 := by
    rw [leafAt_eq_pageEntry, Nat.mul_div_cancel _ (by norm_num), h.spaces.entries d hd p hp, hnone]
    rfl
  have hslots := he.slots
  have hfree : ∃ i < 1024, k.paging.kpheapBlocks i = false := freeSlots_pos_iff.mp (by omega)
  have haligned : p * 4096 % 4096 = 0 := Nat.mul_mod_left p 4096
  obtain ⟨g, hmap⟩ := htables.mapPage_ok (u32 (a + 0)) (p * 4096) d hown hphys haligned
    (fun _ => hfree) hleaf
  obtain ⟨-, hmaps⟩ := htables.mapPage_maps hown hmap
  refine ⟨{ k₁ with paging := g }, fun fuel => ?_, hroom, hblocks, ?_⟩
  · unfold VkKernel.mapMemory
    dsimp only
    rw [hu.rangeSize_eq, hu.aligndown_eq, alignup_of_dvd (by decide), hres fuel, ok_bind]
    have hloop := hu.forRange_eq
      (fun add => mapPageTable (u32 (a + add)) (u32 (p * 4096 + add)) d)
      (fun add => VkKernel.mapPage (u32 (a + add)) (u32 (p * 4096 + add)) d) k₁.paging
    rw [alignup_of_dvd (by decide), hone] at hloop
    dsimp only
    rw [hloop, hg, stepLoop, hvirt, hmap, ok_bind, stepLoop, ok_bind]
  · have := hmaps.slots
    dsimp only
    split_ifs at this
    · omega
    · omega

/-- So it can be copied. -/
theorem PrivateFrames.copyPage_returns (h : PrivateFrames k ds σ rv) {p f pd tr : ℕ} (cpd : ℕ)
    (hpd : pd ∈ ds) (htr : tr ∈ ds) (hne : pd ≠ tr) (hp : p < userPages) (hf : σ pd p = some f)
    (hnone : σ tr p = none) (he : EnoughFor (n + 1) k) (fuel : ℕ) :
    ∃ k', VkKernel.copyPage (fuel + 1) (p * 4096) pd tr cpd k = .ok k' ∧
      k'.heap.baseEnd = k.heap.baseEnd ∧ EnoughFor n k' := by
  obtain ⟨k₁, hmap, hroom₁, hblocks, hslots⟩ := h.mapMemory_returns htr hp hnone he
  obtain ⟨a, k₀, -, hnew, h₁, hk₁⟩ := h.mapMemory htr (userRange_page hp) (by norm_num) (hmap fuel)
  rw [Translations.set_page, Nat.zero_mul, Nat.add_zero] at h₁
  have hroom : k₁.heap.Room (n * 4144 + alignup 4096 4 + 12) := hroom₁.mono (by
    rw [alignup_of_dvd (by decide)]
    omega)
  obtain ⟨b, k₂, halloc, hk₂, hend₂, hroom₂⟩ := hroom.kmalloc (by norm_num)
  have hblock := h₁.sound.kmalloc (by norm_num) (halloc fuel)
  have h₂ : Represents k₂ ds (Function.update σ tr (Function.update (σ tr) p (some a))) :=
    h₁.spaces.of_paging hblock.sound (by rw [hk₂])
  have hold : Function.update σ tr (Function.update (σ tr) p (some a)) pd p = some f := by
    rw [Function.update_of_ne hne]
    exact hf
  have hcopy : Function.update σ tr (Function.update (σ tr) p (some a)) tr p = some a := by
    rw [Function.update_self, Function.update_self]
  obtain ⟨m, hm, hbytes, hbytes'⟩ :=
    h₂.copyBytes hblock.live hblock.enough hpd htr hp hold hcopy
  have hroom₃ := hroom₂.store hblock.live hm
  obtain ⟨bs, hi⟩ := (hblock.sound.store hblock.live hm).sound
  obtain ⟨h₄, hfree, -, hend₄, -⟩ := hi.kfree_ok hblock.live
  let k₃ : Kernel := Kernel.switchTo { k₂ with
    paging := pdSwitch tr k₂.paging
    heap := { k₂.heap with mem := m }
    ram := overwrite k₂.ram a 4096 fun i => k₂.ram (f + i) } cpd
  have hpaging : k₂.paging = k₁.paging := by rw [hk₂]
  have hphys : k₂.phys = k₁.phys := by rw [hk₂]
  refine ⟨{ k₃ with heap := h₄ }, ?_, ?_, ?_, hroom₃.kfree hblock.live hfree, ?_⟩
  · unfold VkKernel.copyPage copyRange
    rw [hmap fuel, ok_bind, halloc fuel, ok_bind]
    dsimp only
    rw [hbytes, ok_bind]
    change ((memcpyToUser _ _ _
      { k₂ with paging := pdSwitch tr k₂.paging, heap := { k₂.heap with mem := m } } >>= _) >>= _) = _
    rw [hbytes', ok_bind, ok_bind]
    change k₃.kfree b = _
    unfold Kernel.kfree
    have hfree' : VkKernel.kfree b k₃.heap = .ok h₄ := hfree
    rw [hfree', ok_bind]
  · change h₄.baseEnd = _
    have hend₁ : k₁.heap.baseEnd = k.heap.baseEnd := by
      rw [hk₁]
      exact hnew.baseEnd
    rw [hend₄, ← hend₁, ← hend₂]
  · obtain ⟨rs, hl, hrs⟩ := hblocks
    refine ⟨rs, ?_, hrs⟩
    change Listing noStale k₂.phys rs
    rwa [hphys]
  · change n ≤ freeSlots k₂.paging
    rwa [hpaging]

end Pages

/-! ## The loops -/

/-- How many pages from page `m` on a directory maps. -/
def pagesFrom (t : ℕ → Option ℕ) (m : ℕ) : ℕ :=
  ((Finset.Ico m userPages).filter fun p => (t p).isSome).card

theorem pagesFrom_eq (t : ℕ → Option ℕ) {m : ℕ} (hm : m < userPages) :
    pagesFrom t m = pagesFrom t (m + 1) + if (t m).isSome then 1 else 0 := by
  have hnot : m ∉ (Finset.Ico (m + 1) userPages).filter fun p => (t p).isSome := by
    simp
  unfold pagesFrom
  rw [← Finset.insert_Ico_add_one_left_eq_Ico hm, Finset.filter_insert]
  split_ifs
  · rw [Finset.card_insert_of_notMem hnot]
  · rfl

theorem pagesFrom_mono (t : ℕ → Option ℕ) {m m' : ℕ} (hm : m ≤ m') :
    pagesFrom t m' ≤ pagesFrom t m :=
  Finset.card_le_card (Finset.filter_subset_filter _ (Finset.Ico_subset_Ico_left hm))

theorem EnoughFor.mono {n n' : ℕ} {k : Kernel} (h : EnoughFor n k) (hn : n' ≤ n) : EnoughFor n' k := by
  obtain ⟨⟨rs, hl, ⟨r, hr, hsize⟩, haligned⟩, hheap, hslots⟩ := h
  exact ⟨⟨rs, hl, ⟨r, hr, available_mono hsize (by omega)⟩, haligned⟩, hheap.mono (by omega),
    hn.trans hslots⟩

section Loops
variable {k₀ k k' : Kernel} {ds : List ℕ} {σ₀ σ : Translations} {rv₀ rv : List (ℕ × ℕ)}
  {m pd tr cpd : ℕ}

/-- A part of the copy returns, and what is left is enough for the pages from `m` on. -/
def CopyReturns (r : Result Kernel) (m : ℕ) (k₀ : Kernel) (t : ℕ → Option ℕ) : Prop :=
  ∃ k', r = .ok k' ∧ k'.heap.baseEnd = k₀.heap.baseEnd ∧ EnoughFor (pagesFrom t m) k'

theorem CopiedUpTo.tableEntry_returns (fuel : ℕ) {i j s : ℕ}
    (h : CopiedUpTo (i * 1024 + j) pd tr cpd k₀ ds σ₀ rv₀ k σ rv) (hpd : pd ∈ ds) (htr : tr ∈ ds)
    (hne : pd ≠ tr) (hi : i < 768) (hj : j < 1024) (hs : s < 1024)
    (ht : IsTable (k₀.paging.word (pd + 4 * i)) s)
    (he : EnoughFor (pagesFrom (σ₀ pd) (i * 1024 + j)) k) :
    CopyReturns (copyTableEntry (fuel + 1) (slotAddr s) i j pd tr cpd k) (i * 1024 + (j + 1)) k₀
      (σ₀ pd) := by
  have hp : i * 1024 + j < userPages := by
    unfold userPages
    omega
  have hdiv : (i * 1024 + j) / 1024 = i := by omega
  have hmod : (i * 1024 + j) % 1024 = j := by omega
  have hzero := h.entry_zero_iff hpd hne hp hs (by rwa [hdiv])
  rw [hmod] at hzero
  unfold copyTableEntry
  split_ifs with hz
  · exact ⟨k, rfl, h.baseEnd, he.mono (pagesFrom_mono _ (by omega))⟩
  · obtain ⟨f, hf⟩ := Option.ne_none_iff_exists'.mp (hzero.not.mp hz)
    have hcount := pagesFrom_eq (σ₀ pd) hp
    rw [hf, Option.isSome_some, if_pos rfl] at hcount
    rw [hcount] at he
    have hf' : σ pd (i * 1024 + j) = some f := by
      rw [h.others pd hne]
      exact hf
    rw [show i * 2 ^ 22 + j * 2 ^ 12 = (i * 1024 + j) * 4096 by ring]
    obtain ⟨k', hk', hend, he'⟩ := h.frames.copyPage_returns cpd hpd htr hne hp hf'
      (h.behind _ le_rfl) he fuel
    rw [Nat.add_assoc] at he'
    exact ⟨k', hk', hend.trans h.baseEnd, he'⟩

theorem CopiedUpTo.table_returns (fuel : ℕ) {i j n s : ℕ}
    (h : CopiedUpTo (i * 1024 + j) pd tr cpd k₀ ds σ₀ rv₀ k σ rv)
    (h₀ : PrivateFrames k₀ ds σ₀ rv₀) (hpd : pd ∈ ds) (htr : tr ∈ ds) (hne : pd ≠ tr) (hi : i < 768)
    (hj : j + n ≤ 1024) (hs : s < 1024) (ht : IsTable (k₀.paging.word (pd + 4 * i)) s)
    (he : EnoughFor (pagesFrom (σ₀ pd) (i * 1024 + j)) k) :
    CopyReturns (copyTable (fuel + 1) (slotAddr s) i pd tr cpd n j k) (i * 1024 + (j + n)) k₀
      (σ₀ pd) := by
  induction n generalizing k σ rv j with
  | zero => exact ⟨k, rfl, h.baseEnd, he⟩
  | succ n ih =>
    obtain ⟨k₁, hk₁, hend, he₁⟩ := h.tableEntry_returns fuel hpd htr hne hi (by omega) hs
      ht he
    obtain ⟨σ₁, rv₁, h₁⟩ := h.tableEntry h₀ hpd htr hne hi (by omega) hs ht hk₁ hend
    rw [show j + (n + 1) = j + 1 + n by ring, copyTable, hk₁, ok_bind]
    exact ih h₁ (by omega) he₁

theorem CopiedUpTo.dirEntry_returns (fuel : ℕ) {i : ℕ}
    (h : CopiedUpTo (i * 1024) pd tr cpd k₀ ds σ₀ rv₀ k σ rv) (h₀ : PrivateFrames k₀ ds σ₀ rv₀)
    (hpd : pd ∈ ds) (htr : tr ∈ ds) (hne : pd ≠ tr) (hi : i < 768)
    (he : EnoughFor (pagesFrom (σ₀ pd) (i * 1024)) k) :
    CopyReturns (copyEntry (fuel + 1) i pd tr cpd k) ((i + 1) * 1024) k₀ (σ₀ pd) := by
  have hown : userEntry ds (pd + 4 * i) := ⟨pd, hpd, i, hi, rfl⟩
  unfold copyEntry
  dsimp only
  rw [h.words i hi]
  by_cases hz : k₀.paging.word (pd + 4 * i) = 0
  · rw [if_pos hz]
    exact ⟨k, rfl, h.baseEnd, he.mono (pagesFrom_mono _ (by omega))⟩
  · obtain ⟨hlarge, -⟩ | ⟨s, hs, -, ht, -⟩ := h₀.spaces.spaces.tables.table _ hown hz
    · exact hlarge.elim
    · rw [if_neg hz, ht.pageSizeBit_eq, if_neg (by norm_num), tableAddr_eq hs ht]
      rw [← Nat.add_zero (i * 1024)] at h he
      have htable := h.table_returns fuel h₀ hpd htr hne hi (Nat.zero_add 1024).le hs ht he
      rwa [Nat.zero_add, ← Nat.succ_mul] at htable

theorem CopiedUpTo.entries_returns (fuel : ℕ) {i n : ℕ}
    (h : CopiedUpTo (i * 1024) pd tr cpd k₀ ds σ₀ rv₀ k σ rv) (h₀ : PrivateFrames k₀ ds σ₀ rv₀)
    (hpd : pd ∈ ds) (htr : tr ∈ ds) (hne : pd ≠ tr) (hi : i + n ≤ 768)
    (he : EnoughFor (pagesFrom (σ₀ pd) (i * 1024)) k) :
    CopyReturns (copyEntries (fuel + 1) pd tr cpd n i k) ((i + n) * 1024) k₀ (σ₀ pd) := by
  induction n generalizing k σ rv i with
  | zero => exact ⟨k, rfl, h.baseEnd, he⟩
  | succ n ih =>
    obtain ⟨k₁, hk₁, hend, he₁⟩ := h.dirEntry_returns fuel h₀ hpd htr hne (by omega) he
    obtain ⟨σ₁, rv₁, h₁⟩ := h.dirEntry h₀ hpd htr hne (by omega) hk₁ hend
    rw [show i + (n + 1) = i + 1 + n by ring, copyEntries, hk₁, ok_bind]
    exact ih h₁ (by omega) he₁

/-- With enough memory for all pages, and a slot for the directory, the copy returns. -/
theorem PrivateFrames.copyAdressSpace_returns (h : PrivateFrames k ds σ rv) (hpd : pd ∈ ds)
    (he : EnoughFor (pagesFrom (σ pd) 0) k) (hslots : pagesFrom (σ pd) 0 < freeSlots k.paging)
    (fuel : ℕ) :
    ∃ tr k', VkKernel.copyAdressSpace (fuel + 1) pd k = .ok (tr, k') ∧
      k'.heap.baseEnd = k.heap.baseEnd := by
  have hpos : 0 < freeSlots k.paging := by omega
  obtain ⟨i, hi, hfree⟩ := freeSlots_pos_iff.mp hpos
  obtain ⟨⟨tr, g₁⟩, halloc⟩ := ptAlloc_ok hi hfree
  obtain ⟨j, hj, hjfree, -, hg₁⟩ := ptAlloc_eq_ok halloc
  obtain ⟨g, hg⟩ : ∃ g, g =
    copyKernelHalf tr (1024 - kernelVirtualBase / 2 ^ 22) (kernelVirtualBase / 2 ^ 22) g₁ := ⟨_, rfl⟩
  have hclone : getKernelPdClone k.paging = .ok (tr, g) := by
    rw [getKernelPdClone, halloc, ok_bind, hg]
  have hcount : freeSlots k.paging = freeSlots g + 1 := by
    refine freeSlots_update hj hjfree ?_
    rw [hg, (copyKernelHalf_frame tr _ _).2.1, hg₁]
  obtain ⟨hnew, h₀⟩ := h.clone hclone
  have hne : pd ≠ tr := fun heq => hnew (heq ▸ hpd)
  have hold : Function.update σ tr (fun _ => none) pd = σ pd := Function.update_of_ne hne _ _
  have hleft : pagesFrom (σ pd) 0 ≤ freeSlots g := by omega
  have he₀ : EnoughFor (pagesFrom (σ pd) 0) { k with paging := g } := ⟨he.blocks, he.heap, hleft⟩
  have hstart := CopiedUpTo.start pd h hclone
  rw [← Nat.zero_mul 1024] at hstart
  obtain ⟨k₁, hk₁, hend, -⟩ := hstart.entries_returns (n := 768) fuel h₀
    (List.mem_cons_of_mem _ hpd) List.mem_cons_self hne (by norm_num) (by
      rw [hold, Nat.zero_mul]
      exact he₀)
  refine ⟨tr, k₁.switchTo k.paging.currentPageDirectory, ?_, hend⟩
  rw [VkKernel.copyAdressSpace, hclone, ok_bind]
  dsimp only
  rw [show kernelVirtualBase / 2 ^ 22 = 768 by decide, hk₁, ok_bind]

end Loops

end VkKernel
