import VkKernel.PageMapping
import VkKernel.HeapGrowth

/-!
# Page faults

`handle_page_fault` serves a write to a page of user memory that is not present: it maps 8192
bytes at the address of the fault, which is a window of two pages, or of three if the address
is not at the start of a page.
-/

namespace VkKernel
open Outcome

/-- `handle_page_fault`, with the page directory of the current process. -/
def handlePageFault (kmalloc : Alloc) (fAddr errCode pageDirectory : ℕ) (k : Kernel) : Result Kernel :=
  if fAddr < 0xBFFFFFFF then
    if errCode % 2 = 1 then fatalKernelError "Page fault" "Unknown"
    else if errCode / 2 % 2 = 1 then mapMemory kmalloc 8192 fAddr pageDirectory k
    else fatalKernelError "Page fault" "Unknown"
  else fatalKernelError "Page fault" "Unknown"

/-- The pages of the window. -/
def faultPages (fAddr : ℕ) : ℕ := if fAddr % 4096 = 0 then 2 else 3

/-- The page of the fault is mapped, and everything that was mapped is mapped as before. -/
structure FaultServed (fAddr pageDirectory : ℕ) (k k' : Kernel) : Prop where
  mapped : isMapped fAddr pageDirectory k'.paging = true
  kept : ∀ virt < 2 ^ 32, isMapped virt pageDirectory k.paging = true →
    k'.paging.translate virt pageDirectory = k.paging.translate virt pageDirectory

/-! ## The window -/

theorem rangeSize_fault {fAddr : ℕ} : rangeSize 8192 fAddr = faultPages fAddr * 4096 := by
  have hmod : fAddr - aligndown fAddr 4096 = fAddr % 4096 := by
    unfold aligndown
    omega
  have hlt := Nat.mod_lt fAddr (show 4096 > 0 by norm_num)
  unfold rangeSize faultPages
  rw [hmod, u32_of_lt (by omega), alignup_eq (by norm_num) (by omega)]
  split_ifs with h
  · rw [h]
  · omega

theorem mapMemory_fault (a : Alloc) (fAddr pd : ℕ) (k : Kernel) :
    mapMemory a 8192 fAddr pd k =
      reserveBlock a (faultPages fAddr * 4096) (blockTypeFor pd k.paging) k >>= fun r =>
        stepLoop 4096 (fun add => mapPage (u32 (r.1 + add)) (u32 (aligndown fAddr 4096 + add)) pd)
            (faultPages fAddr) 0 r.2.paging >>= fun g => .ok { r.2 with paging := g } := by
  have hpages : faultPages fAddr ≤ 3 := by
    unfold faultPages
    split_ifs <;> omega
  have hlarge : ∀ virt, largePages (faultPages fAddr * 4096) virt = 0 := by
    intro virt
    rw [largePages, if_neg (by omega)]
  unfold mapMemory
  dsimp only
  rw [rangeSize_fault]
  congr 1
  funext r
  rw [forRange, hlarge]
  dsimp only [stepLoop]
  rw [ok_bind, Nat.zero_mul, Nat.sub_zero, Nat.mul_div_cancel _ (by norm_num)]

/-- The handler behind its reservation. -/
theorem handlePageFault_eq {k k1 : Kernel} (hr : HeapReachable k) {d fAddr errCode n phys : ℕ}
    (hf : fAddr < 0xBFFFFFFF) (hpresent : errCode % 2 = 0) (hwrite : errCode / 2 % 2 = 1)
    (hmem : reserveBlock (kmalloc n) (faultPages fAddr * 4096) (blockTypeFor d k.paging) k = .ok (phys, k1)) :
    handlePageFault (kmalloc n) fAddr errCode d k =
      stepLoop 4096 (fun add => mapPage (u32 (phys + add)) (u32 (aligndown fAddr 4096 + add)) d)
        (faultPages fAddr) 0 k.paging >>= fun g => .ok { k1 with paging := g } := by
  obtain ⟨bs, hi⟩ := hr.inv
  obtain ⟨hg, -⟩ := hi.reserveBlock_paging hmem
  unfold handlePageFault
  rw [if_pos hf, if_neg (by omega), if_pos hwrite, mapMemory_fault, hmem, ok_bind]
  dsimp only
  rw [hg]

/-- The page of the fault, as `map_memory` aligns it. -/
theorem aligndown_fault {fAddr : ℕ} : aligndown fAddr 4096 % 4096 = 0 ∧
    aligndown fAddr 4096 / 4096 = fAddr / 4096 ∧ aligndown fAddr 4096 ≤ fAddr := by
  unfold aligndown
  omega

/-- When the loop over the window returns, and what it has mapped. -/
theorem UserDirectory.mapFault {keep : ℕ → Prop} {d fAddr phys : ℕ} {g : Paging}
    (hd : UserDirectory keep d g) (hf : fAddr < 0xBFFFFFFF) (hphys : phys % 4096 = 0) :
    ((∃ g', stepLoop 4096 (fun add => VkKernel.mapPage (u32 (phys + add)) (u32 (aligndown fAddr 4096 + add)) d)
        (faultPages fAddr) 0 g = .ok g') ↔
      (∀ i < faultPages fAddr, isMapped (aligndown fAddr 4096 + i * 4096) d g = false) ∧
        missingTables g d (fAddr / 4096) (faultPages fAddr) ≤ freeSlots g) ∧
    ∀ g', stepLoop 4096 (fun add => VkKernel.mapPage (u32 (phys + add)) (u32 (aligndown fAddr 4096 + add)) d)
        (faultPages fAddr) 0 g = .ok g' → ∀ w < 2 ^ 32, g'.translate w d =
        if fAddr / 4096 ≤ w / 4096 ∧ w / 4096 < fAddr / 4096 + faultPages fAddr then
          some (u32 (phys + (w / 4096 * 4096 - aligndown fAddr 4096)) + w % 4096)
        else g.translate w d := by
  obtain ⟨hmod, hdiv, hle⟩ := @aligndown_fault fAddr
  have hbase : aligndown fAddr 4096 + 0 ≤ kernelVirtualBase := by
    unfold kernelVirtualBase
    omega
  obtain ⟨hiff, hmaps⟩ := @UserDirectory.mapPages _ _ _ hd phys _ (faultPages fAddr) 0 hphys hmod rfl hbase
  rw [Nat.add_zero, hdiv] at hiff hmaps
  exact ⟨hiff, fun g' hg' => (hmaps g' hg').2.2⟩

/-- The handler serves a write to a page that is not present exactly if no page of its window is
mapped and the page heap has a slot for each table that the window lacks. -/
theorem handlePageFault_serves_iff {k k1 : Kernel} (hr : HeapReachable k) {keep : ℕ → Prop}
    {d fAddr errCode n phys : ℕ} (hd : UserDirectory keep d k.paging) (hf : fAddr < 0xBFFFFFFF)
    (hpresent : errCode % 2 = 0) (hwrite : errCode / 2 % 2 = 1)
    (hmem : reserveBlock (kmalloc n) (faultPages fAddr * 4096) (blockTypeFor d k.paging) k = .ok (phys, k1))
    (hphys : phys % 4096 = 0) :
    (∃ k', handlePageFault (kmalloc n) fAddr errCode d k = .ok k' ∧ FaultServed fAddr d k k') ↔
      (∀ i < faultPages fAddr, isMapped (aligndown fAddr 4096 + i * 4096) d k.paging = false) ∧
        missingTables k.paging d (fAddr / 4096) (faultPages fAddr) ≤ freeSlots k.paging := by
  obtain ⟨hmod, hdiv, hle⟩ := @aligndown_fault fAddr
  obtain ⟨hiff, hmaps⟩ := hd.mapFault hf hphys
  have hpos : 0 < faultPages fAddr := by
    unfold faultPages
    split_ifs <;> omega
  rw [← hiff, handlePageFault_eq hr hf hpresent hwrite hmem]
  constructor
  · intro ⟨k', hk', _⟩
    obtain ⟨g, hg', -⟩ := bind_eq_ok.mp hk'
    exact ⟨g, hg'⟩
  · intro ⟨g, hg'⟩
    have htrans := hmaps g hg'
    obtain ⟨hunmapped, -⟩ := hiff.mp ⟨g, hg'⟩
    refine ⟨{ k1 with paging := g }, by rw [hg', ok_bind], ?_, ?_⟩
    · rw [isMapped_eq_translate, htrans fAddr (by omega), if_pos (by omega)]
      rfl
    · intro virt hv hm
      rw [htrans virt hv, if_neg]
      intro ⟨hlow, hhigh⟩
      -- a page of the window was not mapped
      have hwindow := hunmapped (virt / 4096 - fAddr / 4096) (by omega)
      have hpage : (aligndown fAddr 4096 + (virt / 4096 - fAddr / 4096) * 4096) / 4096 = virt / 4096 := by omega
      rw [isMapped_congr _ _ hpage, hm] at hwindow
      cases hwindow

/-! ## A first process -/

/-- The words of the kernel image: the loader maps its first 4 MiB through one table. -/
def loaderWord (a : ℕ) : ℕ :=
  if a = 0xC0300C00 then 0x200003
  else if 0xC0200000 ≤ a ∧ a < 0xC0201000 then (a - 0xC0200000) / 4 * 4096 + 3
  else 0

/-- The paging structures when no process exists. -/
def loaderPaging : Paging := ⟨loaderWord, fun _ => false, 0xC0300000, 0xC0300000, true⟩

/-- The kernel image, with its page directory and table. -/
def imageWord (a : ℕ) : Prop := 0xC0000000 ≤ a ∧ a < 0xC0400000

theorem loaderPaging_spaces : Spaces True imageWord [] loaderPaging := by
  have hnone : ∀ a, ¬userEntry [] a := by
    rintro a ⟨c, hc, -⟩
    cases hc
  refine ⟨?_, ?_, ?_, ?_, fun a ha => absurd ha (hnone a)⟩
  · intro d hd
    cases hd
  · intro a ha i hi _
    have himage := ha.resolve_left (hnone a)
    unfold imageWord at himage
    unfold OffSlot slotAddr kpheapVirtBase kpheapBlockSize
    omega
  · intro a ha
    exact absurd ha (hnone a)
  · intro a b i ha
    exact absurd ha (hnone a)

theorem loaderPaging_kernelWords : ∀ a, kernelWord loaderPaging 0xC0300000 a → imageWord a := by
  rintro a ⟨virt, hv, hv', ha⟩
  have hq : ptIndex virt < 1024 := Nat.mod_lt _ (by norm_num)
  have hj : pdIndex virt < 1024 := by
    unfold pdIndex
    omega
  have hframe : frameOf (loaderPaging.word (0xC0300000 + 4 * pdIndex virt)) = 0 ∨
      frameOf (loaderPaging.word (0xC0300000 + 4 * pdIndex virt)) = 0x200000 := by
    change frameOf (loaderWord _) = 0 ∨ frameOf (loaderWord _) = 0x200000
    unfold loaderWord
    split_ifs
    · exact .inr rfl
    · omega
    · exact .inl rfl
  have hpage : pageAddr (frameOf (loaderPaging.word (0xC0300000 + 4 * pdIndex virt))) virt =
      frameOf (loaderPaging.word (0xC0300000 + 4 * pdIndex virt)) + ptIndex virt * 4 + kernelVirtualBase := by
    unfold pageAddr kernelVirtualBase
    rw [u32_of_lt (by omega)]
  unfold imageWord
  rcases ha with ha | ha
  · rw [ha]
    omega
  · rw [ha, hpage]
    unfold kernelVirtualBase
    omega

theorem loaderPaging_freeSlots : freeSlots loaderPaging = 1024 := by
  have hall : ∀ i ∈ Finset.range 1024, loaderPaging.kpheapBlocks i = false := fun i _ => rfl
  unfold freeSlots
  rw [Finset.filter_true_of_mem hall, Finset.card_range]

/-- The first directory, with everything but one slot of the page heap free. -/
theorem loaderPaging_clone : ∃ g keep, getKernelPdClone loaderPaging = .ok (slotAddr 0, g) ∧
    UserDirectory keep (slotAddr 0) g ∧ freeSlots g = 1023 ∧ g.currentPageDirectory = 0xC0300000 ∧
    ∀ virt < kernelVirtualBase, isMapped virt (slotAddr 0) g = false := by
  obtain ⟨g, hclone, -⟩ := @getKernelPdClone_first loaderPaging rfl
  have himage : isMapped kernelVirtualBase loaderPaging.kernelPageDirectory loaderPaging = true := by decide
  obtain ⟨hd, hslots, hnone⟩ := UserDirectory.clone loaderPaging_spaces loaderPaging_kernelWords himage hclone
  obtain ⟨-, -, hf, -, -⟩ := loaderPaging_spaces.clone hclone _ fun b hb => hb
  rw [loaderPaging_freeSlots] at hslots
  refine ⟨g, _, hclone, hd, by omega, hf.current, fun virt hv => ?_⟩
  rw [isMapped_eq_translate, hnone virt hv]
  rfl

theorem clonedKernel_reachable {g : Paging} (h : g.currentPageDirectory = 0xC0300000) :
    HeapReachable (clonedKernel g) := initialList_oneBlockKernel.heap.tail (.other rfl h)

/-- Memory for a fault, and what is left of it. -/
theorem PhysInv.reserve_fault {k : Kernel} {xs : List PRegion} {r : PRegion}
    (hi : PhysInv noStale [] k (xs ++ [r])) {room : ℕ} (hroom : k.heap.Room (room + 32)) (type : ℕ)
    (hxs : ∀ x ∈ xs, available 8192 x = false) (hr : available 8192 r = true) :
    ∃ k' node, reserveBlock (kmalloc 1) (2 * 4096) type k = .ok (r.base, k') ∧
      PhysInv noStale [] k' (xs ++ [r.cut 8192 type, r.rest 8192 node physFreeBlockType]) ∧ k'.heap.Room room := by
  have hsize : alignup (2 * 4096) 4096 = 8192 := by decide
  have h := hi.reserveBlock_of_room xs (2 * 4096) type room hroom
  rw [hsize] at h
  obtain ⟨k', node, hk, hi', hroom'⟩ := h hxs hr
  exact ⟨k', node, hk, hi', hroom'⟩

/-- Two pages just above the loader's default text address, for a first process. -/
theorem handlePageFault_serves_first : ∃ g k', getKernelPdClone loaderPaging = .ok (slotAddr 0, g) ∧
    handlePageFault (kmalloc 1) 0x8048000 2 (slotAddr 0) (clonedKernel g) = .ok k' ∧
    FaultServed 0x8048000 (slotAddr 0) (clonedKernel g) k' := by
  obtain ⟨g, keep, hclone, hd, hslots, hcur, hnone⟩ := loaderPaging_clone
  have hi0 := (initialList_oneBlockKernel.runInv fun _ => True).phys
  have hi : PhysInv noStale [] (clonedKernel g) ([] ++ [freeRegion]) :=
    ⟨hi0.heap, hi0.listing, hi0.live, hi0.ascending, hi0.bounded, hi0.tail, hi0.back⟩
  have hroom : (clonedKernel g).heap.Room (0 + 32) := room_oneBlockKernel.mono (by decide)
  obtain ⟨k1, node, hk1, -⟩ := hi.reserve_fault hroom (blockTypeFor (slotAddr 0) g) (by simp) (by decide)
  have hfew : missingTables g (slotAddr 0) (0x8048000 / 4096) 2 ≤ 2 := by
    unfold missingTables
    exact (Finset.card_filter_le _ _).trans (Finset.card_image_le.trans (Finset.card_range 2).le)
  obtain ⟨k', hk', hserved⟩ := (handlePageFault_serves_iff (clonedKernel_reachable hcur) hd
    (show 0x8048000 < 0xBFFFFFFF by decide) (show 2 % 2 = 0 by decide) (show 2 / 2 % 2 = 1 by decide)
    hk1 (show freeRegion.base % 4096 = 0 by decide)).mpr ⟨fun i hi => hnone _ (by
      have : i < 2 := hi
      change 0x8048000 + i * 4096 < 0xC0000000
      omega), hfew.trans (by rw [show freeSlots (clonedKernel g).paging = 1023 from hslots]; decide)⟩
  exact ⟨g, k', hclone, hk', hserved⟩

/-- A reservation, and new page tables, in a run of the heap. -/
theorem HeapReachable.mapMemory {k k1 : Kernel} (hr : HeapReachable k) {n size type p : ℕ} {g : Paging}
    (h : reserveBlock (kmalloc n) size type k = .ok (p, k1))
    (hg : g.currentPageDirectory = k.paging.currentPageDirectory) :
    HeapReachable { k1 with paging := g } := by
  obtain ⟨bs, hi⟩ := hr.inv
  obtain ⟨c, -, h⟩ := bind_eq_ok.mp h
  cases c with
  | none => cases h
  | some curr =>
    obtain ⟨⟨q, ka⟩, hka, h⟩ := bind_eq_ok.mp h
    obtain ⟨-, -, hka', -⟩ := hi.kmalloc_node hka
    have hpair := Except.ok.inj h
    rw [Prod.mk.injEq] at hpair
    obtain ⟨-, rfl⟩ := hpair
    have hstep : HeapStep k ka := .kmalloc (by decide) hka
    refine (hr.tail hstep).tail (.other rfl ?_)
    rw [hka']
    exact hg

/-- A process writes to a page and then to the page below: the second fault ends in a fatal
error, with the page that it is for not mapped and enough memory left. -/
theorem handlePageFault_below_mapped : ∃ g keep k k1, getKernelPdClone loaderPaging = .ok (slotAddr 0, g) ∧
    handlePageFault (kmalloc 1) 0x8049000 2 (slotAddr 0) (clonedKernel g) = .ok k ∧
    HeapReachable k ∧ UserDirectory keep (slotAddr 0) k.paging ∧
    isMapped 0x8048000 (slotAddr 0) k.paging = false ∧
    reserveBlock (kmalloc 1) (2 * 4096) (blockTypeFor (slotAddr 0) k.paging) k = .ok (0x102000, k1) ∧
    ¬∃ k', handlePageFault (kmalloc 1) 0x8048000 2 (slotAddr 0) k = .ok k' := by
  obtain ⟨g, keep, hclone, hd, hslots, hcur, hnone⟩ := loaderPaging_clone
  have hi0 := (initialList_oneBlockKernel.runInv fun _ => True).phys
  have hi : PhysInv noStale [] (clonedKernel g) ([] ++ [freeRegion]) :=
    ⟨hi0.heap, hi0.listing, hi0.live, hi0.ascending, hi0.bounded, hi0.tail, hi0.back⟩
  have hroom : (clonedKernel g).heap.Room (32 + 32) := room_oneBlockKernel.mono (by decide)
  obtain ⟨k1, node, hk1, hi1, hroom1⟩ := hi.reserve_fault hroom (blockTypeFor (slotAddr 0) g) (by simp) (by decide)
  have hreach := clonedKernel_reachable hcur
  -- the first fault
  have hfirst := handlePageFault_eq hreach (show 0x8049000 < 0xBFFFFFFF by decide) (show 2 % 2 = 0 by decide)
    (show 2 / 2 % 2 = 1 by decide) hk1
  have hbase : 0x8049000 + 0 ≤ kernelVirtualBase := by decide
  obtain ⟨hiff, hmaps⟩ := @UserDirectory.mapPages _ _ _ hd 0x100000 0x8049000 2 0 (by decide) (by decide) rfl hbase
  have hfew : missingTables g (slotAddr 0) ((0x8049000 + 0) / 4096) 2 ≤ 2 := by
    unfold missingTables
    exact (Finset.card_filter_le _ _).trans (Finset.card_image_le.trans (Finset.card_range 2).le)
  obtain ⟨g', hg'⟩ := hiff.mpr ⟨fun i hi => hnone _ (by unfold kernelVirtualBase; omega), by omega⟩
  obtain ⟨hd', hf', htrans⟩ := hmaps g' hg'
  change _ = stepLoop 4096 (fun add => mapPage (u32 (0x100000 + add)) (u32 (0x8049000 + add)) (slotAddr 0)) 2 0 g >>= _
    at hfirst
  rw [hg', ok_bind] at hfirst
  -- the second fault
  have hi2 : PhysInv noStale [] ({ k1 with paging := g' } : Kernel) ([freeRegion.cut 8192 (blockTypeFor (slotAddr 0) g)] ++
      [freeRegion.rest 8192 node physFreeBlockType]) :=
    ⟨hi1.heap, hi1.listing, hi1.live, hi1.ascending, hi1.bounded, hi1.tail, hi1.back⟩
  have hbusy : ∀ x ∈ [freeRegion.cut 8192 (blockTypeFor (slotAddr 0) g)], available 8192 x = false := by
    intro x hx
    rw [List.mem_singleton.mp hx]
    unfold blockTypeFor
    split_ifs <;> decide
  obtain ⟨k2, -, hk2, -⟩ := hi2.reserve_fault hroom1 (blockTypeFor (slotAddr 0) g') hbusy
    (available_iff.mpr ⟨show 0x100000 ≤ 0x100000 + 8192 by decide, rfl, show 8192 ≤ 0x1000000 - 8192 by decide⟩)
  have hreach' : HeapReachable { k1 with paging := g' } := hreach.mapMemory hk1 hf'.current
  refine ⟨g, keep, _, k2, hclone, hfirst, hreach', hd', ?_, hk2, ?_⟩
  · change isMapped 0x8048000 (slotAddr 0) g' = false
    rw [isMapped_eq_translate, htrans 0x8048000 (by decide), if_neg (by decide), ← isMapped_eq_translate]
    exact hnone _ (by decide)
  · have hsecond := handlePageFault_eq hreach' (show 0x8048000 < 0xBFFFFFFF by decide) (show 2 % 2 = 0 by decide)
      (show 2 / 2 % 2 = 1 by decide) hk2
    rw [hsecond]
    intro ⟨k', hk'⟩
    obtain ⟨g2, hg2, -⟩ := bind_eq_ok.mp hk'
    obtain ⟨hiff', -⟩ := @UserDirectory.mapFault _ _ 0x8048000 (0x100000 + 8192) _ hd' (by decide) (by decide)
    obtain ⟨hfree, -⟩ := hiff'.mp ⟨g2, hg2⟩
    have hsecond : isMapped 0x8049000 (slotAddr 0) g' = false := hfree 1 (by decide)
    rw [isMapped_eq_translate, htrans 0x8049000 (by decide), if_pos (by decide)] at hsecond
    cases hsecond

end VkKernel
