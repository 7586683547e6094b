import VkKernel.AddressSpaces
import VkKernel.PhysicalRun

/-!
# Growing the heap

A call of `kmalloc` that grows the heap runs to its end when memory, slots of the
page heap and addresses are there: it maps 4 MiB in the kernel directory and in
the directory of each process, with frames of their own.
-/

namespace VkKernel
open Outcome IntervalUpdate RegionList BlockLayout

variable {stale : ℕ → Prop} {tl : List PRegion} {own keep : ℕ → Prop}

/-- A mapped page, read through its table entry. -/
theorem getPhysical_of_leaf {g : Paging} {virt pd : ℕ}
    (h : g.leafAt (pd + 4 * pdIndex virt) (ptIndex virt) ≠ 0) :
    getPhysical virt pd g =
      frameOf (g.leafAt (pd + 4 * pdIndex virt) (ptIndex virt)) + virt % 4096 := by
  by_cases hz : g.word (pd + 4 * pdIndex virt) = 0 ∨ pageSizeBit (g.word (pd + 4 * pdIndex virt)) = 1
  · exact absurd (if_pos hz) h
  · have hleaf : g.leafAt (pd + 4 * pdIndex virt) (ptIndex virt) =
        g.word (pageAddr (frameOf (g.word (pd + 4 * pdIndex virt))) virt) := if_neg hz
    rw [not_or] at hz
    rw [hleaf] at h ⊢
    rw [getPhysical, if_neg hz.1, if_neg hz.2, if_pos h]

/-- `map_memory` of 4 MiB at an unused directory entry, with a free region and
room in the heap for its node. -/
theorem PhysInv.mapMemory_of_room {k : Kernel} (xs : List PRegion) {ys : List PRegion} {r : PRegion}
    (hi : PhysInv stale tl k (xs ++ r :: ys)) (virt pd n : ℕ) (hroom : k.heap.Room (n + 32))
    (hxs : ∀ x ∈ xs, available 0x400000 x = false) (hr : available 0x400000 r = true)
    (hb : r.base % 4096 = 0) (ht : Tables False own keep k.paging)
    (ha : own (pd + 4 * pdIndex virt)) (hv : virt % 0x400000 = 0) (hv' : virt < 2 ^ 32)
    (hz : ∀ q < 1024, k.paging.leafAt (pd + 4 * pdIndex virt) q = 0)
    (hfree : ∃ i < 1024, k.paging.kpheapBlocks i = false) :
    ∃ k' node, mapMemory (kmalloc 1) 0x400000 virt pd k = .ok k' ∧
      PhysInv stale tl k' (xs ++ r.cut 0x400000 (blockTypeFor pd k.paging) ::
        r.rest 0x400000 node physFreeBlockType :: ys) ∧
      k'.heap.Room n ∧ Tables False own keep k'.paging ∧ PagingFrame keep k.paging k'.paging ∧
      (∀ q < 1024, k'.paging.leafAt (pd + 4 * pdIndex virt) q =
        u32 (r.base + q * 4096) + k.paging.pageFlags pd) ∧
      (∀ b, own b → b ≠ pd + 4 * pdIndex virt → ∀ q < 1024,
        k'.paging.leafAt b q = k.paging.leafAt b q) ∧
      (∃ i, ∀ j, j ≠ i → k'.paging.kpheapBlocks j = k.paging.kpheapBlocks j) ∧
      k'.heap.baseEnd = k.heap.baseEnd ∧ k'.processes = k.processes := by
  have hsize : alignup 0x400000 4096 = 0x400000 := alignup_of_dvd (by decide)
  obtain ⟨k1, node, hk1, hi1, hroom1⟩ := hi.reserveBlock_of_room xs 0x400000
    (blockTypeFor pd k.paging) n hroom (by rwa [hsize]) (by rwa [hsize])
  rw [hsize] at hi1
  obtain ⟨-, -, -, -, -, -, -, -, -, -, -, hend, hframe⟩ := hi.reserveBlock_spec hk1
  have hg : k1.paging = k.paging := by rw [hframe]
  have hps : k1.processes = k.processes := by rw [hframe]
  -- the range is the whole table of one directory entry
  have hidx : ptIndex virt = 0 := by
    unfold ptIndex
    omega
  obtain ⟨g, hg', ht', hf', hl', ho', hone⟩ := ht.mapPages (n := 1024) ha hb (by omega) hv'
    (by omega) (fun i hi => by rw [hidx, Nat.zero_add]; exact hz i hi) hfree
  have hdown : aligndown virt 4096 = virt := by
    unfold aligndown
    omega
  have hrange : rangeSize 0x400000 virt = 0x400000 := by
    rw [rangeSize, hdown, Nat.sub_self, Nat.add_zero, u32_of_lt (by decide), hsize]
  have hpages : largePages 0x400000 virt = 0 := if_neg (by omega)
  refine ⟨{ k1 with paging := g }, node, ?_, ?_, hroom1, ht', hf', ?_, ho', hone, hend, hps⟩
  · rw [mapMemory, hrange, hdown, hk1, ok_bind]
    dsimp only
    rw [forRange, hpages, hg, stepLoop, ok_bind, Nat.zero_mul, Nat.sub_zero, show 0x400000 / 4096 = 1024 from rfl, hg',
      ok_bind]
  · exact ⟨hi1.heap, hi1.listing, hi1.live, hi1.ascending, hi1.bounded, hi1.tail, hi1.back⟩
  · intro q hq
    rw [hl' q hq, hidx, overwrite_of_mem (Nat.zero_le q) (by omega), Nat.sub_zero]

/-! ## What growing leaves alone -/

/-- No word at all. -/
def noWord (_ : ℕ) : Prop := False

/-- A result that keeps the slots in use and the paging registers. -/
def KeepsSlots (g : Paging) (x : Result Paging) : Prop :=
  Holds x (fun g' => PagingFrame noWord g g') fun _ => True

theorem KeepsSlots.bind {g : Paging} {x : Result Paging} {f : Paging → Result Paging}
    (h : KeepsSlots g x) (hf : ∀ g', KeepsSlots g' (f g')) : KeepsSlots g (x >>= f) := by
  unfold KeepsSlots at *
  rw [holds_bind]
  exact h.mono (fun g1 h1 => (hf g1).mono (fun g2 h2 => h1.trans h2) fun _ h => h) fun _ h => h

theorem setWord_frame (g : Paging) (a v : ℕ) : PagingFrame noWord g (g.setWord a v) :=
  ⟨fun _ h => h.elim, rfl, rfl, rfl, fun _ _ h => h⟩

theorem clearPage_frame (g : Paging) (a : ℕ) : PagingFrame noWord g (g.clearPage a) :=
  ⟨fun _ h => h.elim, rfl, rfl, rfl, fun _ _ h => h⟩

theorem ptAlloc_frame {g g' : Paging} {a : ℕ} (h : ptAlloc g = .ok (a, g')) :
    PagingFrame noWord g g' := by
  obtain ⟨i, -, -, -, rfl⟩ := ptAlloc_eq_ok h
  refine ⟨fun _ h => h.elim, rfl, rfl, rfl, fun j _ hj => ?_⟩
  dsimp only
  rw [Function.update_apply, hj]
  exact ite_self _

theorem pageTableFor_frame {g g' : Paging} {virt pd t : ℕ}
    (h : pageTableFor virt pd g = .ok (t, g')) : PagingFrame noWord g g' := by
  rw [pageTableFor] at h
  dsimp only at h
  split_ifs at h
  · obtain ⟨⟨pt, g1⟩, hpt, h⟩ := bind_eq_ok.mp h
    injection h with h
    rw [Prod.mk.injEq] at h
    obtain ⟨-, rfl⟩ := h
    exact ((ptAlloc_frame hpt).trans (clearPage_frame _ _)).trans (setWord_frame _ _ _)
  · cases h
  · injection h with h
    rw [Prod.mk.injEq] at h
    obtain ⟨-, rfl⟩ := h
    exact .refl _ _

theorem mapPage_keepsSlots (phys virt pd : ℕ) (g : Paging) :
    KeepsSlots g (mapPage phys virt pd g) := by
  rw [mapPage]
  split_ifs
  · trivial
  · trivial
  · cases hpt : pageTableFor virt pd g with
    | error e => trivial
    | ok r =>
      obtain ⟨t, g1⟩ := r
      rw [ok_bind]
      dsimp only
      split_ifs
      · trivial
      · exact (pageTableFor_frame hpt).trans (setWord_frame _ _ _)

theorem fillTable_keepsSlots (t flags n i phys : ℕ) (g : Paging) :
    PagingFrame noWord g (fillTable t flags n i phys g) := by
  obtain ⟨-, hk, hd, hc, hp⟩ := fillTable_frame (g := g) t flags n i phys
  exact ⟨fun _ h => h.elim, hd, hc, hp, fun _ _ h => hk ▸ h⟩

theorem mapPageTable_keepsSlots (phys virt pd : ℕ) (g : Paging) :
    KeepsSlots g (mapPageTable phys virt pd g) := by
  rw [mapPageTable]
  split_ifs
  · trivial
  · trivial
  · trivial
  · exact setWord_frame _ _ _
  · cases hpt : ptAlloc g with
    | error e => trivial
    | ok r =>
      obtain ⟨pt, g1⟩ := r
      rw [ok_bind]
      dsimp only
      rw [KeepsSlots, holds_ok]
      exact ((ptAlloc_frame hpt).trans (setWord_frame _ _ _)).trans (fillTable_keepsSlots _ _ _ _ _ _)

theorem stepLoop_keepsSlots {step : ℕ} {f : ℕ → Paging → Result Paging}
    (hf : ∀ add g, KeepsSlots g (f add g)) (n add : ℕ) (g : Paging) :
    KeepsSlots g (stepLoop step f n add g) := by
  induction n generalizing add g with
  | zero => exact PagingFrame.refl _ _
  | succ n ih => exact (hf add g).bind fun g' => ih _ g'

theorem forRange_keepsSlots {large small : ℕ → Paging → Result Paging}
    (hl : ∀ add g, KeepsSlots g (large add g)) (hs : ∀ add g, KeepsSlots g (small add g))
    (size virt : ℕ) (g : Paging) : KeepsSlots g (forRange large small size virt g) :=
  (stepLoop_keepsSlots hl _ _ g).bind fun g' => stepLoop_keepsSlots hs _ _ g'

/-- A call that keeps the slots in use, the paging registers and the process array. -/
structure KernelFrame (k k' : Kernel) : Prop where
  paging : PagingFrame noWord k.paging k'.paging
  processes : k'.processes = k.processes

theorem KernelFrame.refl (k : Kernel) : KernelFrame k k := ⟨.refl _ _, rfl⟩

theorem KernelFrame.trans {k1 k2 k3 : Kernel} (h : KernelFrame k1 k2) (h' : KernelFrame k2 k3) :
    KernelFrame k1 k3 := ⟨h.paging.trans h'.paging, h'.processes.trans h.processes⟩

/-- An allocator that keeps them. -/
def AllocFrame (a : Alloc) : Prop := ∀ size k p k', a size k = .ok (p, k') → KernelFrame k k'

theorem AllocFrame.reserveBlock {a : Alloc} (ha : AllocFrame a) {size type p : ℕ} {k k' : Kernel}
    (h : reserveBlock a size type k = .ok (p, k')) : KernelFrame k k' := by
  obtain ⟨c, -, h⟩ := bind_eq_ok.mp h
  cases c with
  | none => cases h
  | some curr =>
    obtain ⟨⟨q, k1⟩, hk1, h⟩ := bind_eq_ok.mp h
    injection h with h
    rw [Prod.mk.injEq] at h
    obtain ⟨-, rfl⟩ := h
    have := ha _ _ _ _ hk1
    exact ⟨this.paging, this.processes⟩

theorem AllocFrame.mapMemory {a : Alloc} (ha : AllocFrame a) {size virt pd : ℕ} {k k' : Kernel}
    (h : mapMemory a size virt pd k = .ok k') : KernelFrame k k' := by
  obtain ⟨⟨phys, k1⟩, hk1, h⟩ := bind_eq_ok.mp h
  obtain ⟨g, hg, h⟩ := bind_eq_ok.mp h
  injection h with h
  subst h
  have hframe := ha.reserveBlock hk1
  have hrange := forRange_keepsSlots
    (fun add g => mapPageTable_keepsSlots (u32 (phys + add)) (u32 (aligndown virt 4096 + add)) pd g)
    (fun add g => mapPage_keepsSlots (u32 (phys + add)) (u32 (aligndown virt 4096 + add)) pd g)
    (rangeSize size virt) (aligndown virt 4096) k1.paging
  exact ⟨hframe.paging.trans (hrange.of_ok hg), hframe.processes⟩

theorem AllocFrame.mapInProcesses {a : Alloc} (ha : AllocFrame a) {ps : List (Option Process)}
    {k k' : Kernel} (h : mapInProcesses a ps k = .ok k') : KernelFrame k k' := by
  induction ps generalizing k with
  | nil =>
    injection h with h
    exact h ▸ .refl k
  | cons p ps ih =>
    cases p with
    | none => exact ih h
    | some p =>
      obtain ⟨k1, hk1, h⟩ := bind_eq_ok.mp h
      exact (ha.mapMemory hk1).trans (ih h)

theorem AllocFrame.kheapExpand {a : Alloc} (ha : AllocFrame a) {k k' : Kernel}
    (h : kheapExpand a k = .ok k') : KernelFrame k k' := by
  rw [VkKernel.kheapExpand] at h
  split_ifs at h
  · cases h
  · obtain ⟨k1, hk1, h⟩ := bind_eq_ok.mp h
    obtain ⟨k2, hk2, h⟩ := bind_eq_ok.mp h
    obtain ⟨h3, -, h⟩ := bind_eq_ok.mp h
    injection h with h
    subst h
    have := (ha.mapMemory hk1).trans (ha.mapInProcesses hk2)
    exact ⟨this.paging, this.processes⟩

/-- No allocation frees a slot of the page heap or changes the process array. -/
theorem allocFrame_kmalloc (n : ℕ) : AllocFrame (kmalloc n) := by
  induction n with
  | zero =>
    intro size k p k' h
    cases h
  | succ n ih =>
    intro size k p k' h
    rw [kmalloc] at h
    obtain ⟨c, -, h⟩ := bind_eq_ok.mp h
    cases c with
    | some r =>
      injection h with h
      rw [Prod.mk.injEq] at h
      obtain ⟨-, rfl⟩ := h
      exact ⟨.refl _ _, rfl⟩
    | none =>
      obtain ⟨k1, hk1, h⟩ := bind_eq_ok.mp h
      exact (ih.kheapExpand hk1).trans (ih _ _ _ _ h)

/-! ## A kernel that grows its heap -/

/-- A process of which only the page directory matters. -/
def plainProcess (pageDirectory : ℕ) : Process :=
  ⟨0, 1, .running, pageDirectory, none, [], [], [], 0, 0, [], 0, [], none⟩

/-- One free block of memory, and one process in the first slot of the page heap. -/
def clonedKernel (g : Paging) : Kernel :=
  { oneBlockKernel with paging := g, processes := [none, some (plainProcess (slotAddr 0))] }

/-- The entries of the first 4 MiB that the heap grows by. -/
def growthEntry (g : Paging) (a : ℕ) : Prop :=
  a = g.kernelPageDirectory + 4 * 771 ∨ a = slotAddr 0 + 4 * 771

/-- The directories of the kernel and of a first process, when nothing is mapped. -/
theorem getKernelPdClone_oneBlock : ∃ g, getKernelPdClone oneBlockKernel.paging = .ok (slotAddr 0, g) ∧
    g.kpheapBlocks = Function.update (fun _ => false) 0 true ∧
    g.kernelPageDirectory = 0xC0300000 ∧ g.currentPageDirectory = 0xC0300000 ∧
    g.word (g.kernelPageDirectory + 4 * 771) = 0 ∧ g.word (slotAddr 0 + 4 * 771) = 0 := by
  have hzero : ∀ b, (oneBlockKernel.paging.clearPage (slotAddr 0)).word b = 0 := fun b => ite_self 0
  rw [getKernelPdClone, ptAlloc_first rfl, ok_bind]
  refine ⟨_, rfl, ?_⟩
  dsimp only
  generalize hg1 : ({ oneBlockKernel.paging.clearPage (slotAddr 0) with
    kpheapBlocks := Function.update oneBlockKernel.paging.kpheapBlocks 0 true } : Paging) = g1
  have hw : ∀ b, g1.word b = 0 := fun b => hg1 ▸ hzero b
  have hk1 : g1.kernelPageDirectory = 0xC0300000 := by rw [← hg1]; rfl
  have hc1 : g1.currentPageDirectory = 0xC0300000 := by rw [← hg1]; rfl
  have hb1 : g1.kpheapBlocks = Function.update (fun _ => false) 0 true := by rw [← hg1]; rfl
  have hbase : kernelVirtualBase / 2 ^ 22 = 768 := by decide
  have hslot : slotAddr 0 = 0xC0400000 := by decide
  rw [hbase]
  obtain ⟨hframe, hk, hd, hc, -⟩ := copyKernelHalf_frame (g := g1) (slotAddr 0) (1024 - 768) 768
  refine ⟨hk.trans hb1, hd.trans hk1, hc.trans hc1, ?_, ?_⟩
  · rw [hd, hk1, hframe _ fun j hj hj' => by omega]
    exact hw _
  · rw [copyKernelHalf_copy (fun j hj hj' l hl hl' => by omega) (by omega) (by omega)]
    exact hw _

theorem tables_growthEntry {g : Paging} (hb : g.kpheapBlocks = Function.update (fun _ => false) 0 true)
    (hk : g.kernelPageDirectory = 0xC0300000) (hz : g.word (g.kernelPageDirectory + 4 * 771) = 0)
    (hz' : g.word (slotAddr 0 + 4 * 771) = 0) : Tables False (growthEntry g) noWord g := by
  have hword : ∀ a, growthEntry g a → g.word a = 0 := by
    rintro a (rfl | rfl)
    · exact hz
    · exact hz'
  refine ⟨?_, fun a ha hne => absurd (hword a ha) hne, ?_, fun _ _ h => h⟩
  · intro a ha i hi hfree
    have hi0 : i ≠ 0 := by
      rintro rfl
      rw [hb, Function.update_self] at hfree
      cases hfree
    have hslot : slotAddr 0 = 0xC0400000 := by decide
    rcases ha with (rfl | rfl) | ha
    · rw [hk]
      unfold OffSlot slotAddr kpheapVirtBase kpheapBlockSize
      omega
    · rw [hslot]
      unfold OffSlot slotAddr kpheapVirtBase kpheapBlockSize
      omega
    · exact ha.elim
  · intro a b i ha _ hta _
    exact absurd (hword a ha) hta.ne_zero

/-- The mapping that a growth of the heap makes in the directory of the kernel and in
that of the process. The block of free memory is cut twice. -/
theorem clonedKernel_maps {g : Paging}
    (hb : g.kpheapBlocks = Function.update (fun _ => false) 0 true)
    (hk : g.kernelPageDirectory = 0xC0300000) (hz : g.word (g.kernelPageDirectory + 4 * 771) = 0)
    (hz' : g.word (slotAddr 0 + 4 * 771) = 0) :
    ∃ k1 k2, mapMemory (kmalloc 1) 0x400000 0xC0C00000 g.kernelPageDirectory (clonedKernel g) =
        .ok k1 ∧
      k1.heap.baseEnd = 0xC0C00000 ∧ k1.processes = (clonedKernel g).processes ∧
      mapMemory (kmalloc 1) 0x400000 0xC0C00000 (slotAddr 0) k1 = .ok k2 ∧
      k2.heap.baseEnd = 0xC0C00000 ∧ k2.processes = (clonedKernel g).processes ∧
      (∃ bs, HeapInv k2.heap bs) ∧
      getPhysical 0xC0C00000 k2.paging.kernelPageDirectory k2.paging = 0x100000 ∧
      getPhysical 0xC0C00000 (slotAddr 0) k2.paging = 0x500000 ∧
      (k2.phys.node (kheapBaseStart + 8)).size = 0x400000 := by
  have ht := tables_growthEntry hb hk hz hz'
  have hidx : pdIndex 0xC0C00000 = 771 := by decide
  have hidx' : ptIndex 0xC0C00000 = 0 := by decide
  have hkpd : growthEntry g (g.kernelPageDirectory + 4 * pdIndex 0xC0C00000) := .inl (by rw [hidx])
  have hd : growthEntry g (slotAddr 0 + 4 * pdIndex 0xC0C00000) := .inr (by rw [hidx])
  have hne : slotAddr 0 + 4 * pdIndex 0xC0C00000 ≠
      g.kernelPageDirectory + 4 * pdIndex 0xC0C00000 := by
    rw [hk]
    decide
  have hslot : slotAddr 0 ≠ g.kernelPageDirectory := by
    rw [hk]
    decide
  have hleaf : ∀ a, g.word a = 0 → ∀ q < 1024, g.leafAt a q = 0 := fun a ha q _ => if_pos (.inl ha)
  have hfree : ∀ i, 2 ≤ i → g.kpheapBlocks i = false := by
    intro i hi
    rw [hb, Function.update_of_ne (by omega)]
  -- the kernel directory
  have hi0 := (initialList_oneBlockKernel.runInv fun _ => True).phys
  have hi : PhysInv noStale [] (clonedKernel g) ([] ++ freeRegion :: []) :=
    ⟨hi0.heap, hi0.listing, hi0.live, hi0.ascending, hi0.bounded, hi0.tail, hi0.back⟩
  obtain ⟨k1, n1, hk1, hi1, hroom1, ht1, hf1, hl1, ho1, ⟨i, hsame⟩, he1, hp1⟩ :=
    hi.mapMemory_of_room [] 0xC0C00000 g.kernelPageDirectory 0x1000
      (room_oneBlockKernel.mono (by decide)) (by simp) (by decide) (by decide) ht hkpd (by decide)
      (by decide) (hleaf _ (by rw [hidx]; exact hz)) ⟨2, by decide, hfree 2 le_rfl⟩
  have hpd1 : k1.paging.kernelPageDirectory = g.kernelPageDirectory := hf1.kernel
  -- the directory of the process
  have hzero : ∀ q < 1024, k1.paging.leafAt (slotAddr 0 + 4 * pdIndex 0xC0C00000) q = 0 := by
    intro q hq
    rw [ho1 _ hd hne q hq]
    exact hleaf _ (by rw [hidx]; exact hz') q hq
  have hfree1 : ∃ j < 1024, k1.paging.kpheapBlocks j = false := by
    by_cases h2 : (2 : ℕ) = i
    · exact ⟨3, by decide, (hsame 3 (by omega)).trans (hfree 3 (by decide))⟩
    · exact ⟨2, by decide, (hsame 2 h2).trans (hfree 2 le_rfl)⟩
  have hbusy : ∀ x ∈ [freeRegion.cut 0x400000 (blockTypeFor g.kernelPageDirectory g)],
      available 0x400000 x = false := by
    intro x hx
    rw [List.mem_singleton.mp hx, blockTypeFor, if_pos rfl]
    decide
  have hi1' : PhysInv noStale [] k1
      ([freeRegion.cut 0x400000 (blockTypeFor g.kernelPageDirectory g)] ++
        freeRegion.rest 0x400000 n1 physFreeBlockType :: []) := hi1
  obtain ⟨k2, n2, hk2, hi2, -, -, hf2, hl2, ho2, -, he2, hp2⟩ :=
    hi1'.mapMemory_of_room _ 0xC0C00000 (slotAddr 0) 0 (hroom1.mono (by decide)) hbusy rfl
      (show (0x100000 + 0x400000) % 4096 = 0 by decide) ht1 hd (by decide) (by decide) hzero hfree1
  have hpd2 : k2.paging.kernelPageDirectory = g.kernelPageDirectory := hf2.kernel.trans hpd1
  refine ⟨k1, k2, hk1, he1, hp1, hk2, he2.trans he1, hp2.trans hp1, hi2.heap, ?_, ?_, ?_⟩
  · have hentry : k2.paging.leafAt (k2.paging.kernelPageDirectory + 4 * pdIndex 0xC0C00000)
        (ptIndex 0xC0C00000) = 0x100000 + 259 := by
      rw [hpd2, hidx', ho2 _ hkpd hne.symm 0 (by omega), hl1 0 (by omega)]
      change u32 _ + g.pageFlags g.kernelPageDirectory = _
      rw [Paging.pageFlags, Paging.kernelOr, if_pos rfl]
      rfl
    rw [getPhysical_of_leaf (by rw [hentry]; decide), hentry]
    rfl
  · have hentry : k2.paging.leafAt (slotAddr 0 + 4 * pdIndex 0xC0C00000) (ptIndex 0xC0C00000) =
        0x500000 + 7 := by
      rw [hidx', hl2 0 (by omega), Paging.pageFlags, Paging.kernelOr, hpd1, if_neg hslot]
      rfl
    rw [getPhysical_of_leaf (by rw [hentry]; decide), hentry]
    rfl
  · have hdata := hi2.listing.data (freeRegion.cut 0x400000 (blockTypeFor g.kernelPageDirectory g))
      (by simp)
    exact congrArg Region.size hdata

theorem kheapExpand_of_ok {a : Alloc} {k k1 k2 : Kernel} {h : Heap}
    (hlt : k.heap.baseEnd < freeKvmStart)
    (h1 : mapMemory a 0x400000 k.heap.baseEnd k.paging.kernelPageDirectory k = .ok k1)
    (h2 : mapInProcesses a (k1.processes.drop 1) k1 = .ok k2) (h3 : addBaseBlock k2.heap = .ok h) :
    kheapExpand a k = .ok { k2 with heap := h } := by
  rw [kheapExpand, if_neg (Nat.not_le_of_lt hlt), h1, ok_bind, h2, ok_bind, h3, ok_bind]

/-- A request that no block can serve: the heap grows by 4 MiB, for which the
directories of the kernel and of the process get different frames. The node of the
free memory, an allocation that stays live, gets a new size. -/
theorem kmalloc_grows : ∃ g p k', getKernelPdClone oneBlockKernel.paging = .ok (slotAddr 0, g) ∧
    kmalloc 2 0x3FFFF8 (clonedKernel g) = .ok (p, k') ∧
    getPhysical 0xC0C00000 k'.paging.kernelPageDirectory k'.paging = 0x100000 ∧
    getPhysical 0xC0C00000 (slotAddr 0) k'.paging = 0x500000 ∧
    (k'.phys.node (kheapBaseStart + 8)).size = 0x400000 ∧
    k'.processes = (clonedKernel g).processes := by
  obtain ⟨g, hclone, hb, hk, -, hz, hz'⟩ := getKernelPdClone_oneBlock
  obtain ⟨k1, k2, hk1, he1, hp1, hk2, he2, hp2, ⟨bs, hi2⟩, hphys, hphys', hnode⟩ :=
    clonedKernel_maps hb hk hz hz'
  have hi : HeapInv (clonedKernel g).heap
      [⟨kheapBaseStart, 20, true⟩, ⟨kheapBaseStart + 28, 0x3FFFDC, false⟩] :=
    (HeapInv.takeBlock_inv [] 20 (heapInv_kheapInstall _) rfl (by decide) (by decide)).1
  have hend : (clonedKernel g).heap.baseEnd = 0xC0C00000 := by
    change (takeBlock installedKernel.heap kheapBaseStart 20).baseEnd = _
    rw [takeBlock_baseEnd]
    rfl
  obtain ⟨h3, hadd, hi3, -⟩ := hi2.addBaseBlock_ok (by rw [he2]; decide)
  have hgrown : kheapExpand (kmalloc 1) (clonedKernel g) = .ok { k2 with heap := h3 } := by
    refine kheapExpand_of_ok (by rw [hend]; decide) (by rw [hend]; exact hk1) ?_ hadd
    rw [hp1, clonedKernel, List.drop_one, List.tail_cons, mapInProcesses, he1]
    exact (bind_eq_ok.mpr ⟨k2, hk2, rfl⟩)
  -- the new block is large enough, alone or together with the one before it
  obtain ⟨c, hc, hcu, hsize⟩ := exists_free_coalesce 8
    (b := ⟨k2.heap.baseEnd, 0x400000 - 8, false⟩) (List.mem_append_right bs List.mem_cons_self) rfl
  have halign : alignup 0x3FFFF8 4 = 0x3FFFF8 := alignup_of_dvd (by decide)
  have hfull : [⟨kheapBaseStart, 20, true⟩, ⟨kheapBaseStart + 28, 0x3FFFDC, false⟩].find?
      (Block.fits 0x3FFFF8) = none := by
    simp [Block.fits]
  have hfit : ((coalesce 8 (bs ++ [⟨k2.heap.baseEnd, 0x400000 - 8, false⟩])).find?
      (Block.fits 0x3FFFF8)).isSome := by
    rw [List.find?_isSome]
    exact ⟨c, hc, Block.fits_iff.mpr ⟨hcu, hsize⟩⟩
  obtain ⟨d, hd⟩ := Option.isSome_iff_exists.mp hfit
  refine ⟨g, d.addr + 8, { k2 with heap := takeBlock h3 d.addr 0x3FFFF8 }, hclone, ?_, hphys, hphys',
    hnode, hp2⟩
  rw [kmalloc_succ hi, halign, hfull]
  dsimp only
  rw [hgrown, ok_bind, kmalloc_succ hi3, halign, hd]

end VkKernel
