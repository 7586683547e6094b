import VkKernel.HeapGrowth

/-!
# The kernel heap as an allocator

What a call of `kmalloc`, `kfree` or `kheap_expand` returns, and what it leaves alone.
Growing the heap reserves physical memory, so it writes to the nodes of the physical
memory list, which are allocations themselves; the payload of every other allocation
stays as it is.
-/

namespace VkKernel
open Outcome BlockLayout LinkedList

/-- The nodes that the walks of `physical.c` come by. -/
inductive PhysMem.Listed (m : PhysMem) : ℕ → Prop
  | first : m.firstBlock ≠ 0 → m.Listed m.firstBlock
  | next {a : ℕ} : m.Listed a → (m.node a).next ≠ 0 → m.Listed (m.node a).next

/-- Every live allocation stays live with its size and its bytes. A `p_block_t` that is
not in the list keeps its fields, too. -/
structure KeepsAllocations (k k' : Kernel) : Prop where
  heap : Keeps k.heap k'.heap
  node : ∀ p ∈ k.heap.live, ¬k.phys.Listed p → k'.phys.node p = k.phys.node p

/-- What is known behind a call that grows the heap: new nodes of the list are new
allocations. -/
structure ListGrows (k k' : Kernel) : Prop extends KeepsAllocations k k' where
  listed : ∀ p, k'.phys.Listed p → k.phys.Listed p ∨ p ∉ k.heap.live

theorem ListGrows.of_phys {k k' : Kernel} (hk : Keeps k.heap k'.heap) (hp : k'.phys = k.phys) :
    ListGrows k k' where
  heap := hk
  node p _ _ := by rw [hp]
  listed p hl := by
    rw [hp] at hl
    exact Or.inl hl

theorem ListGrows.trans {k1 k2 k3 : Kernel} (h : ListGrows k1 k2) (h' : ListGrows k2 k3) :
    ListGrows k1 k3 := by
  have hback : ∀ p ∈ k1.heap.live, k2.phys.Listed p → k1.phys.Listed p := by
    intro p hp hl
    exact (h.listed p hl).resolve_right fun hn => hn hp
  refine ⟨⟨h.heap.trans h'.heap, fun p hp hl => ?_⟩, fun p hl => ?_⟩
  · have hl2 : ¬k2.phys.Listed p := fun h2 => hl (hback p hp h2)
    rw [h'.node p (h.heap p hp).1 hl2, h.node p hp hl]
  · by_cases hp : p ∈ k1.heap.live
    · have h2 := (h'.listed p hl).resolve_right fun hn => hn (h.heap p hp).1
      exact Or.inl (hback p hp h2)
    · exact Or.inr hp

/-! ## Reservations -/

theorem listed_of_walk {m : PhysMem} {test : PBlock → Bool} {fuel curr c : ℕ}
    (hcurr : curr ≠ 0 → m.Listed curr) (h : m.walk test fuel curr = .ok (some c)) : m.Listed c := by
  induction fuel generalizing curr with
  | zero => cases h
  | succ fuel ih =>
    rw [PhysMem.walk] at h
    split_ifs at h with h0 htest
    · cases h
    · injection h with h
      injection h with h
      rw [← h]
      exact hcurr h0
    · exact ih (fun hn => .next (hcurr h0) hn) h

section Split
variable {m : PhysMem} {curr new size type : ℕ} (hcurr : m.Listed curr)
include hcurr

theorem splitAt_node_of_not_listed {p : ℕ} (hp : ¬m.Listed p) (hnew : p ≠ new) :
    (m.splitAt curr new size type).node p = m.node p := by
  have hne : p ≠ curr := by
    rintro rfl
    exact hp hcurr
  unfold PhysMem.splitAt PhysMem.modify PhysMem.relinkPrev
  dsimp only [PhysMem.set]
  rw [Function.update_of_ne hne]
  split
  · rename_i hnext
    have hne' : p ≠ (m.node curr).next := by
      intro heq
      rw [heq] at hp
      exact hp (.next hcurr hnext)
    dsimp only [PhysMem.modify, PhysMem.set]
    rw [Function.update_of_ne hne', Function.update_of_ne hnew]
  · dsimp only
    rw [Function.update_of_ne hnew]

theorem listed_of_splitAt {p : ℕ} (h : (m.splitAt curr new size type).Listed p) :
    m.Listed p ∨ p = new := by
  have hnext : ∀ a, ((m.splitAt curr new size type).node a).next =
      (m.links.insertAfter 0 curr new).next a := by
    intro a
    rw [← splitAt_links m curr new size type]
    rfl
  induction h with
  | first h0 =>
    rw [splitAt_firstBlock] at h0 ⊢
    exact Or.inl (.first h0)
  | @next a _ h0 ih =>
    rw [hnext] at h0 ⊢
    by_cases hac : a = curr
    · right
      change Function.update (Function.update m.links.next new (m.links.next curr)) curr new a = new
      rw [hac, Function.update_self]
    · have hlink : (m.links.insertAfter 0 curr new).next a =
          if a = new then (m.node curr).next else (m.node a).next := by
        change Function.update (Function.update m.links.next new (m.links.next curr)) curr new a = _
        rw [Function.update_of_ne hac, Function.update_apply]
        rfl
      rw [hlink] at h0 ⊢
      left
      split at h0
      · rename_i han
        rw [if_pos han]
        exact .next hcurr h0
      · rename_i han
        rw [if_neg han]
        exact .next (ih.resolve_right han) h0

end Split

/-- A reservation writes to listed nodes and to the new one. -/
theorem ListGrows.of_reserveBlock {k k' : Kernel} {bs : List Block} (hi : HeapInv k.heap bs)
    {n size type a : ℕ} (h : reserveBlock (kmalloc n) size type k = .ok (a, k')) :
    ListGrows k k' := by
  obtain ⟨c, hc, h⟩ := bind_eq_ok.mp h
  cases c with
  | none => cases h
  | some curr =>
    have hcurr := listed_of_walk (fun h0 => .first h0) hc
    obtain ⟨⟨node, k1⟩, hk1, h⟩ := bind_eq_ok.mp h
    injection h with h
    rw [Prod.mk.injEq] at h
    obtain ⟨-, rfl⟩ := h
    obtain ⟨hnew, -, hk1', hkept, -⟩ := hi.kmalloc_node hk1
    have hphys : k1.phys = k.phys := by rw [hk1']
    refine ⟨⟨hkept.keeps, fun p hp hl => ?_⟩, fun p hl => ?_⟩
    · have hne : p ≠ node := by
        rintro rfl
        exact hnew hp
      dsimp only
      rw [hphys, splitAt_node_of_not_listed hcurr hl hne]
    · dsimp only at hl
      rw [hphys] at hl
      obtain hold | rfl := listed_of_splitAt hcurr hl
      · exact Or.inl hold
      · exact Or.inr hnew

theorem ListGrows.of_mapMemory {k k' : Kernel} {bs : List Block} (hi : HeapInv k.heap bs)
    {n size virt pd : ℕ} (h : mapMemory (kmalloc n) size virt pd k = .ok k') : ListGrows k k' := by
  obtain ⟨⟨phys, k1⟩, hk1, h⟩ := bind_eq_ok.mp h
  obtain ⟨g, -, h⟩ := bind_eq_ok.mp h
  injection h with h
  subst h
  have hgrows := ListGrows.of_reserveBlock hi hk1
  exact ⟨⟨hgrows.heap, hgrows.node⟩, hgrows.listed⟩

theorem ListGrows.of_mapInProcesses {n : ℕ} {ps : List (Option Process)} {k k' : Kernel}
    {bs : List Block} (hi : HeapInv k.heap bs) (h : mapInProcesses (kmalloc n) ps k = .ok k') :
    ListGrows k k' := by
  induction ps generalizing k bs with
  | nil =>
    injection h with h
    rw [← h]
    exact .of_phys (Keeps.refl _) rfl
  | cons p ps ih =>
    cases p with
    | none => exact ih hi h
    | some p =>
      obtain ⟨k1, hk1, h⟩ := bind_eq_ok.mp h
      obtain ⟨⟨⟨bs1, hi1⟩, -⟩, -⟩ := (mapMemory_kept (smallAlloc_kmalloc n) hi).of_ok hk1
      exact (ListGrows.of_mapMemory hi hk1).trans (ih hi1 h)

theorem ListGrows.of_kheapExpand {n : ℕ} {k k' : Kernel} {bs : List Block} (hi : HeapInv k.heap bs)
    (h : kheapExpand (kmalloc n) k = .ok k') : ListGrows k k' := by
  rw [VkKernel.kheapExpand] at h
  split_ifs at h with hfull
  · cases h
  · obtain ⟨k1, hk1, h⟩ := bind_eq_ok.mp h
    obtain ⟨k2, hk2, h⟩ := bind_eq_ok.mp h
    obtain ⟨h3, hadd, h⟩ := bind_eq_ok.mp h
    injection h with h
    subst h
    obtain ⟨⟨⟨bs1, hi1⟩, -⟩, he1⟩ := (mapMemory_kept (smallAlloc_kmalloc n) hi).of_ok hk1
    obtain ⟨⟨⟨bs2, hi2⟩, -⟩, he2⟩ := (mapInProcesses_kept (smallAlloc_kmalloc n) _ hi1).of_ok hk2
    have hlt : k2.heap.baseEnd < freeKvmStart := by
      rw [he2, he1]
      exact Nat.lt_of_not_ge hfull
    have hkept := ((hi2.addBaseBlock_kept hlt).of_ok hadd).1
    have hlast : ListGrows k2 { k2 with heap := h3 } := .of_phys hkept.keeps rfl
    exact ((ListGrows.of_mapMemory hi hk1).trans (.of_mapInProcesses hi1 hk2)).trans hlast

theorem ListGrows.of_expanded {n : ℕ} {k k' : Kernel} (h : Expanded n k k') {bs : List Block}
    (hi : HeapInv k.heap bs) : ListGrows k k' := by
  induction h generalizing bs with
  | refl k => exact .of_phys (Keeps.refl _) rfl
  | @step k k1 k2 fuel _ hk1 _ _ ih =>
    obtain ⟨⟨⟨bs1, hi1⟩, -⟩, -⟩ := (kheapExpand_kept (smallAlloc_kmalloc fuel) hi).of_ok hk1
    exact (ListGrows.of_kheapExpand hi hk1).trans (ih hi1)

/-! ## Calls -/

/-- The payload that `kmalloc` returns: aligned, large enough, inside the heap, and apart
from every other live allocation and its header. -/
structure Payload (size p : ℕ) (h h' : Heap) : Prop where
  aligned : 4 ∣ p
  fresh : p ∉ h.live
  live : p ∈ h'.live
  enough : ∃ n, kheapGetSize p h' = .ok n ∧ size ≤ n
  inside : kheapBaseStart + 8 ≤ p ∧ p + h'.size (p - 8) ≤ h'.baseEnd
  apart : ∀ q ∈ h'.live, q ≠ p → q + h'.size (q - 8) ≤ p - 8 ∨ p + h'.size (p - 8) ≤ q - 8

/-- The header at `a` is that of the lowest free block with `size` bytes. -/
def LowestFit (h : Heap) (size a : ℕ) : Prop :=
  (∃ s, (a, s, 0) ∈ h.blocks ∧ size ≤ s) ∧ ∀ b ∈ h.blocks, b.2.2 = 0 → size ≤ b.2.1 → a ≤ b.1

theorem dvd_addr_of_tiles {a e : ℕ} {bs : List Block} (h : Tiles 8 a bs e) (ha : 4 ∣ a)
    (h4 : ∀ b ∈ bs, 4 ∣ b.size) : ∀ b ∈ bs, 4 ∣ b.addr := by
  induction bs generalizing a with
  | nil => exact fun b hb => absurd hb List.not_mem_nil
  | cons c cs ih =>
    obtain ⟨hc, ht⟩ := h
    have hsize := h4 c List.mem_cons_self
    have hstop : 4 ∣ c.stop 8 := by
      unfold Block.stop
      omega
    intro b hb
    cases hb with
    | head => rwa [hc]
    | tail _ hb => exact ih ht hstop (fun d hd => h4 d (List.mem_cons_of_mem _ hd)) b hb

/-- A block that is in use, as an allocation. -/
theorem HeapInv.payload {h : Heap} {bs : List Block} (hi : HeapInv h bs) {b : Block} (hb : b ∈ bs)
    (hu : b.used = true) {size : ℕ} (hs : size ≤ b.size) {h0 : Heap} (hfresh : b.addr + 8 ∉ h0.live) :
    Payload size (b.addr + 8) h0 h := by
  have h4 := dvd_addr_of_tiles hi.tiles (by decide) hi.aligned b hb
  have hsize := hi.size_eq hb
  have hbounds := hi.tiles.bounds.2 b hb
  have hmagic := (hi.headers b hb).magic
  refine ⟨by omega, hfresh, (hi.live _).mpr ⟨b, hb, hu, rfl⟩, ⟨b.size, ?_, hs⟩, ?_, fun q hq hne => ?_⟩
  · have hmagic' : h.magic (b.addr + 8 - 8) = blockHeaderMagic := by
      rw [Nat.add_sub_cancel]
      exact hmagic
    unfold kheapGetSize
    rw [sizeofBlockHeader]
    dsimp only
    rw [if_neg (not_not.mpr hmagic'), hsize]
  · rw [hsize]
    unfold Block.stop at hbounds
    omega
  · obtain ⟨c, hc, hcu, rfl⟩ := (hi.live q).mp hq
    have hcb : c ≠ b := by
      rintro rfl
      exact hne rfl
    have hapart := hi.tiles.apart hc hb hcb
    rw [hi.size_eq hc, hsize]
    unfold Block.stop at hapart
    omega

/-- Sizes of blocks are multiples of 4, so rounding up does not change which are large
enough. -/
theorem alignup_le_iff {size s : ℕ} (hs : size ≤ 0xFFFFFFFC) (h4 : 4 ∣ s) :
    alignup size 4 ≤ s ↔ size ≤ s := by
  rw [alignup_eq (by norm_num) (by omega)]
  omega

theorem Laid.mem_blocks {h : Heap} {bs : List Block} (hl : Laid h bs) {b : ℕ × ℕ × ℕ}
    (hb : b ∈ h.blocks) (hfree : b.2.2 = 0) :
    ∃ c ∈ bs, c.used = false ∧ b.1 = c.addr ∧ b.2.1 = c.size := by
  rw [hl.blocks_eq, List.mem_map] at hb
  obtain ⟨c, hc, rfl⟩ := hb
  refine ⟨c, hc, ?_, rfl, rfl⟩
  cases hu : c.used with
  | false => rfl
  | true =>
    dsimp only at hfree
    rw [hu, if_pos rfl] at hfree
    cases hfree

/-- The first block of the list with room is the lowest one. -/
theorem HeapInv.lowestFit {h : Heap} {bs : List Block} (hi : HeapInv h bs) {size : ℕ}
    (hs : size ≤ 0xFFFFFFFC) {b : Block} (hf : bs.find? (Block.fits (alignup size 4)) = some b) :
    LowestFit h size b.addr := by
  obtain ⟨hfit, xs, ys, rfl, hxs⟩ := List.find?_eq_some_iff_append.mp hf
  obtain ⟨hu, hsize⟩ := Block.fits_iff.mp hfit
  have hmem : b ∈ xs ++ b :: ys := List.mem_append_right _ List.mem_cons_self
  refine ⟨⟨b.size, ?_, (alignup_le_iff hs (hi.aligned b hmem)).mp hsize⟩, fun c hc hfree hcs => ?_⟩
  · rw [hi.blocks_eq, List.mem_map]
    refine ⟨b, hmem, ?_⟩
    rw [hu]
    rfl
  · obtain ⟨d, hd, hdu, haddr, hdsize⟩ := hi.mem_blocks hc hfree
    rw [hdsize, ← alignup_le_iff hs (hi.aligned d hd)] at hcs
    rw [haddr]
    obtain hdx | hdb := List.mem_append.mp hd
    · have := hxs d hdx
      rw [Block.fits_iff.mpr ⟨hdu, hcs⟩] at this
      cases this
    · obtain rfl | hdy := List.mem_cons.mp hdb
      · exact le_rfl
      · have hpair := List.pairwise_append.mp hi.tiles.pairwise
        have hlt := (List.pairwise_cons.mp hpair.2.1).1 d hdy
        unfold Block.stop at hlt
        omega

theorem Expanded.noRoom_of_ne {n : ℕ} {k k' : Kernel} (h : Expanded n k k')
    (hne : k'.heap.baseEnd ≠ k.heap.baseEnd) : k.heap.NoRoom n := by
  cases h with
  | refl => exact absurd rfl hne
  | step hno _ _ _ => exact hno

/-- What a call of `kmalloc` does: it returns the start of the lowest free block with
room, in a heap that has only grown while no free block had room. -/
structure Serves (size : ℕ) (k : Kernel) (p : ℕ) (k' : Kernel) : Prop where
  payload : Payload size p k.heap k'.heap
  lowest : ∃ k1, Expanded (alignup size 4) k k1 ∧ LowestFit k1.heap size (p - 8) ∧
    k'.heap.baseEnd = k1.heap.baseEnd
  grows : k'.heap.baseEnd ≠ k.heap.baseEnd → k.heap.NoRoom size
  keeps : KeepsAllocations k k'

theorem Allocated.serves {size p : ℕ} {k k' : Kernel} (h : Allocated size k p k')
    (hs : size ≤ 0xFFFFFFFC) {bs0 : List Block} (hi0 : HeapInv k.heap bs0) : Serves size k p k' := by
  obtain ⟨k1, bs, b, hexp, hi, hkeeps, hf, rfl, rfl⟩ := h
  have hlow := hi.lowestFit hs hf
  have hgrows := ListGrows.of_expanded hexp hi0
  have htake := hi.takeBlock_keeps hf (alignup_four hs).1
  obtain ⟨hfit, xs, ys, rfl, -⟩ := List.find?_eq_some_iff_append.mp hf
  obtain ⟨hu, hsize⟩ := Block.fits_iff.mp hfit
  have hmem : b ∈ xs ++ b :: ys := List.mem_append_right _ List.mem_cons_self
  obtain ⟨hi', -⟩ := HeapInv.takeBlock_inv xs _ hi hu hsize (alignup_four hs).1
  obtain ⟨c, hc, hcu, hca, hcs⟩ := exists_carve_used hsize
  have hc' : c ∈ xs ++ carve 8 b (alignup size 4) ++ ys :=
    List.mem_append_left _ (List.mem_append_right _ hc)
  -- a free block is no live allocation
  have hfresh : c.addr + 8 ∉ k.heap.live := by
    intro hlive
    obtain ⟨d, hd, hdu, heq⟩ := (hi.live _).mp (hkeeps _ hlive).1
    have hdb : d ≠ b := by
      rintro rfl
      rw [hu] at hdu
      cases hdu
    have hapart := hi.tiles.apart hd hmem hdb
    unfold Block.stop at hapart
    omega
  refine ⟨?_, ⟨k1, hexp, ?_, takeBlock_baseEnd⟩, fun hne => ?_, ?_⟩
  · have hpayload := hi'.payload hc' hcu ((alignup_four hs).2.1.trans hcs) hfresh
    rw [hca] at hpayload
    exact hpayload
  · rw [Nat.add_sub_cancel]
    exact hlow
  · have hno := hexp.noRoom_of_ne (takeBlock_baseEnd.symm.trans_ne hne)
    intro d hd hfree
    obtain ⟨e, he, -, -, hesize⟩ := hi0.mem_blocks hd hfree
    have hlt := hno d hd hfree
    rw [hesize] at hlt ⊢
    by_contra hge
    exact Nat.not_le_of_lt hlt ((alignup_le_iff hs (hi0.aligned e he)).mpr (Nat.le_of_not_lt hge))
  · have hlast : ListGrows k1 { k1 with heap := takeBlock k1.heap b.addr (alignup size 4) } :=
      .of_phys htake.keeps rfl
    exact (hgrows.trans hlast).toKeepsAllocations

/-- The kernel heap as an allocator, in every state of every run. -/
theorem heap_serves_of_reachable {k : Kernel} (hr : HeapReachable k) :
    (∀ fuel size p k', size ≤ 0xFFFFFFFC → kmalloc fuel size k = .ok (p, k') →
      Serves size k p k') ∧
    (∀ p ∈ k.heap.live, ∀ k', k.kfree p = .ok k' → k'.heap.baseEnd = k.heap.baseEnd ∧
      k'.phys = k.phys ∧ ∀ q ∈ k.heap.live, q ≠ p → q ∈ k'.heap.live ∧ KeepsAt k.heap k'.heap q) ∧
    ∀ fuel k', kheapExpand (kmalloc fuel) k = .ok k' → KeepsAllocations k k' := by
  obtain ⟨bs, hi⟩ := hr.inv
  refine ⟨fun fuel size p k' hs h => ?_, fun p hp k' h => ?_, fun fuel k' h => ?_⟩
  · exact ((kmalloc_holds hi hs).of_ok h).serves hs hi
  · obtain ⟨-, hend, hlive, hkeep, hk'⟩ := (hi.kfree_holds hp).of_ok h
    refine ⟨hend, by rw [hk'], fun q hq hne => ⟨?_, hkeep q hq hne⟩⟩
    rw [hlive]
    exact (List.mem_erase_of_ne hne).mpr hq
  · exact (ListGrows.of_kheapExpand hi h).toKeepsAllocations

/-- The first allocation of a run. -/
theorem heap_serves_first : Serves 20 installedKernel (kheapBaseStart + 8) { installedKernel with
    heap := takeBlock installedKernel.heap kheapBaseStart (alignup 20 4) } :=
  (heap_serves_of_reachable heapReachable_installedKernel).1 1 20 _ _ (by decide)
    (kmalloc_installed 0 20 (by decide))

/-- An allocation that makes the heap grow changes the size in the node of the free
memory, which is a live allocation. -/
theorem kmalloc_changes_payload : ∃ k p k', HeapReachable k ∧ kheapBaseStart + 8 ∈ k.heap.live ∧
    kmalloc 2 0x3FFFF8 k = .ok (p, k') ∧
    (k.phys.node (kheapBaseStart + 8)).size = 0x1000000 ∧
    (k'.phys.node (kheapBaseStart + 8)).size = 0x400000 := by
  obtain ⟨g, p, k', hclone, hk', -, -, hnode, -⟩ := kmalloc_grows
  obtain ⟨g', hclone', -, -, hcurrent, -⟩ := getKernelPdClone_oneBlock
  have hg : g = g' := by
    rw [hclone] at hclone'
    injection hclone' with hclone'
    rw [Prod.mk.injEq] at hclone'
    exact hclone'.2
  have hreach : HeapReachable (clonedKernel g) := by
    refine initialList_oneBlockKernel.heap.tail (.other rfl ?_)
    change g.currentPageDirectory = 0xC0300000
    rw [hg]
    exact hcurrent
  refine ⟨clonedKernel g, p, k', hreach, ?_, hk', ?_, hnode⟩
  · have hlive : (clonedKernel g).heap.live = [kheapBaseStart + 8] := takeBlock_live
    rw [hlive]
    exact List.mem_singleton_self _
  · have hold : (clonedKernel g).phys.node (kheapBaseStart + 8) =
        ⟨0x100000, 0x1000000, 0, 0, physFreeBlockType⟩ := by
      unfold clonedKernel oneBlockKernel
      simp only [Function.update_self]
    rw [hold]

end VkKernel
