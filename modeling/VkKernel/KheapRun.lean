import VkKernel.KmallocSpec

/-!
# Runs of the kernel heap

A run starts from the heap that `kheap_install` builds. Its steps are the calls
that return, and the writes of clients into their own payloads. The heap memory
is what the page directory in force maps there, so between two calls the rest of
the kernel may change, but not that directory. The allocations that growing the
heap makes on the way are `kmalloc` steps of their own.
-/

namespace VkKernel
open ByteMemory BlockLayout Outcome

/-- One completed call on the kernel heap, one byte written by the owner of an
allocation, or a change outside the heap. -/
inductive HeapStep : Kernel → Kernel → Prop
  | kmalloc {k k' : Kernel} {fuel size p : ℕ} : size ≤ 0xFFFFFFFC →
      kmalloc fuel size k = .ok (p, k') → HeapStep k k'
  | kfree {k k' : Kernel} {p : ℕ} : p ∈ k.heap.live → k.kfree p = .ok k' → HeapStep k k'
  | krealloc {k k' : Kernel} {fuel p newsize np : ℕ} : p ∈ k.heap.live → newsize ≤ 0xFFFFFFFC →
      krealloc fuel p newsize k = .ok (np, k') → HeapStep k k'
  | kheapExpand {k k' : Kernel} {fuel : ℕ} : kheapExpand (VkKernel.kmalloc fuel) k = .ok k' →
      HeapStep k k'
  | write {k : Kernel} {p x : ℕ} {v : UInt8} : p ∈ k.heap.live → p ≤ x →
      x < p + k.heap.size (p - 8) →
      HeapStep k { k with heap := { k.heap with mem := Function.update k.heap.mem x v } }
  | other {k k' : Kernel} : k'.heap = k.heap →
      k'.paging.currentPageDirectory = k.paging.currentPageDirectory → HeapStep k k'

/-- The states of the runs that start with `kheap_install`. -/
def HeapReachable (k : Kernel) : Prop :=
  ∃ k0 h, k0.heap = kheapInstall h ∧ Relation.ReflTransGen HeapStep k0 k

/-! ## One step keeps the invariant -/

theorem HeapInv.kfree_holds {k : Kernel} {bs : List Block} (hi : HeapInv k.heap bs) {p : ℕ}
    (hp : p ∈ k.heap.live) :
    Holds (k.kfree p) (fun k' => HeapInv k'.heap (coalesce 8 (release [p - 8] bs)) ∧
      k'.heap.baseEnd = k.heap.baseEnd ∧ k'.heap.live = k.heap.live.erase p ∧
      (∀ q ∈ k.heap.live, q ≠ p → KeepsAt k.heap k'.heap q) ∧
      k' = { k with heap := k'.heap }) Stop.Clean := by
  obtain ⟨h', hr, hi', he, hl, hk⟩ := hi.kfree_ok hp
  rw [Kernel.kfree, hr, ok_bind, holds_ok]
  refine ⟨hi', he, hl, ?_, rfl⟩
  intro q hq hqp
  obtain ⟨b, hb, hu, rfl⟩ := (hi.live q).mp hq
  exact hi.keepsAt hb (hk b hb hu hqp)

theorem krealloc_holds {fuel p newsize : ℕ} {k : Kernel} {bs : List Block}
    (hi : HeapInv k.heap bs) (hp : p ∈ k.heap.live) (hn : newsize ≤ 0xFFFFFFFC) :
    Holds (krealloc fuel p newsize k) (fun r => ∃ bs', HeapInv r.2.heap bs') Stop.Clean := by
  unfold krealloc
  dsimp only
  split_ifs with hless
  · exact clean_fatal (by decide)
  · rw [holds_bind]
    refine (kmalloc_holds hi hn).mono (fun r hr => ?_) (fun e h => h)
    obtain ⟨bs1, b, hi1, hb, -, hpb, hsize⟩ := hr.block hn
    obtain ⟨hp1, hkeep⟩ := (hr.kept hn).keeps p hp
    -- the copy ends inside the new block, whose size is at least the old one
    have hcopy : HeapInv (r.2.heap.copy r.1 p (r.2.heap.size (p - sizeofBlockHeader))) bs1 := by
      have hle := (alignup_four hn).2.1
      have hold : r.2.heap.size (p - sizeofBlockHeader) = k.heap.size (p - 8) := hkeep.size
      rw [sizeofBlockHeader] at hless
      rw [hold]
      refine hi1.write_inv hb fun x hx => copy_apply_of_lt ?_
      simp only [Block.stop] at hx
      omega
    rw [holds_bind]
    exact (HeapInv.kfree_holds (k := { r.2 with heap := _ }) hcopy hp1).mono
      (fun k' hk' => ⟨_, hk'.1⟩) (fun e h => h)

theorem HeapStep.inv {k k' : Kernel} (hs : HeapStep k k') {bs : List Block}
    (hi : HeapInv k.heap bs) : ∃ bs', HeapInv k'.heap bs' := by
  cases hs with
  | kmalloc hsize h => exact (((kmalloc_holds hi hsize).of_ok h).kept hsize).inv
  | kfree hp h => exact ⟨_, ((hi.kfree_holds hp).of_ok h).1⟩
  | krealloc hp hn h => exact (krealloc_holds hi hp hn).of_ok h
  | kheapExpand h => exact ((kheapExpand_kept (smallAlloc_kmalloc _) hi).of_ok h).1.inv
  | write hp hx hx' =>
    obtain ⟨b, hb, -, rfl⟩ := (hi.live _).mp hp
    rw [hi.size_eq hb] at hx'
    refine ⟨bs, hi.write_inv hb fun y hy => Function.update_of_ne ?_ _ _⟩
    simp only [Block.stop] at hy
    omega
  | other hh _ => exact ⟨bs, hh ▸ hi⟩

theorem HeapReachable.inv {k : Kernel} (hr : HeapReachable k) : ∃ bs, HeapInv k.heap bs := by
  obtain ⟨k0, h, h0, hrun⟩ := hr
  induction hrun with
  | refl => exact ⟨_, h0 ▸ heapInv_kheapInstall h⟩
  | tail _ hstep ih =>
    obtain ⟨bs, hi⟩ := ih
    exact hstep.inv hi

/-! ## Calls that complete -/

/-- Some free block of the heap has `n` bytes. -/
def Heap.Room (h : Heap) (n : ℕ) : Prop := ∃ bs b, HeapInv h bs ∧ b ∈ bs ∧ b.used = false ∧ n ≤ b.size

theorem Heap.Room.mono {h : Heap} {m n : ℕ} (hr : h.Room n) (hmn : m ≤ n) : h.Room m := by
  obtain ⟨bs, b, hi, hb, hu, hn⟩ := hr
  exact ⟨bs, b, hi, hb, hu, hmn.trans hn⟩

theorem Heap.Room.kfree {h h' : Heap} {p n : ℕ} (hr : h.Room n) (hp : p ∈ h.live)
    (hk : VkKernel.kfree p h = .ok h') : h'.Room n := by
  obtain ⟨bs, b, hi, hb, hu, hn⟩ := hr
  obtain ⟨h1, hr1, hi1, -⟩ := hi.kfree_ok hp
  rw [hk] at hr1
  injection hr1 with hr1
  subst hr1
  have hb' : b ∈ release [p - 8] bs := List.mem_map.mpr ⟨b, hb, Block.release_of_free hu _⟩
  obtain ⟨c, hc, hcu, hle⟩ := exists_free_coalesce 8 hb' hu
  exact ⟨_, c, hi1, hc, hcu, hn.trans hle⟩

/-- With room to spare, a small allocation completes and leaves room. -/
theorem kmalloc_of_room {k : Kernel} {n : ℕ} (hr : k.heap.Room (n + 32)) :
    ∃ p k', kmalloc 1 sizeofPBlock k = .ok (p, k') ∧ k'.heap.Room n := by
  obtain ⟨bs, b, hi, hb, hu, hn⟩ := hr
  have h20 : alignup sizeofPBlock 4 = 20 := alignup_of_dvd (by decide)
  have hfit : (bs.find? (Block.fits 20)).isSome := by
    rw [List.find?_isSome]
    exact ⟨b, hb, Block.fits_iff.mpr ⟨hu, by omega⟩⟩
  obtain ⟨c, hc⟩ := Option.isSome_iff_exists.mp hfit
  refine ⟨c.addr + 8, { k with heap := takeBlock k.heap c.addr 20 }, ?_, ?_⟩
  · rw [kmalloc_succ hi, h20, hc]
  · obtain ⟨hcfit, xs, ys, rfl, -⟩ := List.find?_eq_some_iff_append.mp hc
    obtain ⟨hcu, hc20⟩ := Block.fits_iff.mp hcfit
    have hi' := (HeapInv.takeBlock_inv _ _ hi hcu hc20 (by decide)).1
    by_cases hcb : c = b
    · -- the block with room is the one that is carved
      subst hcb
      have hcarve : carve 8 c 20 = [⟨c.addr, 20, true⟩, ⟨c.addr + 8 + 20, c.size - 20 - 8, false⟩] := by
        rw [carve, if_pos (by omega)]
      rw [hcarve] at hi'
      refine ⟨_, ⟨c.addr + 8 + 20, c.size - 20 - 8, false⟩, hi', by simp, rfl, ?_⟩
      dsimp only
      omega
    · refine ⟨_, b, hi', ?_, hu, by omega⟩
      simp only [List.mem_append, List.mem_cons, Ne.symm hcb, false_or] at hb ⊢
      tauto

theorem room_installed (h : Heap) : (kheapInstall h).Room 0x3FFFF8 :=
  ⟨_, _, heapInv_kheapInstall h, List.mem_singleton_self _, rfl, by decide⟩

/-! ## Tiling -/

/-- A kernel whose heap has just been installed over zero memory. -/
def installedKernel : Kernel where
  heap := kheapInstall ⟨fun _ => 0, 0, []⟩
  phys := ⟨0, fun _ => PBlock.zero⟩
  paging := ⟨fun _ => 0, fun _ => false, 0xC0300000, 0xC0300000, true⟩
  ram := fun _ => 0
  processes := [none]
  processesAddr := 0
  currentProcess := 0
  groups := fun _ => []
  fdInstances := fun _ => 0

/-- The first allocation of a run takes the start of the only block. -/
theorem kmalloc_installed (n size : ℕ) (hs : alignup size 4 ≤ 0x3FFFF8) :
    kmalloc (n + 1) size installedKernel = .ok (kheapBaseStart + 8, { installedKernel with
      heap := takeBlock installedKernel.heap kheapBaseStart (alignup size 4) }) := by
  rw [kmalloc_succ (heapInv_kheapInstall _), List.find?_cons,
    Block.fits_iff.mpr ⟨rfl, by simpa [kheapBaseSize] using hs⟩]

theorem HeapReachable.tail {k k' : Kernel} (hr : HeapReachable k) (hs : HeapStep k k') :
    HeapReachable k' := by
  obtain ⟨k0, h, h0, hrun⟩ := hr
  exact ⟨k0, h, h0, hrun.tail hs⟩

theorem heapReachable_installedKernel : HeapReachable installedKernel := ⟨_, _, rfl, .refl⟩

/-- After every completed call the headers tile the heap, carry the magic number
and have sizes divisible by 4, and no two neighbours are free. So no call on a
live pointer reports an unknown block. -/
theorem heap_tiles_of_reachable {k : Kernel} (hr : HeapReachable k) :
    (∃ bs, Tiles 8 kheapBaseStart bs k.heap.baseEnd ∧ (∀ b ∈ bs, HeaderAt k.heap.mem b) ∧
      (∀ b ∈ bs, 4 ∣ b.size) ∧ Canonical bs) ∧
    (∀ fuel size context, size ≤ 0xFFFFFFFC →
      kmalloc fuel size k ≠ .error (.fatal unknownBlockErrmsg context)) ∧
    (∀ p ∈ k.heap.live, ∀ context, k.kfree p ≠ .error (.fatal unknownBlockErrmsg context)) ∧
    (∀ p ∈ k.heap.live, ∀ fuel newsize context, newsize ≤ 0xFFFFFFFC →
      krealloc fuel p newsize k ≠ .error (.fatal unknownBlockErrmsg context)) ∧
    ∀ context, mergeFreeBlocks k.heap ≠ .error (.fatal unknownBlockErrmsg context) := by
  obtain ⟨bs, hi⟩ := hr.inv
  refine ⟨⟨bs, hi.tiles, hi.headers, hi.aligned, hi.canonical⟩, ?_, ?_, ?_, ?_⟩
  · intro fuel size context hs h
    exact (kmalloc_holds hi hs).of_error h context rfl
  · intro p hp context h
    exact (hi.kfree_holds hp).of_error h context rfl
  · intro p hp fuel newsize context hn h
    exact (krealloc_holds hi hp hn).of_error h context rfl
  · intro context h
    obtain ⟨h', hr', -⟩ := hi.toLaid.mergeFreeBlocks_ok
    rw [hr'] at h
    cases h

/-- The state after a first allocation of 20 bytes. -/
theorem heap_tiles_after_kmalloc :
    ∃ bs, Tiles 8 kheapBaseStart bs (kheapBaseStart + kheapBaseSize) ∧
      ∀ b ∈ bs, HeaderAt (takeBlock installedKernel.heap kheapBaseStart 20).mem b := by
  have hstep := HeapStep.kmalloc (by decide) (kmalloc_installed 0 20 (by decide))
  obtain ⟨⟨bs, ht, hh, -⟩, -⟩ :=
    heap_tiles_of_reachable (heapReachable_installedKernel.tail hstep)
  refine ⟨bs, ?_, hh⟩
  rw [takeBlock_baseEnd] at ht
  exact ht

/-! ## The order of frees -/

/-- Free a list of pointers one after the other. -/
def kfreeAll : List ℕ → Heap → Result Heap
  | [], h => .ok h
  | p :: ps, h => do
    let h ← kfree p h
    kfreeAll ps h

/-- The layout that freeing a list of live pointers leaves depends on the set of
pointers only: their blocks are released, and the result is coalesced. -/
theorem kfreeAll_ok {ps : List ℕ} {h : Heap} {bs : List Block} (hi : HeapInv h bs)
    (hp : ∀ p ∈ ps, p ∈ h.live) (hd : ps.Nodup) :
    ∃ h', kfreeAll ps h = .ok h' ∧ HeapInv h' (coalesce 8 (release (ps.map (· - 8)) bs)) := by
  induction ps generalizing h bs with
  | nil =>
    refine ⟨h, rfl, ?_⟩
    rw [List.map_nil, release_nil, coalesce_of_canonical hi.canonical]
    exact hi
  | cons p ps ih =>
    obtain ⟨hnot, hd'⟩ := List.nodup_cons.mp hd
    obtain ⟨h1, hr1, hi1, -, hl1, -⟩ := hi.kfree_ok (hp p List.mem_cons_self)
    have hlive : ∀ q ∈ ps, q ∈ h1.live := by
      intro q hq
      rw [hl1, hi.nodup.mem_erase_iff]
      exact ⟨fun h => hnot (h ▸ hq), hp q (List.mem_cons_of_mem _ hq)⟩
    obtain ⟨h', hr, hi'⟩ := ih hi1 hlive hd'
    rw [coalesce_release_coalesce, release_release] at hi'
    refine ⟨h', ?_, hi'⟩
    rw [kfreeAll, hr1, ok_bind, hr]

/-- Releasing every live pointer leaves no used block. -/
theorem HeapInv.release_live {h : Heap} {bs : List Block} (hi : HeapInv h bs) {ps : List ℕ}
    (hall : ∀ p ∈ h.live, p ∈ ps) : ∀ b ∈ release (ps.map (· - 8)) bs, b.used = false := by
  intro b hb
  obtain ⟨c, hc, rfl⟩ := List.mem_map.mp hb
  unfold Block.release
  split_ifs with hmem
  · rfl
  · by_contra hu
    have hlive := (hi.live _).mpr ⟨c, hc, by simpa using hu, rfl⟩
    exact hmem (List.mem_map.mpr ⟨_, hall _ hlive, Nat.add_sub_cancel _ _⟩)

/-- Freeing the same live pointers in two orders leaves the same blocks, and
freeing all of them leaves one free block over the whole heap. -/
theorem kfreeAll_order {k : Kernel} (hr : HeapReachable k) {ps qs : List ℕ}
    (hp : ∀ p ∈ ps, p ∈ k.heap.live) (hd : ps.Nodup) (hq : qs.Perm ps) :
    ∃ h1 h2, kfreeAll ps k.heap = .ok h1 ∧ kfreeAll qs k.heap = .ok h2 ∧
      h1.blocks = h2.blocks ∧ h1.baseEnd = k.heap.baseEnd ∧
      ((∀ p ∈ k.heap.live, p ∈ ps) → h1.blocks =
        [(kheapBaseStart, h1.baseEnd - (kheapBaseStart + sizeofBlockHeader), 0)]) := by
  obtain ⟨bs, hi⟩ := hr.inv
  obtain ⟨h1, hr1, hi1⟩ := kfreeAll_ok hi hp hd
  obtain ⟨h2, hr2, hi2⟩ := kfreeAll_ok hi (fun p h => hp p (hq.mem_iff.mp h)) (hq.nodup_iff.mpr hd)
  have hsame : release (qs.map (· - 8)) bs = release (ps.map (· - 8)) bs :=
    release_congr (fun p => (hq.map _).mem_iff) bs
  have hend : h1.baseEnd = k.heap.baseEnd :=
    hi1.tiles.stop_unique (tiles_coalesce (tiles_release hi.tiles _))
  refine ⟨h1, h2, hr1, hr2, ?_, hend, ?_⟩
  · rw [hi1.blocks_eq, hi2.blocks_eq, hsame]
  · intro hall
    have hne : release (ps.map (· - 8)) bs ≠ [] := by
      have hlt := hi.start_lt
      intro hnil
      have ht := tiles_release hi.tiles (ps.map (· - 8))
      rw [hnil] at ht
      exact hlt.ne ht
    have hone := coalesce_of_free (tiles_release hi.tiles _) hne (hi.release_live hall)
    rw [hi1.blocks_eq, hone, hend]
    rfl

/-- A second allocation, after a first one of 20 bytes. -/
theorem kmalloc_second (n size : ℕ) (hs : alignup size 4 ≤ 0x3FFFDC) :
    kmalloc (n + 1) size { installedKernel with
      heap := takeBlock installedKernel.heap kheapBaseStart 20 } =
    .ok (kheapBaseStart + 36, { installedKernel with
      heap := takeBlock (takeBlock installedKernel.heap kheapBaseStart 20)
        (kheapBaseStart + 28) (alignup size 4) }) := by
  have hi : HeapInv (takeBlock installedKernel.heap kheapBaseStart 20)
      [⟨kheapBaseStart, 20, true⟩, ⟨kheapBaseStart + 28, 0x3FFFDC, false⟩] :=
    (HeapInv.takeBlock_inv [] 20 (heapInv_kheapInstall _) rfl (by decide) (by decide)).1
  rw [kmalloc_succ (k := { installedKernel with
    heap := takeBlock installedKernel.heap kheapBaseStart 20 }) hi]
  have hused : Block.fits (alignup size 4) ⟨kheapBaseStart, 20, true⟩ = false := rfl
  have hfree : Block.fits (alignup size 4) ⟨kheapBaseStart + 28, 0x3FFFDC, false⟩ = true :=
    Block.fits_iff.mpr ⟨rfl, hs⟩
  rw [List.find?_cons, hused, List.find?_cons, hfree]

/-- Two allocations freed in either order. -/
theorem kfreeAll_order_of_two : ∃ k : Kernel, ∃ p q h1 h2, p ≠ q ∧ k.heap.live = [q, p] ∧
    kfreeAll [p, q] k.heap = .ok h1 ∧ kfreeAll [q, p] k.heap = .ok h2 ∧ h1.blocks = h2.blocks ∧
    h1.blocks = [(kheapBaseStart, h1.baseEnd - (kheapBaseStart + sizeofBlockHeader), 0)] := by
  have hstep := HeapStep.kmalloc (by decide) (kmalloc_installed 0 20 (by decide))
  have hstep' := HeapStep.kmalloc (by decide) (kmalloc_second 0 100 (by decide))
  have hr := (heapReachable_installedKernel.tail hstep).tail hstep'
  generalize hk : ({ installedKernel with heap := _ } : Kernel) = k at hr
  have hlive : k.heap.live = [kheapBaseStart + 36, kheapBaseStart + 8] := by
    rw [← hk]
    dsimp only
    rw [takeBlock_live, takeBlock_live]
    rfl
  have hperm : [kheapBaseStart + 36, kheapBaseStart + 8].Perm
      [kheapBaseStart + 8, kheapBaseStart + 36] := .swap _ _ _
  obtain ⟨h1, h2, hr1, hr2, heq, -, hone⟩ := kfreeAll_order hr
    (by rw [hlive]; decide) (by decide) hperm
  refine ⟨k, _, _, h1, h2, by decide, hlive, hr1, hr2, heq, hone ?_⟩
  rw [hlive]
  decide

end VkKernel
