import VkKernel.KheapAllocator

/-!
# Growing an allocation

`krealloc` refuses to move a block to one with less space. It compares the new size with the
size of the block, which can be larger than the size that was asked for.
-/

namespace VkKernel
open ByteMemory BlockLayout Outcome

/-- `p` is what a `kmalloc` of `r` bytes has returned, and has not been released since. -/
inductive Obtained (r p : ℕ) : Kernel → Prop
  | kmalloc {k k' : Kernel} {fuel : ℕ} : HeapReachable k → r ≤ 0xFFFFFFFC →
      kmalloc fuel r k = .ok (p, k') → Obtained r p k'
  | step {k k' : Kernel} : Obtained r p k → HeapStep k k' → p ∈ k'.heap.live → Obtained r p k'

/-- The heap has a block of `n` bytes, or gets one when it grows. -/
def Supplies (n : ℕ) (k : Kernel) : Prop := ∃ fuel p k', kmalloc fuel n k = .ok (p, k')

/-- What a call of `krealloc` that returns `np` has done. The nodes of the physical memory list
are allocations of `physical.c`, which updates them when the heap grows. -/
structure Reallocated (r p n np : ℕ) (k k' : Kernel) : Prop where
  live : np ∈ k'.heap.live
  enough : ∃ s, kheapGetSize np k'.heap = .ok s ∧ n ≤ s
  contents : ∀ x < r, k'.heap.mem (np + x) = k.heap.mem (p + x)
  released : p ∉ k'.heap.live
  others : ∀ q ∈ k.heap.live, q ≠ p → q ∈ k'.heap.live ∧ KeepsAt k.heap k'.heap q
  nodes : ∀ q ∈ k.heap.live, ¬k.phys.Listed q → k'.phys.node q = k.phys.node q
  phys : ¬k.heap.NoRoom (alignup n 4) → k'.phys = k.phys

/-! ## A call that returns -/

/-- The copy ends inside the new block. -/
theorem HeapInv.copy_keepsAt {h : Heap} {bs : List Block} (hi : HeapInv h bs) {b : Block} (hb : b ∈ bs)
    {src n q : ℕ} (hn : n ≤ b.size) (hq : q ∈ h.live) (hne : q ≠ b.addr + 8) :
    KeepsAt h (h.copy (b.addr + 8) src n) q := by
  obtain ⟨c, hc, -, rfl⟩ := (hi.live q).mp hq
  have hcb : c ≠ b := by
    rintro rfl
    exact hne rfl
  have hapart := hi.tiles.apart hc hb hcb
  apply hi.keepsAt hc
  intro x hx hx'
  apply copy_apply_of_lt
  unfold Block.stop at hapart hx'
  omega

theorem HeapInv.copy_inv {h : Heap} {bs : List Block} (hi : HeapInv h bs) {b : Block} (hb : b ∈ bs)
    {src n : ℕ} (hn : n ≤ b.size) : HeapInv (h.copy (b.addr + 8) src n) bs := by
  apply hi.write_inv hb
  intro x hx
  apply copy_apply_of_lt
  unfold Block.stop at hx
  omega

/-- `krealloc` completes if the block is no larger than the new size. -/
theorem krealloc_of_le {fuel p n np : ℕ} {k k1 : Kernel} {bs : List Block} (hi : HeapInv k.heap bs)
    (hp : p ∈ k.heap.live) (hn : n ≤ 0xFFFFFFFC) (hle : k.heap.size (p - 8) ≤ n)
    (hm : kmalloc fuel n k = .ok (np, k1)) :
    ∃ k', krealloc fuel p n k = .ok (np, k') ∧ Reallocated (k.heap.size (p - 8)) p n np k k' := by
  have halloc := (kmalloc_holds hi hn).of_ok hm
  have hserves := halloc.serves hn hi
  obtain ⟨bs1, b, hi1, hb, hbu, hpb, hsize⟩ := halloc.block hn
  dsimp only at hpb
  have hkeeps := (halloc.kept hn).keeps
  obtain ⟨hp1, hkeep1⟩ := hkeeps p hp
  have hfit : k1.heap.size (p - 8) ≤ b.size := by
    rw [hkeep1.size]
    exact hle.trans ((alignup_four hn).2.1.trans hsize)
  have hcopy := @HeapInv.copy_inv _ _ hi1 b hb p _ hfit
  have hnew : p ≠ np := by
    rintro rfl
    exact hserves.payload.fresh hp
  obtain ⟨h', hfree, -, -, hlive, hused⟩ := hcopy.kfree_ok hp1
  have hlast : ∀ c ∈ bs1, c.used = true → c.addr + 8 ≠ p →
      KeepsAt (k1.heap.copy (b.addr + 8) p (k1.heap.size (p - 8))) h' (c.addr + 8) :=
    fun c hc hcu hne => hcopy.keepsAt hc (hused c hc hcu hne)
  have hnp := hlast b hb hbu (hpb ▸ hnew.symm)
  refine ⟨{ k1 with heap := h' }, ?_, ?_, ?_, ?_, ?_, ?_, ?_, ?_⟩
  · unfold krealloc
    rw [sizeofBlockHeader]
    dsimp only
    rw [if_neg (not_lt.mpr hle), hm, ok_bind, hpb]
    dsimp only
    rw [Kernel.kfree, hfree]
    rfl
  · dsimp only
    rw [hlive, List.mem_erase_of_ne hnew.symm]
    exact hserves.payload.live
  · refine ⟨b.size, ?_, (alignup_four hn).2.1.trans hsize⟩
    have hmagic : h'.magic (np - 8) = blockHeaderMagic := by
      rw [hpb, hnp.magic, Nat.add_sub_cancel]
      exact (hcopy.headers b hb).magic
    have hbsize : h'.size (np - 8) = b.size := by
      rw [hpb, hnp.size]
      exact hcopy.size_eq hb
    unfold kheapGetSize
    rw [sizeofBlockHeader]
    dsimp only
    rw [if_neg (not_not_intro hmagic), hbsize]
  · intro x hx
    have hbyte := hnp.payload (b.addr + 8 + x) (by omega) (by
      rw [hcopy.size_eq hb]
      rw [hkeep1.size] at hfit
      omega)
    dsimp only
    rw [hpb, hbyte]
    change ByteMemory.copy k1.heap.mem (b.addr + 8) p _ (b.addr + 8 + x) = _
    rw [copy_apply_of_mem (by rwa [hkeep1.size])]
    exact hkeep1.payload (p + x) (by omega) (by omega)
  · dsimp only
    rw [hlive]
    exact hi1.nodup.not_mem_erase
  · intro q hq hqp
    obtain ⟨hq1, hkeepq⟩ := hkeeps q hq
    have hqnp : q ≠ b.addr + 8 := by
      rintro rfl
      exact hserves.payload.fresh (hpb ▸ hq)
    refine ⟨?_, ?_⟩
    · dsimp only
      rw [hlive]
      exact (List.mem_erase_of_ne hqp).mpr hq1
    · have hcopied := @HeapInv.copy_keepsAt _ _ hi1 b hb p _ q hfit hq1 hqnp
      obtain ⟨c, hc, hcu, rfl⟩ := (hi1.live q).mp hq1
      exact (hkeepq.trans hcopied).trans (hlast c hc hcu hqp)
  · exact hserves.keeps.node
  · intro hroom
    obtain ⟨k2, bs2, c, hexp, -, -, -, -, rfl⟩ := halloc
    cases hexp with
    | refl => rfl
    | step hno _ _ _ => exact absurd hno hroom

theorem krealloc_of_lt {fuel p n : ℕ} {k : Kernel} (hlt : n < k.heap.size (p - 8)) :
    krealloc fuel p n k = .error (.fatal "Reallocating less space ?!" "KREALLOC") := by
  unfold krealloc
  rw [sizeofBlockHeader]
  exact if_pos hlt

theorem krealloc_reallocated {fuel p n np : ℕ} {k k' : Kernel} {bs : List Block} (hi : HeapInv k.heap bs)
    (hp : p ∈ k.heap.live) (hn : n ≤ 0xFFFFFFFC) (h : krealloc fuel p n k = .ok (np, k')) :
    k.heap.size (p - 8) ≤ n ∧ Reallocated (k.heap.size (p - 8)) p n np k k' := by
  have hle : k.heap.size (p - 8) ≤ n := by
    by_contra hlt
    rw [krealloc_of_lt (not_le.mp hlt)] at h
    cases h
  have hrun := h
  unfold krealloc at hrun
  rw [sizeofBlockHeader] at hrun
  dsimp only at hrun
  rw [if_neg (not_lt.mpr hle)] at hrun
  obtain ⟨⟨np1, k1⟩, hm, -⟩ := bind_eq_ok.mp hrun
  obtain ⟨k2, hk2, hre⟩ := krealloc_of_le hi hp hn hle hm
  rw [h] at hk2
  injection hk2 with hk2
  rw [Prod.mk.injEq] at hk2
  rw [hk2.1, hk2.2]
  exact ⟨hle, hre⟩

/-! ## The size of a live block -/

/-- A live allocation keeps its size in every step behind which it is live. -/
theorem HeapStep.size_eq {k k' : Kernel} (hs : HeapStep k k') {bs : List Block} (hi : HeapInv k.heap bs)
    {p : ℕ} (hp : p ∈ k.heap.live) (hp' : p ∈ k'.heap.live) :
    k'.heap.size (p - 8) = k.heap.size (p - 8) := by
  cases hs with
  | kmalloc hsize h => exact ((((kmalloc_holds hi hsize).of_ok h).kept hsize).keeps p hp).2.size
  | kfree hq h =>
    obtain ⟨-, -, hlive, hkeep, -⟩ := (hi.kfree_holds hq).of_ok h
    refine (hkeep p hp ?_).size
    rintro rfl
    rw [hlive] at hp'
    exact hi.nodup.not_mem_erase hp'
  | krealloc hq hn h =>
    obtain ⟨-, hre⟩ := krealloc_reallocated hi hq hn h
    refine (hre.others p hp ?_).2.size
    rintro rfl
    exact hre.released hp'
  | kheapExpand h =>
    exact (((kheapExpand_kept (smallAlloc_kmalloc _) hi).of_ok h).1.keeps p hp).2.size
  | @write q x v hq hx hx' =>
    obtain ⟨b, hb, -, rfl⟩ := (hi.live _).mp hq
    rw [hi.size_eq hb] at hx'
    obtain ⟨c, hc, -, rfl⟩ := (hi.live _).mp hp
    have hwritten : HeapInv { k.heap with mem := Function.update k.heap.mem x v } bs := by
      apply hi.write_inv hb
      intro y hy
      apply Function.update_of_ne
      unfold Block.stop at hy
      omega
    rw [hi.size_eq hc]
    exact hwritten.size_eq hc
  | other hh _ => rw [hh]

theorem Obtained.reachable {r p : ℕ} {k : Kernel} (h : Obtained r p k) : HeapReachable k := by
  induction h with
  | kmalloc hk hr h => exact hk.tail (.kmalloc hr h)
  | step _ hs _ ih => exact ih.tail hs

/-- The block of an allocation has the bytes that were asked for. -/
theorem Obtained.live_le {r p : ℕ} {k : Kernel} (h : Obtained r p k) :
    p ∈ k.heap.live ∧ r ≤ k.heap.size (p - 8) := by
  induction h with
  | kmalloc hk hr h =>
    obtain ⟨bs, hi⟩ := hk.inv
    have halloc := (kmalloc_holds hi hr).of_ok h
    obtain ⟨bs1, b, hi1, hb, -, hpb, hsize⟩ := halloc.block hr
    refine ⟨(halloc.serves hr hi).payload.live, ?_⟩
    dsimp only at hpb
    rw [hpb, hi1.size_eq hb]
    exact (alignup_four hr).2.1.trans hsize
  | step hk hs hp ih =>
    obtain ⟨bs, hi⟩ := hk.reachable.inv
    refine ⟨hp, ?_⟩
    rw [hs.size_eq hi ih.1 hp]
    exact ih.2

/-! ## All calls -/

/-- An allocation of `r` bytes grows to `n` bytes: `krealloc` returns, and does what it should. -/
def GrowsTo (r p n : ℕ) (k : Kernel) : Prop :=
  ∃ fuel np k', krealloc fuel p n k = .ok (np, k') ∧ Reallocated r p n np k k'

/-- An allocation grows exactly if its block is no larger than the new size. -/
theorem krealloc_grows_iff {r p n : ℕ} {k : Kernel} (hp : Obtained r p k) (hn : n ≤ 0xFFFFFFFC)
    (hs : Supplies n k) : GrowsTo r p n k ↔ k.heap.size (p - 8) ≤ n := by
  obtain ⟨bs, hi⟩ := hp.reachable.inv
  obtain ⟨hlive, hle⟩ := hp.live_le
  constructor
  · rintro ⟨fuel, np, k', h, -⟩
    exact (krealloc_reallocated hi hlive hn h).1
  · intro hsize
    obtain ⟨fuel, np, k1, hm⟩ := hs
    obtain ⟨k', hk', hre⟩ := krealloc_of_le hi hlive hn hsize hm
    refine ⟨fuel, np, k', hk', ?_⟩
    exact { hre with contents := fun x hx => hre.contents x (hx.trans_le hle) }

theorem supplies_of_room {n : ℕ} {k : Kernel} (hr : k.heap.Room (alignup n 4)) : Supplies n k := by
  obtain ⟨bs, b, hi, hb, hu, hle⟩ := hr
  have hfit : (bs.find? (Block.fits (alignup n 4))).isSome := by
    rw [List.find?_isSome]
    exact ⟨b, hb, Block.fits_iff.mpr ⟨hu, hle⟩⟩
  obtain ⟨c, hc⟩ := Option.isSome_iff_exists.mp hfit
  refine ⟨1, c.addr + 8, { k with heap := takeBlock k.heap c.addr (alignup n 4) }, ?_⟩
  rw [kmalloc_succ hi, hc]

/-- The state after a first allocation. -/
def firstAllocation (r : ℕ) : Kernel :=
  { installedKernel with heap := takeBlock installedKernel.heap kheapBaseStart (alignup r 4) }

theorem obtained_firstAllocation {r : ℕ} (hr : alignup r 4 ≤ 0x3FFFF8) (hr' : r ≤ 0xFFFFFFFC) :
    Obtained r (kheapBaseStart + 8) (firstAllocation r) :=
  .kmalloc heapReachable_installedKernel hr' (kmalloc_installed 0 r hr)

theorem heapInv_firstAllocation {r : ℕ} (hr : alignup r 4 + 8 < 0x3FFFF8) (h4 : 4 ∣ alignup r 4) :
    HeapInv (firstAllocation r).heap [⟨kheapBaseStart, alignup r 4, true⟩,
      ⟨kheapBaseStart + 8 + alignup r 4, 0x3FFFF8 - alignup r 4 - 8, false⟩] := by
  have hsize : alignup r 4 ≤ 0x3FFFF8 := by omega
  have hinit : HeapInv installedKernel.heap ([] ++ [⟨kheapBaseStart, 0x3FFFF8, false⟩]) :=
    heapInv_kheapInstall _
  have hi := (HeapInv.takeBlock_inv [] (alignup r 4) hinit rfl hsize h4).1
  rw [carve, if_pos (show 0x3FFFF8 - alignup r 4 > 8 by omega)] at hi
  exact hi

/-- A first allocation of one byte does not grow to two bytes. -/
theorem krealloc_not_grows : Obtained 1 (kheapBaseStart + 8) (firstAllocation 1) ∧
    Supplies 2 (firstAllocation 1) ∧
    (∀ fuel, krealloc fuel (kheapBaseStart + 8) 2 (firstAllocation 1) =
      .error (.fatal "Reallocating less space ?!" "KREALLOC")) ∧
    ¬GrowsTo 1 (kheapBaseStart + 8) 2 (firstAllocation 1) := by
  have hfour : alignup 1 4 = 4 := by decide
  have hfour' : alignup 2 4 = 4 := by decide
  have hi := heapInv_firstAllocation (r := 1) (by rw [hfour]; decide) (by rw [hfour])
  rw [hfour] at hi
  have hsize := hi.size_eq List.mem_cons_self
  have hfatal : ∀ fuel, krealloc fuel (kheapBaseStart + 8) 2 (firstAllocation 1) =
      .error (.fatal "Reallocating less space ?!" "KREALLOC") := by
    intro fuel
    apply krealloc_of_lt
    rw [hsize]
    decide
  refine ⟨obtained_firstAllocation (by decide) (by decide), supplies_of_room ?_, hfatal, ?_⟩
  · rw [hfour']
    exact ⟨_, _, hi, List.mem_cons_of_mem _ List.mem_cons_self, rfl, by decide⟩
  · rintro ⟨fuel, np, k', h, -⟩
    rw [hfatal fuel] at h
    cases h

/-- A first allocation of 20 bytes grows to 40 bytes. -/
theorem krealloc_grows_first : GrowsTo 20 (kheapBaseStart + 8) 40 (firstAllocation 20) := by
  have htwenty : alignup 20 4 = 20 := by decide
  have hforty : alignup 40 4 = 40 := by decide
  have hi := heapInv_firstAllocation (r := 20) (by rw [htwenty]; decide) (by rw [htwenty]; decide)
  rw [htwenty] at hi
  have hroom : (firstAllocation 20).heap.Room (alignup 40 4) := by
    rw [hforty]
    exact ⟨_, _, hi, List.mem_cons_of_mem _ List.mem_cons_self, rfl, by decide⟩
  apply (krealloc_grows_iff (obtained_firstAllocation (by decide) (by decide)) (by decide)
    (supplies_of_room hroom)).mpr
  rw [hi.size_eq List.mem_cons_self]
  decide

end VkKernel
