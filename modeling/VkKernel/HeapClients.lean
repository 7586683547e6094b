import VkKernel.Krealloc

/-!
# Using the heap

What a caller of `kmalloc` and `krealloc` may rely on, and what its stores into a block of its
own leave alone. A heap with one free block at its end serves every allocation from there.
-/

namespace VkKernel
open ByteMemory BlockLayout Outcome

/-- The heap is in order. -/
def Heap.Sound (h : Heap) : Prop := ∃ bs, HeapInv h bs

/-- A block for `n` bytes has been added to the heap. -/
structure NewBlock (n p : ℕ) (h h' : Heap) : Prop where
  sound : h'.Sound
  keeps : Keeps h h'
  fresh : p ∉ h.live
  live : p ∈ h'.live
  enough : n ≤ h'.size (p - 8)
  most : h'.size (p - 8) ≤ alignup n 4 + 8
  pos : 0 < p
  lt : p < 2 ^ 32

/-- All blocks but the last one, of `s` bytes at `a`, are in use. -/
def Heap.FreeFrom (h : Heap) (a s : ℕ) : Prop :=
  ∃ bs, HeapInv h (bs ++ [⟨a, s, false⟩]) ∧ ∀ b ∈ bs, b.used = true

/-- Only bytes of the block at `q` have changed. -/
structure StoredIn (q : ℕ) (h h' : Heap) : Prop where
  sound : h'.Sound
  live : h'.live = h.live
  size : h'.size (q - 8) = h.size (q - 8)
  others : ∀ r ∈ h.live, r ≠ q → KeepsAt h h' r
  free : ∀ a s, h.FreeFrom a s → h'.FreeFrom a s

/-- The block at `p` has moved to one for `n` bytes at `np`. -/
structure Moved (p n np : ℕ) (k k' : Kernel) : Prop where
  sound : k'.heap.Sound
  fresh : np ∉ k.heap.live
  moved : Reallocated (k.heap.size (p - 8)) p n np k k'
  most : k'.heap.size (np - 8) ≤ alignup n 4 + 8

section Clients
variable {fuel n p : ℕ} {k k' : Kernel} {h : Heap}

theorem carve_used_le {b c : Block} (hc : c ∈ carve 8 b n) (hu : c.used = true) :
    c.size ≤ n + 8 := by
  unfold carve at hc
  split_ifs at hc with hsplit
  · rcases List.mem_cons.mp hc with rfl | hc
    · exact Nat.le_add_right _ _
    · rw [List.mem_singleton.mp hc] at hu
      cases hu
  · rw [List.mem_singleton.mp hc]
    dsimp only
    omega

theorem Heap.Sound.bounds (hs : h.Sound) (hp : p ∈ h.live) :
    kheapBaseStart + 8 ≤ p ∧ p + h.size (p - 8) < 2 ^ 32 := by
  obtain ⟨bs, hi⟩ := hs
  obtain ⟨b, hb, -, rfl⟩ := (hi.live p).mp hp
  have hin := hi.tiles.bounds.2 b hb
  have hend := hi.end_lt
  rw [hi.size_eq hb]
  unfold Block.stop at hin
  omega

/-- What `kmalloc` returns. -/
theorem Heap.Sound.kmalloc (hs : k.heap.Sound) (hn : n ≤ 0xFFFFFFFC)
    (hm : kmalloc fuel n k = .ok (p, k')) : NewBlock n p k.heap k'.heap := by
  obtain ⟨bs, hi⟩ := hs
  have halloc := (kmalloc_holds hi hn).of_ok hm
  have hserves := halloc.serves hn hi
  have hkept := halloc.kept hn
  have hsound : k'.heap.Sound := hkept.inv
  have hbounds := hsound.bounds hserves.payload.live
  dsimp only at hbounds
  obtain ⟨k1, bs1, b, -, hi1, -, hf, hp, hk'⟩ := halloc
  obtain ⟨hfit, xs, ys, rfl, -⟩ := List.find?_eq_some_iff_append.mp hf
  obtain ⟨hu, hle⟩ := Block.fits_iff.mp hfit
  obtain ⟨c, hc, hcu, hca, hcs⟩ := exists_carve_used hle
  have hi2 := (HeapInv.takeBlock_inv xs _ hi1 hu hle (alignup_four hn).1).1
  have hsize : k'.heap.size (p - 8) = c.size := by
    have hc2 := hi2.size_eq (List.mem_append_left ys (List.mem_append_right xs hc))
    dsimp only at hp hk'
    rw [hca, ← hp] at hc2
    rw [hk']
    exact hc2
  refine ⟨hsound, hkept.keeps,
    hserves.payload.fresh, hserves.payload.live, ?_, ?_, by omega, by omega⟩
  · rw [hsize]
    exact (alignup_four hn).2.1.trans hcs
  · rw [hsize]
    exact carve_used_le hc hcu

/-- Two blocks share no byte. -/
theorem Heap.Sound.apart (hs : h.Sound) {q : ℕ} (hp : p ∈ h.live) (hq : q ∈ h.live) (hne : p ≠ q) :
    p + h.size (p - 8) ≤ q ∨ q + h.size (q - 8) ≤ p := by
  obtain ⟨bs, hi⟩ := hs
  obtain ⟨b, hb, -, rfl⟩ := (hi.live p).mp hp
  obtain ⟨c, hc, -, rfl⟩ := (hi.live q).mp hq
  have hbc : b ≠ c := by
    rintro rfl
    exact hne rfl
  have hapart := hi.tiles.apart hb hc hbc
  rw [hi.size_eq hb, hi.size_eq hc]
  unfold Block.stop at hapart
  omega

/-- Some allocation of the heap does not return. -/
def AllocFails (fuel : ℕ) (e : Stop) : Prop :=
  ∃ n k, n ≤ 0xFFFFFFFC ∧ k.heap.Sound ∧ VkKernel.kmalloc fuel n k = .error e

theorem Heap.Sound.kmalloc_holds (hs : k.heap.Sound) (hn : n ≤ 0xFFFFFFFC) :
    Holds (VkKernel.kmalloc fuel n k) (fun r => NewBlock n r.1 k.heap r.2.heap)
      (AllocFails fuel) := by
  cases hm : VkKernel.kmalloc fuel n k with
  | ok r => exact hs.kmalloc hn hm
  | error e => exact ⟨n, k, hn, hs, hm⟩

theorem Heap.FreeFrom.store {a s : ℕ} (h1 : h.FreeFrom a s) (hp : p ∈ h.live) {m : Mem}
    (hm : ∀ x, x < p ∨ p + h.size (p - 8) ≤ x → m x = h.mem x) :
    Heap.FreeFrom { h with mem := m } a s := by
  obtain ⟨bs, hi, hused⟩ := h1
  obtain ⟨b, hb, -, rfl⟩ := (hi.live p).mp hp
  rw [hi.size_eq hb] at hm
  refine ⟨bs, hi.write_inv hb fun x hx => hm x ?_, hused⟩
  unfold Block.stop at hx
  omega

/-- Stores into a block leave all others and the headers alone. -/
theorem Heap.Sound.store (hs : h.Sound) (hp : p ∈ h.live) {m : Mem}
    (hm : ∀ x, x < p ∨ p + h.size (p - 8) ≤ x → m x = h.mem x) :
    StoredIn p h { h with mem := m } := by
  have hfree : ∀ a s, h.FreeFrom a s → Heap.FreeFrom { h with mem := m } a s :=
    fun a s h1 => h1.store hp hm
  obtain ⟨bs, hi⟩ := hs
  obtain ⟨b, hb, hu, rfl⟩ := (hi.live p).mp hp
  rw [hi.size_eq hb] at hm
  have hm' : ∀ x, x < b.addr + 8 ∨ b.stop 8 ≤ x → m x = h.mem x := by
    intro x hx
    apply hm
    unfold Block.stop at hx
    omega
  have hi' := hi.write_inv hb hm'
  refine ⟨⟨bs, hi'⟩, rfl, ?_, fun r hr hne => ?_, hfree⟩
  · rw [hi.size_eq hb]
    exact hi'.size_eq hb
  · obtain ⟨c, hc, -, rfl⟩ := (hi.live r).mp hr
    have hcb : c ≠ b := by
      rintro rfl
      exact hne rfl
    have hapart := hi.tiles.apart hc hb hcb
    apply hi.keepsAt hc
    intro x hx hx'
    apply hm'
    unfold Block.stop at hapart hx' ⊢
    omega

/-- `krealloc` to no less than the size of the block returns whenever its allocation does. -/
theorem Heap.Sound.krealloc (hs : k.heap.Sound) (hp : p ∈ k.heap.live) (hn : n ≤ 0xFFFFFFFC)
    (hle : k.heap.size (p - 8) ≤ n) {np : ℕ} {k1 : Kernel}
    (hm : VkKernel.kmalloc fuel n k = .ok (np, k1)) :
    ∃ k', krealloc fuel p n k = .ok (np, k') ∧ Moved p n np k k' := by
  have hnew := hs.kmalloc hn hm
  obtain ⟨bs, hi⟩ := hs
  obtain ⟨k', hk', hre⟩ := krealloc_of_le hi hp hn hle hm
  refine ⟨k', hk', (VkKernel.krealloc_holds hi hp hn).of_ok hk', hnew.fresh, hre, ?_⟩
  obtain ⟨hp1, hkeep⟩ := hnew.keeps p hp
  obtain ⟨bs1, hi1⟩ := hnew.sound
  obtain ⟨b, hb, -, hpb⟩ := (hi1.live np).mp hnew.live
  have hfit : k1.heap.size (p - 8) ≤ b.size := by
    have henough := hnew.enough
    rw [hpb, hi1.size_eq hb] at henough
    rw [hkeep.size]
    omega
  have hcopy := @HeapInv.copy_inv _ _ hi1 b hb p _ hfit
  have hsize : (k1.heap.copy (b.addr + 8) p (k1.heap.size (p - 8))).size (np - 8) =
      k1.heap.size (np - 8) := by
    rw [hpb, hi1.size_eq hb]
    exact hcopy.size_eq hb
  -- the copy and the release of the old block keep the header of the new one
  have hrun := hk'
  unfold VkKernel.krealloc at hrun
  rw [sizeofBlockHeader] at hrun
  dsimp only at hrun
  rw [if_neg (not_lt.mpr hle), hm, ok_bind] at hrun
  dsimp only at hrun
  obtain ⟨k2, hfree, heq⟩ := bind_eq_ok.mp hrun
  injection heq with heq
  rw [Prod.mk.injEq] at heq
  have hne : np ≠ p := by
    rintro rfl
    exact hnew.fresh hp
  rw [hpb] at hfree
  have hcopied : ∃ kc : Kernel, kc.heap = k1.heap.copy (b.addr + 8) p (k1.heap.size (p - 8)) ∧
      kc.kfree p = .ok k2 := ⟨_, rfl, hfree⟩
  obtain ⟨kc, hheap, hfree⟩ := hcopied
  rw [← hheap] at hcopy hsize
  have hpc : p ∈ kc.heap.live := by
    rw [hheap]
    exact hp1
  have hkept := ((hcopy.kfree_holds hpc).of_ok hfree).2.2.2.1 np (by
    rw [hheap]
    exact hnew.live) hne
  rw [← heq.2, hkept.size, hsize]
  exact hnew.most

theorem Heap.Sound.krealloc_holds (hs : k.heap.Sound) (hp : p ∈ k.heap.live) (hn : n ≤ 0xFFFFFFFC)
    (hle : k.heap.size (p - 8) ≤ n) :
    Holds (VkKernel.krealloc fuel p n k) (fun r => Moved p n r.1 k r.2) (AllocFails fuel) := by
  cases hm : VkKernel.kmalloc fuel n k with
  | ok r =>
    obtain ⟨k', hk', hmoved⟩ := hs.krealloc hp hn hle hm
    rw [hk']
    exact hmoved
  | error e =>
    have herror : VkKernel.krealloc fuel p n k = .error e := by
      unfold VkKernel.krealloc
      rw [sizeofBlockHeader]
      dsimp only
      rw [if_neg (not_lt.mpr hle), hm]
      rfl
    rw [herror]
    exact ⟨n, k, hn, hs, hm⟩

/-! ## Heaps that are free at the end -/

theorem freeFrom_installedKernel : installedKernel.heap.FreeFrom kheapBaseStart 0x3FFFF8 :=
  ⟨[], heapInv_kheapInstall _, fun _ hb => absurd hb List.not_mem_nil⟩

theorem Heap.FreeFrom.sound {a s : ℕ} (h1 : h.FreeFrom a s) : h.Sound := by
  obtain ⟨bs, hi, -⟩ := h1
  exact ⟨_, hi⟩

/-- The next allocation starts where the free block does. -/
theorem Heap.FreeFrom.kmalloc {a s : ℕ} (h1 : k.heap.FreeFrom a s) (hn : n ≤ 0xFFFFFFFC)
    (hroom : alignup n 4 + 8 < s) (fuel : ℕ) :
    ∃ k', VkKernel.kmalloc (fuel + 1) n k = .ok (a + 8, k') ∧
      k'.heap.FreeFrom (a + 8 + alignup n 4) (s - alignup n 4 - 8) := by
  obtain ⟨bs, hi, hused⟩ := h1
  have hfits : Block.fits (alignup n 4) ⟨a, s, false⟩ = true :=
    Block.fits_iff.mpr ⟨rfl, by dsimp only; omega⟩
  have hnone : bs.find? (Block.fits (alignup n 4)) = none := by
    apply List.find?_eq_none.mpr
    intro b hb hfit
    have hu := (Block.fits_iff.mp hfit).1
    rw [hused b hb] at hu
    cases hu
  have hfind : (bs ++ [Block.mk a s false]).find? (Block.fits (alignup n 4)) =
      some (Block.mk a s false) := by
    rw [List.find?_append, hnone, Option.none_or, List.find?_cons, hfits]
  have hi' := (HeapInv.takeBlock_inv bs _ hi rfl (by dsimp only; omega) (alignup_four hn).1).1
  have hcarve : carve 8 ⟨a, s, false⟩ (alignup n 4) =
      [⟨a, alignup n 4, true⟩] ++ [⟨a + 8 + alignup n 4, s - alignup n 4 - 8, false⟩] := by
    rw [carve, if_pos (by dsimp only; omega)]
    rfl
  rw [hcarve, List.append_nil, ← List.append_assoc] at hi'
  refine ⟨{ k with heap := takeBlock k.heap a (alignup n 4) }, ?_, _, hi', fun b hb => ?_⟩
  · rw [kmalloc_succ hi, hfind]
  · rcases List.mem_append.mp hb with hb | hb
    · exact hused b hb
    · rw [List.mem_singleton.mp hb]

end Clients
end VkKernel
