import VkKernel.PhysicalBoot

/-!
# Reserved memory is real memory

Every reservation lies in free memory of the boot map as long as no free merges
blocks across a hole. The merge loops look at neighbours in the list only, so a
map with holes can break this.
-/

namespace VkKernel
open LinkedList RegionList BlockLayout Outcome

/-- The free blocks that stand next to the block at `a` in the list leave no hole
between them and the block. -/
def NoHoles (k : Kernel) (a : ℕ) : Prop :=
  ∀ stale xs fs gs ys (r : PRegion), Listing stale k.phys (xs ++ fs ++ r :: (gs ++ ys)) →
    r.base = a → (∀ x ∈ xs ++ fs, x.base ≠ a) → (∀ f ∈ fs ++ gs, f.tag = physFreeBlockType) →
    (fs ++ r :: gs).IsChain fun s t => s.stop = t.base

/-- Regions without holes between them cover what their sizes add up to. -/
theorem exists_covers {t : PRegion} {ts : List PRegion} {x : ℕ}
    (h : (t :: ts).IsChain fun r s => r.stop = s.base) (hlo : t.base ≤ x)
    (hhi : x < t.base + total (t :: ts)) : ∃ s ∈ t :: ts, s.Covers x := by
  induction ts generalizing t with
  | nil =>
    refine ⟨t, List.mem_cons_self, hlo, ?_⟩
    simpa [total, Region.stop] using hhi
  | cons u us ih =>
    obtain ⟨htu, hrest⟩ := List.isChain_cons_cons.mp h
    by_cases hx : x < t.stop
    · exact ⟨t, List.mem_cons_self, hlo, hx⟩
    · rw [total_cons] at hhi
      simp only [Region.stop] at hx htu
      obtain ⟨s, hs, hc⟩ := ih hrest (by omega) (by omega)
      exact ⟨s, List.mem_cons_of_mem _ hs, hc⟩

theorem merged_covers {fs gs : List PRegion} {r : PRegion} {x : ℕ}
    (h : (fs ++ r :: gs).IsChain fun s t => s.stop = t.base) (hx : (merged fs r gs).Covers x) :
    ∃ s ∈ fs ++ r :: gs, s.Covers x := by
  obtain ⟨hlo, hhi⟩ := hx
  simp only [merged, Region.stop] at hlo hhi
  cases fs with
  | nil => exact exists_covers h hlo (by simpa [total] using hhi)
  | cons f fs =>
    simp only [List.cons_append, List.headD_cons, total_cons] at h hlo hhi ⊢
    refine exists_covers h hlo ?_
    rw [total_cons, total_append, total_cons]
    omega

/-- Free regions and live reservations lie in free memory. -/
def AllInRam (mmap : List MemoryMap) (rv : List (ℕ × ℕ)) (rs : List PRegion) : Prop :=
  FreeInRam mmap rs ∧ ∀ v ∈ rv, ∀ x, v.1 ≤ x → x < v.1 + v.2 → InRam mmap x

variable {stale : ℕ → Prop} {tl : List PRegion} {types : ℕ → Prop}

theorem AllInRam.step {mmap : List MemoryMap} {k : Kernel} {rv rv' : List (ℕ × ℕ)}
    {rs rs' : List PRegion} (hi : RunInv stale tl types k rv rs) (h : AllInRam mmap rv rs)
    (hs : RegionStep types NoHoles k rv rs rv' rs') : AllInRam mmap rv' rs' := by
  obtain ⟨hfree, hheld⟩ := h
  cases hs with
  | keep => exact ⟨hfree, hheld⟩
  | @cut xs ys r n type node ht hn _ =>
    refine ⟨hfree.cut ht hn, ?_⟩
    intro v hv x hx hx'
    rcases List.mem_cons.mp hv with rfl | hv
    · refine hfree r (by simp) ht x ⟨hx, ?_⟩
      simp only [Region.stop]
      omega
    · exact hheld v hv x hx hx'
  | @merge xs fs gs ys r n hv hsize hholes hfirst htags =>
    have hlist := hi.phys.listing
    have hchain := hholes stale xs fs gs (ys ++ tl) r (by simpa using hlist) rfl hfirst htags
    refine ⟨?_, fun v hv' => hheld v (List.mem_of_mem_erase hv')⟩
    have hold : FreeInRam mmap (xs ++ (fs ++ r :: gs) ++ ys) := by simpa using hfree
    suffices h : FreeInRam mmap (xs ++ [merged fs r gs] ++ ys) by simpa using h
    refine forall_replace (fun s => s.tag = physFreeBlockType → ∀ x, s.Covers x → InRam mmap x)
      xs (fs ++ r :: gs) [merged fs r gs] ys hold ?_
    intro z hz _ x hx
    rw [List.mem_singleton.mp hz] at hx
    obtain ⟨s, hs, hc⟩ := merged_covers hchain hx
    by_cases hsr : s = r
    · -- the freed region is empty, or a reservation, which lies in free memory
      subst hsr
      refine hheld _ hv x hc.1 ?_
      have := hc.2
      simp only [Region.Covers, Region.stop] at this hc
      omega
    · have hs' : s ∈ fs ++ gs := by
        simp only [List.mem_append, List.mem_cons, hsr, false_or] at hs ⊢
        tauto
      refine hfree s ?_ (htags s hs') x hc
      simp only [List.mem_append, List.mem_cons] at hs' ⊢
      tauto

/-- After boot from a map that `physmem_get` handles, in every run whose frees
merge no blocks across a hole, every reservation lies in free memory. -/
theorem reserveBlock_in_ram {mmap : List MemoryMap} {k0 k1 k k' : Kernel} {rv : List (ℕ × ℕ)}
    {n m size type a : ℕ} (hboot : Booted k0) (hmap : BootMap mmap)
    (hget : physmemGet (kmalloc n) mmap k0 = .ok k1)
    (hrun : Relation.ReflTransGen (PhysStep (· ≠ physFreeBlockType) NoHoles) (k1, []) (k, rv))
    (h0 : 0 < size) (hsize : size ≤ 0xFFFFF000) (ht : type ≠ physFreeBlockType)
    (h : reserveBlock (kmalloc m) size type k = .ok (a, k')) :
    ∀ x, a ≤ x → x < a + alignup size 4096 → InRam mmap x := by
  obtain ⟨stale, tl, rs0, hi0, hram⟩ := physmemGet_spec hboot hmap hget
  have hstart : RunInv stale tl (· ≠ physFreeBlockType) k1 [] rs0 :=
    ⟨hi0, List.nodup_nil, by simp⟩
  have hlast : Relation.ReflTransGen (PhysStep (· ≠ physFreeBlockType) NoHoles) (k1, [])
      (k', (a, alignup size 4096) :: rv) := hrun.tail (.reserve h0 hsize ht h)
  obtain ⟨rs, -, -, hall⟩ := hstart.run (P := AllInRam mmap) (fun _ h => h)
    (fun k rv rs rv' rs' hi hP hs => hP.step hi hs) ⟨hram, by simp⟩ hlast
  exact hall.2 _ List.mem_cons_self

/-! ## A map with a hole -/

theorem rest_mk {key base size tag n node type : ℕ} :
    (⟨key, base, size, tag⟩ : PRegion).rest n node type = ⟨node, base + n, size - n, type⟩ := rfl

/-- 16 MiB from 1 MiB on, and one more page at 32 MiB. -/
def holedMap : List MemoryMap :=
  [⟨0x100000, 0x1000000, physFreeBlockType⟩, ⟨0x2000000, 0x1000, physFreeBlockType⟩]

theorem bootMap_holedMap : BootMap holedMap where
  ascending := by decide
  below := by simp [holedMap]
  kernel := ⟨⟨0x100000, 0x1000000, physFreeBlockType⟩, by decide, rfl, rfl, .inl (by decide)⟩

/-- The blocks of the map after boot, by their nodes. -/
def holedRegions (ks : Fin 5 → ℕ) : List PRegion :=
  [⟨ks 0, 0x100000, 0x300000, physKernelBlockType⟩, ⟨ks 1, 0x400000, 0x400000, physFreeBlockType⟩,
    ⟨ks 2, 0x800000, 0x400000, physKernelBlockType⟩, ⟨ks 3, 0xC00000, 0x500000, physFreeBlockType⟩,
    ⟨ks 4, 0x2000000, 0x1000, physFreeBlockType⟩]

theorem booted_installedKernel : Booted installedKernel := ⟨_, rfl, rfl⟩

/-- Before the two calls of `reserve_specific` there is one block for each
entry. -/
theorem physmemLoop_holedMap : ∃ first ka kb tl u v,
    kmalloc 1 sizeofPBlock installedKernel = .ok (first, ka) ∧
    physmemLoop (kmalloc 1) holedMap 0 first
      { ka with phys := { ka.phys with firstBlock := first } } = .ok kb ∧
    PhysInv (· = 0) tl kb [⟨u, 0x100000, 0x1000000, physFreeBlockType⟩,
      ⟨v, 0x2000000, 0x1000, physFreeBlockType⟩] ∧ kb.heap.Room 0x1000 := by
  have hroom : installedKernel.heap.Room (0x2000 + 32) := (room_installed _).mono (by decide)
  obtain ⟨first, ka, hka, hra⟩ := kmalloc_of_room hroom
  have hfill := booted_installedKernel.filling hka
  have hra' : ka.heap.Room (0x1000 + 32 * holedMap.length) := hra.mono (by decide)
  obtain ⟨kb, hkb, hrb⟩ := physmemLoop_of_room hfill hra'
  obtain ⟨tl, rs, hi, hbody⟩ :=
    (physmemLoop_spec hfill rfl bootMap_holedMap.ascending hkb).physInv bootMap_holedMap
  have hbody' : rs.map body =
      [(0x100000, 0x1000000, physFreeBlockType), (0x2000000, 0x1000, physFreeBlockType)] := hbody
  obtain ⟨u, vs, rfl, hu, hvs⟩ := List.map_eq_cons_iff.mp hbody'
  obtain ⟨v, ws, rfl, hv, hws⟩ := List.map_eq_cons_iff.mp hvs
  rw [List.map_eq_nil_iff.mp hws] at hi
  obtain ⟨uk, ub, us, ut⟩ := u
  obtain ⟨vk, vb, vs, vt⟩ := v
  simp only [body, Prod.mk.injEq] at hu hv
  obtain ⟨rfl, rfl, rfl⟩ := hu
  obtain ⟨rfl, rfl, rfl⟩ := hv
  exact ⟨first, ka, kb, tl, uk, vk, hka, hkb, hi, hrb⟩

/-- The block list after boot. -/
theorem physmemGet_holedMap : ∃ k stale tl ks, physmemGet (kmalloc 1) holedMap installedKernel =
    .ok k ∧ PhysInv stale tl k (holedRegions ks) ∧ k.heap.Room 0x400 := by
  obtain ⟨first, ka, kb, tl, u, v, hka, hkb, hi, hroom⟩ := physmemLoop_holedMap
  -- the kernel image starts where the first block does
  obtain ⟨node, k1, hk1, hr1⟩ := kmalloc_of_room (n := 0x800) (hroom.mono (by decide))
  obtain ⟨a, kc, xs, ys, hkc, hsplit, hi1, hprev, hheap⟩ := hi.reserveSpecific_start_spec
    (r := ⟨u, 0x100000, 0x1000000, physFreeBlockType⟩) physKernelBlockType
    (List.find?_cons_of_pos (by simp only [meets, and_self, decide_true, Bool.true_or])) rfl
    (show 0x300000 ≤ 0x1000000 by decide) hk1
  have hxs : xs = [] ∧ ys = [⟨v, 0x2000000, 0x1000, physFreeBlockType⟩] := by
    cases xs with
    | nil => simpa using hsplit.symm
    | cons x xs =>
      rw [List.cons_append, List.cons.injEq] at hsplit
      cases xs <;> simp at hsplit
  rw [hxs.1, hxs.2, List.nil_append] at hi1
  have hi1' : PhysInv (· = 0) tl kc ([] ++ ⟨u, 0x100000, 0x300000, physKernelBlockType⟩ ::
      ⟨node, 0x400000, 0xD00000, physFreeBlockType⟩ ::
      [⟨v, 0x2000000, 0x1000, physFreeBlockType⟩]) := by
    rw [rest_mk] at hi1
    exact hi1
  rw [← hheap] at hr1
  -- the heap starts inside the rest of that block
  obtain ⟨b, k2, hk2, hr2⟩ := kmalloc_of_room (n := 0x600) (hr1.mono (by decide))
  obtain ⟨c, k3, hk3, hr3⟩ := kmalloc_of_room (n := 0x400)
    (k := { k2 with phys := k2.phys.cutBefore node b kheapPhysStart kheapBaseSize })
    (hr2.mono (by decide))
  have hK : ¬ meets kheapPhysStart ⟨u, 0x100000, 0x300000, physKernelBlockType⟩ = true := by
    simp [meets, u32, kheapPhysStart]
  have hR : meets kheapPhysStart ⟨node, 0x400000, 0xD00000, physFreeBlockType⟩ = true := by
    simp [meets, u32, kheapPhysStart]
  have hstop : kheapPhysStart + kheapBaseSize ≤
      (⟨node, 0x400000, 0xD00000, physFreeBlockType⟩ : PRegion).stop := by
    change 0x800000 + 0x400000 ≤ 0x400000 + 0xD00000
    omega
  have hbase : (⟨node, 0x400000, 0xD00000, physFreeBlockType⟩ : PRegion).base = kheapBaseSize := rfl
  obtain ⟨a', kd, hkd, hi2, hheap'⟩ := hi1'.reserveSpecific_span_spec
    ((List.find?_cons_of_neg hK).trans (List.find?_cons_of_pos hR)) rfl hprev hbase (by decide)
    hstop (by decide) hk2 hk3
  have hi3 : PhysInv (fun q => q = 0 ∨ q = node) tl kd (holedRegions ![u, b, node, c, v]) := by
    have h1 : kheapPhysStart - (⟨node, 0x400000, 0xD00000, physFreeBlockType⟩ : PRegion).base =
        0x400000 := by
      change 0x800000 - 0x400000 = 0x400000
      omega
    have h2 : kheapPhysStart + kheapBaseSize = 0xC00000 := by decide
    have h3 : (⟨node, 0x400000, 0xD00000, physFreeBlockType⟩ : PRegion).stop - kheapPhysStart -
        kheapBaseSize = 0x500000 := by
      change 0x400000 + 0xD00000 - 0x800000 - 0x400000 = 0x500000
      omega
    rw [h1, h2, h3] at hi2
    exact hi2
  refine ⟨kd, _, tl, _, ?_, hi3, hheap' ▸ hr3⟩
  rw [physmemGet, hka, ok_bind]
  dsimp only
  rw [hkb, ok_bind, hkc, ok_bind]
  dsimp only
  rw [hkd, ok_bind]

/-- The first page after the kernel image, from free memory of the map. -/
theorem reserveBlock_in_ram_first_page : ∃ k k', physmemGet (kmalloc 1) holedMap installedKernel =
    .ok k ∧ reserveBlock (kmalloc 1) 4096 physUserBlockType k = .ok (0x400000, k') ∧
    ∀ x, 0x400000 ≤ x → x < 0x400000 + alignup 4096 4096 → InRam holedMap x := by
  obtain ⟨k, stale, tl, ks, hk, hi, hroom⟩ := physmemGet_holedMap
  have hpage : alignup 4096 4096 = 4096 := alignup_of_dvd (by decide)
  obtain ⟨k', node, hk', -⟩ := PhysInv.reserveBlock_of_room
    [⟨ks 0, 0x100000, 0x300000, physKernelBlockType⟩] hi 4096 physUserBlockType 0
    (hroom.mono (by decide)) (by rw [hpage]; simp [available, physKernelBlockType,
      physFreeBlockType]) (by rw [hpage]; simp [available])
  exact ⟨k, k', hk, hk', reserveBlock_in_ram booted_installedKernel bootMap_holedMap hk .refl
    (by decide) (by decide) (by decide) hk'⟩

/-- The last block of the first entry is reserved and freed, which merges it
with the page behind the hole. The next reservation runs into the hole. -/
theorem reserveBlock_in_hole : ∃ k k1 k2 k3,
    physmemGet (kmalloc 1) holedMap installedKernel = .ok k ∧
    reserveBlock (kmalloc 1) 0x500000 physUserBlockType k = .ok (0xC00000, k1) ∧
    freeBlock 0xC00000 k1 = .ok k2 ∧
    reserveBlock (kmalloc 1) 0x501000 physUserBlockType k2 = .ok (0xC00000, k3) ∧
    ¬ InRam holedMap (0xC00000 + 0x500000) := by
  obtain ⟨k, stale, tl, ks, hk, hi, hroom⟩ := physmemGet_holedMap
  have hsize : alignup 0x500000 4096 = 0x500000 := alignup_of_dvd (by decide)
  have hsize' : alignup 0x501000 4096 = 0x501000 := alignup_of_dvd (by decide)
  let before : List PRegion := [⟨ks 0, 0x100000, 0x300000, physKernelBlockType⟩,
    ⟨ks 1, 0x400000, 0x400000, physFreeBlockType⟩, ⟨ks 2, 0x800000, 0x400000, physKernelBlockType⟩]
  -- the reservation fits exactly
  obtain ⟨k1, node, hk1, hi1, hroom1⟩ := PhysInv.reserveBlock_of_room before hi 0x500000
    physUserBlockType 0x200 (hroom.mono (by decide))
    (by rw [hsize]; simp [before, available, physKernelBlockType, physFreeBlockType])
    (by rw [hsize]; simp [available])
  rw [hsize] at hi1
  have hi1' : PhysInv stale tl k1 (before ++ ⟨ks 3, 0xC00000, 0x500000, physUserBlockType⟩ ::
      ([⟨node, 0x1100000, 0, physFreeBlockType⟩, ⟨ks 4, 0x2000000, 0x1000, physFreeBlockType⟩] ++
        [])) := by
    rw [rest_mk] at hi1
    exact hi1
  obtain ⟨k2, hk2, hi2, hs2⟩ := PhysInv.freeBlock_forward before
    [⟨node, 0x1100000, 0, physFreeBlockType⟩, ⟨ks 4, 0x2000000, 0x1000, physFreeBlockType⟩]
    hi1' (by simp) (by simp [before]) (.inr rfl)
    (by simp [before, physKernelBlockType, physFreeBlockType]) (by simp) (by simp)
  obtain ⟨k3, node', hk3, -⟩ := PhysInv.reserveBlock_of_room before hi2 0x501000
    physUserBlockType 0 ((hs2.room _ hroom1).mono (by decide))
    (by rw [hsize']; simp [before, available, physKernelBlockType, physFreeBlockType])
    (by rw [hsize']; simp [available, merged, total])
  refine ⟨k, k1, k2, k3, hk, hk1, hk2, hk3, ?_⟩
  simp [InRam, holedMap]

end VkKernel
