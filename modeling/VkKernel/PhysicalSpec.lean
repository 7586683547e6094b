import VkKernel.KheapRun
import VkKernel.PhysicalList

/-!
# Reserving and freeing physical memory

What `reserve_block` and `free_block` do to the list of regions. Both leave it
ascending and keep its total size, whatever lies between two regions.
-/

namespace VkKernel
open LinkedList RegionList BlockLayout Outcome

/-- The types of the blocks that reservations and frees work on. -/
def Movable (type : ℕ) : Prop :=
  type = physFreeBlockType ∨ type = physKernelfBlockType ∨ type = physUserBlockType

/-- The list of physical blocks is threaded both ways and ascending, no block
that reservations and frees work on wraps around, and every node is a live heap
allocation. The list may end in nodes `tl` without a block; a back link that is
out of date leads to a block of the kernel image, or nowhere. -/
structure PhysInv (stale : ℕ → Prop) (tl : List PRegion) (k : Kernel) (rs : List PRegion) :
    Prop where
  heap : ∃ bs, HeapInv k.heap bs
  listing : Listing stale k.phys (rs ++ tl)
  live : ∀ r ∈ rs ++ tl, r.key ∈ k.heap.live
  ascending : Ascending rs
  bounded : ∀ r ∈ rs, Movable r.tag → r.stop < 2 ^ 32
  tail : ∀ t ∈ tl, t.base = 0 ∧ t.tag = 0 ∧ t.size = 0
  back : ∀ p, stale p → p = 0 ∨ ∃ r ∈ rs, r.key = p ∧ r.tag = physKernelBlockType

variable {stale : ℕ → Prop} {tl : List PRegion}

/-- A list of live pointers without repetition is shorter than any loop bound. -/
theorem HeapInv.length_lt_of_live {h : Heap} {bs : List Block} (hi : HeapInv h bs) {ps : List ℕ}
    (hd : ps.Nodup) (hp : ∀ p ∈ ps, p ∈ h.live) : ps.length < loopFuel := by
  have hsub : ps ⊆ bs.map fun b => b.addr + 8 := by
    intro p hps
    obtain ⟨b, hb, -, rfl⟩ := (hi.live p).mp (hp p hps)
    exact List.mem_map_of_mem hb
  have hle := (hd.subperm hsub).length_le
  rw [List.length_map] at hle
  exact hle.trans_lt hi.length_lt

theorem PhysInv.length_lt {k : Kernel} {rs : List PRegion} (hi : PhysInv stale tl k rs) :
    (rs ++ tl).length < loopFuel := by
  obtain ⟨bs, hh⟩ := hi.heap
  have := hh.length_lt_of_live hi.listing.nodup fun p hp => by
    obtain ⟨r, hr, rfl⟩ := List.mem_map.mp hp
    exact hi.live r hr
  rwa [List.length_map] at this

theorem PhysInv.data_at {k : Kernel} {rs : List PRegion} (hi : PhysInv stale tl k rs) {r : PRegion}
    (hr : r ∈ rs) : (k.phys.node r.key).baseAddr = r.base ∧ (k.phys.node r.key).size = r.size ∧
      (k.phys.node r.key).type = r.tag :=
  hi.listing.data_at (List.mem_append_left _ hr)

theorem PhysInv.key_ne_zero {k : Kernel} {rs : List PRegion} (hi : PhysInv stale tl k rs)
    {r : PRegion} (hr : r ∈ rs ++ tl) : r.key ≠ 0 := by
  obtain ⟨q, hl⟩ := hi.listing.linked
  exact hl.ne_null r.key (List.mem_map_of_mem hr)

/-- The links of the node of `r` lead to the neighbours of `r` in the list. -/
theorem PhysInv.links_at {k : Kernel} {xs ys : List PRegion} {r : PRegion}
    (hi : PhysInv stale tl k (xs ++ r :: ys)) :
    ((k.phys.node r.key).prev = (xs.map Region.key).getLastD 0 ∨ stale (k.phys.node r.key).prev) ∧
      (k.phys.node r.key).next = ((ys ++ tl).map Region.key).headD 0 := by
  obtain ⟨q, hl⟩ := hi.listing.linked
  rw [List.append_assoc, List.cons_append, List.map_append, List.map_cons] at hl
  exact hl.links_at

/-- The invariant after some regions have been replaced by others that stay
within them. A back link can only become stale if it leads to a kernel block. -/
theorem PhysInv.replace {stale' : ℕ → Prop} {k : Kernel} {xs ms ys : List PRegion}
    {m : PhysMem} {h' : Heap} (hi : PhysInv stale tl k (xs ++ ms ++ ys)) (zs : List PRegion)
    (hheap : ∃ bs, HeapInv h' bs) (hl : Listing stale' m (xs ++ zs ++ ys ++ tl))
    (hlive : ∀ r ∈ xs ++ zs ++ ys ++ tl, r.key ∈ h'.live) (hasc : Ascending zs)
    (hlo : ∀ z ∈ zs, ∃ r ∈ ms, r.base ≤ z.base) (hhi : ∀ z ∈ zs, ∃ r ∈ ms, z.stop ≤ r.stop)
    (hms : ∀ r ∈ ms, Movable r.tag)
    (hst : ∀ p, stale' p → stale p ∨ ∃ z ∈ zs, z.key = p ∧ z.tag = physKernelBlockType) :
    PhysInv stale' tl { k with heap := h', phys := m } (xs ++ zs ++ ys) where
  heap := hheap
  listing := hl
  live := hlive
  ascending := hi.ascending.replace zs hasc hlo hhi
  bounded := by
    refine forall_replace (fun s => Movable s.tag → s.stop < 2 ^ 32) xs ms zs ys hi.bounded ?_
    intro z hz _
    obtain ⟨r, hr, hle⟩ := hhi z hz
    exact hle.trans_lt (hi.bounded r (by simp [hr]) (hms r hr))
  tail := hi.tail
  back := by
    intro p hp
    rcases hst p hp with hp | ⟨z, hz, hk, ht⟩
    · refine (hi.back p hp).imp id fun ⟨s, hs, hk, ht⟩ => ⟨s, ?_, hk, ht⟩
      have hne : s ∉ ms := by
        intro hm
        have := hms s hm
        rw [ht] at this
        rcases this with h | h | h <;> cases h
      simp only [List.mem_append, hne, or_false] at hs ⊢
      tauto
    · exact .inr ⟨z, by simp [hz], hk, ht⟩

/-! ## Walking the list -/

theorem walk_seg {m : PhysMem} {test : PBlock → Bool} {f : PRegion → Bool} {rs : List PRegion}
    {fuel p a q : ℕ} (h : Seg 0 stale m.links p a (rs.map Region.key) q 0) (hf : rs.length < fuel)
    (ht : ∀ r ∈ rs, test (m.node r.key) = f r) :
    m.walk test fuel a = .ok ((rs.find? f).map Region.key) := by
  induction fuel generalizing rs p a with
  | zero => omega
  | succ fuel ih =>
    cases rs with
    | nil =>
      obtain ⟨-, ha⟩ := h
      rw [PhysMem.walk, if_pos ha]
      rfl
    | cons r rs =>
      obtain ⟨rfl, hne, -, hrest⟩ := h
      rw [PhysMem.walk, if_neg hne, ht r List.mem_cons_self, List.find?_cons]
      cases hfr : f r with
      | true => rfl
      | false =>
        exact ih hrest (by simpa using hf) fun s hs => ht s (List.mem_cons_of_mem _ hs)

/-- A walk whose test no node of the tail passes. -/
theorem PhysInv.walk_eq {k : Kernel} {rs : List PRegion} (hi : PhysInv stale tl k rs)
    {test : PBlock → Bool} {f : PRegion → Bool} (ht : ∀ b a, test b = f (b.region a))
    (htl : ∀ t ∈ tl, f t = false) :
    k.phys.walk test loopFuel k.phys.firstBlock = .ok ((rs.find? f).map Region.key) := by
  obtain ⟨q, hl⟩ := hi.listing.linked
  rw [walk_seg (f := f) hl hi.length_lt fun r hr => by rw [ht _ r.key, hi.listing.data r hr]]
  have hnone : tl.find? f = none := List.find?_eq_none.mpr fun t h => by simp [htl t h]
  rw [List.find?_append, hnone, Option.or_none]

/-! ## Reserving -/

/-- A free region above the first MiB with room for `size` bytes. -/
def available (size : ℕ) (r : PRegion) : Bool :=
  r.base ≥ 0x100000 ∧ r.tag = physFreeBlockType ∧ ¬ r.size < size

theorem available_iff {size : ℕ} {r : PRegion} : available size r ↔
    0x100000 ≤ r.base ∧ r.tag = physFreeBlockType ∧ size ≤ r.size := by
  simp [available]

theorem alignup_page {n : ℕ} (hn : n ≤ 0xFFFFF000) :
    4096 ∣ alignup n 4096 ∧ n ≤ alignup n 4096 ∧ alignup n 4096 ≤ 0xFFFFF000 := by
  have hle : (n + 4096 - 1) / 4096 * 4096 ≤ 0xFFFFF000 := by omega
  rw [alignup_eq (by norm_num) (by omega)]
  exact ⟨Nat.dvd_mul_left _ _, by omega, hle⟩

/-- The pointer of a new node: it is not null and was not live before. -/
theorem HeapInv.kmalloc_node {n : ℕ} {k k' : Kernel} {bs : List Block} {p : ℕ}
    (hi : HeapInv k.heap bs) (h : kmalloc n sizeofPBlock k = .ok (p, k')) :
    p ∉ k.heap.live ∧ p ≠ 0 ∧ k' = { k with heap := k'.heap } ∧ Kept k.heap k'.heap ∧
      k'.heap.live = p :: k.heap.live ∧ k'.heap.baseEnd = k.heap.baseEnd := by
  have h20 : alignup sizeofPBlock 4 = sizeofPBlock := alignup_of_dvd (by decide)
  obtain ⟨b, hb, heq⟩ := kmalloc_small hi h20.le h
  rw [Prod.mk.injEq] at heq
  obtain ⟨rfl, rfl⟩ := heq
  have hmem := List.mem_of_find?_eq_some hb
  have hfree := (Block.fits_iff.mp (List.find?_some hb)).1
  have hstop := (hi.tiles.bounds.2 b hmem).2
  have hend := hi.end_lt
  simp only [Block.stop] at hstop
  refine ⟨?_, by omega, rfl, hi.takeBlock_keeps hb (h20 ▸ by decide), ?_, takeBlock_baseEnd⟩
  · intro hp
    obtain ⟨c, hc, hcu, hca⟩ := (hi.live _).mp hp
    rw [hi.tiles.eq_of_addr_eq (by norm_num) hc hmem (by omega), hfree] at hcu
    cases hcu
  · rw [takeBlock_live, u32_of_lt (by omega)]

/-- Cutting a free region in two, once the new node has been allocated: the
listing is what the cases of the source differ in. -/
theorem PhysInv.cut_of_listing {stale' : ℕ → Prop} {k : Kernel} {xs ys : List PRegion}
    {r s t : PRegion} {node : ℕ} {m : PhysMem} {h' : Heap}
    (hi : PhysInv stale tl k (xs ++ r :: ys)) (hfree : r.tag = physFreeBlockType)
    (hkept : Kept k.heap h') (hlive : h'.live = node :: k.heap.live)
    (hl : Listing stale' m (xs ++ s :: t :: ys ++ tl))
    (hkeys : (s.key = r.key ∧ t.key = node) ∨ (s.key = node ∧ t.key = r.key))
    (hs : s.base = r.base) (hst : t.base = s.stop) (ht : t.stop = r.stop)
    (hstale : ∀ p, stale' p → stale p ∨ p = s.key ∧ s.tag = physKernelBlockType) :
    PhysInv stale' tl { k with heap := h', phys := m } (xs ++ s :: t :: ys) := by
  have hold : ∀ u ∈ xs ++ [r] ++ (ys ++ tl), u.key ∈ h'.live := by
    intro u hu
    rw [hlive]
    exact List.mem_cons_of_mem _ (hi.live u (by simpa using hu))
  have hr : r.key ∈ h'.live := hold r (by simp)
  have hnode : node ∈ h'.live := by
    rw [hlive]
    exact List.mem_cons_self
  have hlive' : ∀ u ∈ xs ++ [s, t] ++ (ys ++ tl), u.key ∈ h'.live := by
    refine forall_replace (fun u => u.key ∈ h'.live) xs [r] [s, t] (ys ++ tl) hold ?_
    simp only [List.mem_cons, List.not_mem_nil, or_false, forall_eq_or_imp, forall_eq]
    rcases hkeys with ⟨h1, h2⟩ | ⟨h1, h2⟩ <;> rw [h1, h2] <;> exact ⟨‹_›, ‹_›⟩
  have hi' : PhysInv stale tl k (xs ++ [r] ++ ys) := by simpa using hi
  have := hi'.replace [s, t] hkept.inv (by simpa using hl) (by simpa using hlive') ?_ ?_ ?_ ?_ ?_
  · simpa using this
  · simp [Ascending, hst]
  · simp only [List.mem_cons, List.not_mem_nil, or_false, forall_eq_or_imp, forall_eq,
      exists_eq_left, Region.stop] at hst ⊢
    omega
  · simp only [List.mem_cons, List.not_mem_nil, or_false, forall_eq_or_imp, forall_eq,
      exists_eq_left, Region.stop] at hst ht ⊢
    omega
  · simpa [Movable] using Or.inl hfree
  · intro p hp
    exact (hstale p hp).imp id fun h => ⟨s, by simp, h.1.symm, h.2⟩

theorem PhysInv.cut {k : Kernel} {xs ys : List PRegion} {r : PRegion} {node n : ℕ} {h' : Heap}
    (hi : PhysInv stale tl k (xs ++ r :: ys)) (type : ℕ) (hfree : r.tag = physFreeBlockType)
    (hn : n ≤ r.size) (hnew : node ∉ k.heap.live) (hn0 : node ≠ 0) (hkept : Kept k.heap h')
    (hlive : h'.live = node :: k.heap.live) :
    PhysInv stale tl { k with heap := h', phys := k.phys.splitAt r.key node n type }
      (xs ++ r.cut n type :: r.rest n node physFreeBlockType :: ys) := by
  have hlist := hi.listing
  rw [List.append_assoc, List.cons_append] at hlist
  have hfresh : node ∉ (xs ++ r :: (ys ++ tl)).map Region.key := by
    intro hm
    obtain ⟨s, hs, rfl⟩ := List.mem_map.mp hm
    exact hnew (hi.live s (by simpa using hs))
  have hl := hlist.splitAt type hn0 hfresh hn (hi.bounded r (by simp) (.inl hfree))
  refine hi.cut_of_listing hfree hkept hlive (by simpa using hl) (.inl ⟨rfl, rfl⟩) rfl rfl ?_
    fun p hp => .inl hp
  simp only [Region.stop, Region.rest_base, Region.rest_size]
  omega

/-- A reservation that returns has cut the first available region; the new node
is the only allocation it has made. -/
theorem PhysInv.reserveBlock_spec {k k' : Kernel} {rs : List PRegion}
    (hi : PhysInv stale tl k rs) {n size type a : ℕ}
    (h : reserveBlock (kmalloc n) size type k = .ok (a, k')) :
    ∃ xs r ys node, rs = xs ++ r :: ys ∧ rs.find? (available (alignup size 4096)) = some r ∧
      a = r.base ∧ PhysInv stale tl k' (xs ++ r.cut (alignup size 4096) type ::
        r.rest (alignup size 4096) node physFreeBlockType :: ys) ∧
      k'.phys.firstBlock = k.phys.firstBlock ∧ Kept k.heap k'.heap ∧
      k'.heap.live = node :: k.heap.live ∧ k'.heap.baseEnd = k.heap.baseEnd ∧
      k' = { k with heap := k'.heap, phys := k'.phys } := by
  have htl : ∀ t ∈ tl, available (alignup size 4096) t = false := by
    intro t ht
    simp [available, (hi.tail t ht).1]
  rw [reserveBlock, hi.walk_eq (f := available (alignup size 4096)) (fun b a => rfl) htl,
    ok_bind] at h
  cases hf : rs.find? (available (alignup size 4096)) with
  | none =>
    rw [hf] at h
    cases h
  | some r =>
    rw [hf] at h
    dsimp only [Option.map_some] at h
    obtain ⟨⟨node, k1⟩, hk1, h⟩ := bind_eq_ok.mp h
    injection h with h
    rw [Prod.mk.injEq] at h
    obtain ⟨rfl, rfl⟩ := h
    obtain ⟨hav, xs, ys, rfl, -⟩ := List.find?_eq_some_iff_append.mp hf
    obtain ⟨-, hfree, hsize⟩ := available_iff.mp hav
    obtain ⟨bs, hh⟩ := hi.heap
    obtain ⟨hnew, hn0, hk1', hkept, hlive, hend⟩ := hh.kmalloc_node hk1
    have hphys : k1.phys = k.phys := by rw [hk1']
    have hcut := hi.cut type hfree hsize hnew hn0 hkept hlive
    rw [hphys]
    refine ⟨xs, r, ys, node, rfl, rfl, (hi.data_at (by simp)).1, ?_,
      splitAt_firstBlock _ _ _ _ _, hkept, hlive, hend, ?_⟩
    · rw [hk1']
      exact hcut
    · rw [hk1']

/-- A reservation completes when a region is available and the heap has room. -/
theorem PhysInv.reserveBlock_of_room {k : Kernel} (xs : List PRegion) {ys : List PRegion}
    {r : PRegion} (hi : PhysInv stale tl k (xs ++ r :: ys)) (size type n : ℕ) (hroom : k.heap.Room (n + 32))
    (hxs : ∀ x ∈ xs, available (alignup size 4096) x = false)
    (hr : available (alignup size 4096) r = true) :
    ∃ k' node, reserveBlock (kmalloc 1) size type k = .ok (r.base, k') ∧
      PhysInv stale tl k' (xs ++ r.cut (alignup size 4096) type ::
        r.rest (alignup size 4096) node physFreeBlockType :: ys) ∧ k'.heap.Room n := by
  have htl : ∀ t ∈ tl, available (alignup size 4096) t = false := by
    intro t ht
    simp [available, (hi.tail t ht).1]
  have hf : (xs ++ r :: ys).find? (available (alignup size 4096)) = some r := by
    rw [List.find?_append, List.find?_eq_none.mpr fun x hx => by simp [hxs x hx],
      List.find?_cons, hr]
    rfl
  obtain ⟨-, hfree, hsize⟩ := available_iff.mp hr
  obtain ⟨node, k1, hk1, hroom'⟩ := kmalloc_of_room hroom
  obtain ⟨bs, hh⟩ := hi.heap
  obtain ⟨hnew, hn0, hk1', hkept, hlive, -⟩ := hh.kmalloc_node hk1
  have hcut := hi.cut type hfree hsize hnew hn0 hkept hlive
  have hphys : k1.phys = k.phys := by rw [hk1']
  refine ⟨{ k with heap := k1.heap, phys := k.phys.splitAt r.key node (alignup size 4096) type },
    node, ?_, hcut, hroom'⟩
  rw [reserveBlock, hi.walk_eq (f := available (alignup size 4096)) (fun b a => rfl) htl, hf,
    ok_bind]
  dsimp only [Option.map_some]
  rw [hk1, ok_bind, hphys, (hi.data_at (by simp)).1]
  dsimp only
  rw [hk1']

/-! ## Freeing -/

/-- Freeing physical memory leaves the other parts of the kernel and the first
node alone, and takes no heap memory. -/
structure SameFrame (k k' : Kernel) : Prop where
  frame : k' = { k with heap := k'.heap, phys := k'.phys }
  first : k'.phys.firstBlock = k.phys.firstBlock
  room : ∀ n, k.heap.Room n → k'.heap.Room n

theorem SameFrame.refl (k : Kernel) : SameFrame k k := ⟨rfl, rfl, fun _ h => h⟩

theorem SameFrame.trans {k1 k2 k3 : Kernel} (h : SameFrame k1 k2) (h' : SameFrame k2 k3) :
    SameFrame k1 k3 := by
  refine ⟨?_, h'.first.trans h.first, fun n hn => h'.room n (h.room n hn)⟩
  rw [h'.frame, h.frame]

/-- One round of a merge loop: the node after `r` is absorbed and its memory freed. -/
theorem PhysInv.unlink {k : Kernel} {xs ys : List PRegion} {r s : PRegion}
    (hi : PhysInv stale tl k (xs ++ r :: s :: ys)) (hrfree : r.tag = physFreeBlockType)
    (hsfree : s.tag = physFreeBlockType) :
    ∃ k', Kernel.kfree s.key { k with phys := k.phys.absorb r.key s.key } = .ok k' ∧
      PhysInv stale tl k' (xs ++ r.fuse s :: ys) ∧ SameFrame k k' := by
  have hr : r ∈ xs ++ r :: s :: ys := by simp
  have hs : s ∈ xs ++ r :: s :: ys := by simp
  obtain ⟨bs, hh⟩ := hi.heap
  obtain ⟨h', hr', hi', -, hl, -⟩ := hh.kfree_ok (hi.live s (List.mem_append_left _ hs))
  have hrs : r.stop ≤ s.base := by
    have := (List.pairwise_append.mp hi.ascending).2.1
    exact (List.pairwise_cons.mp this).1 s List.mem_cons_self
  have hbound := hi.bounded s hs (.inl hsfree)
  simp only [Region.stop] at hrs hbound
  have hlist := hi.listing
  rw [List.append_assoc, List.cons_append, List.cons_append] at hlist
  have hlive : ∀ t ∈ xs ++ [r.fuse s] ++ ys ++ tl, t.key ∈ h'.live := by
    intro t ht
    rw [hl, hh.nodup.mem_erase_iff]
    have hnd := hlist.nodup
    rw [List.map_append, List.map_cons, List.map_cons] at hnd
    obtain ⟨-, hnd2, hnd3⟩ := List.nodup_append.mp hnd
    obtain ⟨hrn, hsn⟩ := List.nodup_cons.mp hnd2
    simp only [List.append_assoc, List.cons_append, List.nil_append] at ht
    rw [List.mem_append, List.mem_cons] at ht
    rcases ht with ht | rfl | ht
    · exact ⟨hnd3 _ (List.mem_map_of_mem ht) _ (by simp), hi.live t (by simp [ht])⟩
    · exact ⟨fun h => hrn (by simp [← h]), hi.live r (List.mem_append_left _ hr)⟩
    · refine ⟨fun h => (List.nodup_cons.mp hsn).1 ?_, hi.live t ?_⟩
      · rw [← h]
        exact List.mem_map_of_mem ht
      · simp only [List.mem_append, List.mem_cons] at ht ⊢
        tauto
  have hi2 : PhysInv stale tl k (xs ++ [r, s] ++ ys) := by simpa using hi
  refine ⟨{ k with heap := h', phys := k.phys.absorb r.key s.key }, ?_, ?_, rfl,
    absorb_firstBlock _ _ _, fun n hn => hn.kfree (hi.live s (List.mem_append_left _ hs)) hr'⟩
  · rw [Kernel.kfree, hr', ok_bind]
  · have := hi2.replace [r.fuse s] ⟨_, hi'⟩ (by simpa using hlist.absorb (by omega)) hlive
      (by simp [Ascending]) (by simp) ?_ ?_ fun p hp => .inl hp
    · simpa using this
    · simp only [List.mem_cons, List.not_mem_nil, or_false, forall_eq, Region.stop,
        Region.fuse_base, Region.fuse_size]
      exact ⟨s, .inr rfl, by omega⟩
    · simpa using ⟨Or.inl hrfree, Or.inl hsfree⟩

/-- The free region that freeing `r` between the free regions `fs` and `gs` leaves. -/
def merged (fs : List PRegion) (r : PRegion) (gs : List PRegion) : PRegion :=
  ⟨(fs.headD r).key, (fs.headD r).base, total fs + r.size + total gs, physFreeBlockType⟩

theorem merged_of_free {r : PRegion} (hr : r.tag = physFreeBlockType) : merged [] r [] = r := by
  simp only [merged, List.headD_nil, total, List.map_nil, List.sum_nil, Nat.zero_add,
    Nat.add_zero, ← hr]

/-- A back link that is out of date ends the loop over the free predecessors. -/
theorem PhysInv.stale_not_free {k : Kernel} {rs : List PRegion} (hi : PhysInv stale tl k rs)
    {p : ℕ} (hp : stale p) : ¬ (p ≠ 0 ∧ (k.phys.node p).type = physFreeBlockType) := by
  rintro ⟨hne, hfree⟩
  obtain ⟨r, hr, rfl, htag⟩ := (hi.back p hp).resolve_left hne
  rw [(hi.data_at hr).2.2, htag] at hfree
  cases hfree

theorem mergeBefore_spec (fuel : ℕ) {k : Kernel} {xs ys : List PRegion} {r : PRegion}
    (hi : PhysInv stale tl k (xs ++ r :: ys)) (hr : r.tag = physFreeBlockType)
    (hf : xs.length < fuel) :
    ∃ k' xs' fs, xs = xs' ++ fs ∧ (∀ f ∈ fs, f.tag = physFreeBlockType) ∧
      ((∀ p, ¬ stale p) → ∀ x ∈ xs'.getLast?, x.tag ≠ physFreeBlockType) ∧
      mergeBefore fuel r.key (k.phys.node r.key).prev k = .ok ((merged fs r []).key, k') ∧
      PhysInv stale tl k' (xs' ++ merged fs r [] :: ys) ∧ SameFrame k k' := by
  induction fuel generalizing k xs r with
  | zero => omega
  | succ fuel ih =>
    have hm' := merged_of_free hr
    rcases hi.links_at.1 with hprev | hstale
    · rw [hprev]
      induction xs using List.reverseRecOn with
      | nil => exact ⟨k, [], [], rfl, by simp, by simp, rfl, by rw [hm']; exact hi, .refl k⟩
      | append_singleton xs m _ =>
        have hm : m ∈ xs ++ [m] ++ r :: ys := by simp
        have htag : (k.phys.node m.key).type = m.tag := (hi.data_at hm).2.2
        rw [List.map_append, List.map_singleton, List.getLastD_concat, mergeBefore, htag]
        by_cases hfree : m.tag = physFreeBlockType
        · have hi' : PhysInv stale tl k (xs ++ m :: r :: ys) := by simpa using hi
          obtain ⟨k1, hk1, hi1, hs1⟩ := hi'.unlink hfree hr
          obtain ⟨k2, xs', fs, rfl, hfs, hlast, hrun, hi2, hs2⟩ :=
            ih hi1 hfree (by simpa using hf)
          have hfuse : merged fs (m.fuse r) [] = merged (fs ++ [m]) r [] := by
            cases fs <;> simp [merged, total, Nat.add_assoc]
          rw [hfuse] at hrun hi2
          refine ⟨k2, xs', fs ++ [m], by simp, ?_, hlast, ?_, hi2, hs1.trans hs2⟩
          · intro f hf'
            rcases List.mem_append.mp hf' with hf' | hf'
            · exact hfs f hf'
            · rw [List.mem_singleton.mp hf']
              exact hfree
          · rw [if_pos ⟨hi.key_ne_zero (List.mem_append_left _ hm), hfree⟩, hk1, ok_bind]
            exact hrun
        · refine ⟨k, xs ++ [m], [], by simp, by simp, fun _ => by simpa using hfree, ?_,
            by rw [hm']; exact hi, .refl k⟩
          rw [if_neg (fun h => hfree h.2)]
          rfl
    · refine ⟨k, xs, [], by simp, by simp, fun h => absurd hstale (h _), ?_,
        by rw [hm']; exact hi, .refl k⟩
      rw [mergeBefore, if_neg (hi.stale_not_free hstale)]
      rfl

theorem mergeAfter_spec (fuel : ℕ) {k : Kernel} {xs ys : List PRegion} {r : PRegion}
    (hi : PhysInv stale tl k (xs ++ r :: ys)) (hr : r.tag = physFreeBlockType)
    (hf : ys.length < fuel) :
    ∃ k' gs ys', ys = gs ++ ys' ∧ (∀ g ∈ gs, g.tag = physFreeBlockType) ∧
      (∀ y ∈ ys'.head?, y.tag ≠ physFreeBlockType) ∧
      mergeAfter r.key fuel (k.phys.node r.key).next k = .ok k' ∧
      PhysInv stale tl k' (xs ++ merged [] r gs :: ys') ∧ SameFrame k k' := by
  induction fuel generalizing k ys r with
  | zero => omega
  | succ fuel ih =>
    have hm' := merged_of_free hr
    rw [hi.links_at.2]
    cases ys with
    | nil =>
      refine ⟨k, [], [], rfl, by simp, by simp, ?_, by rw [hm']; exact hi, .refl k⟩
      -- past the last block the loop ends, at the null pointer or at a node without a block
      have htl := hi.tail
      have hdata := hi.listing.data_at (r := tl.headD r)
      cases tl with
      | nil => rfl
      | cons t ts =>
        have htype := (hdata (by simp)).2.2
        rw [List.headD_cons, (htl t List.mem_cons_self).2.1] at htype
        rw [List.nil_append, List.map_cons, List.headD_cons, mergeAfter, htype,
          if_neg (fun h => absurd h.2 (by decide))]
    | cons m ys =>
      have hm : m ∈ xs ++ r :: m :: ys := by simp
      have htag : (k.phys.node m.key).type = m.tag := (hi.data_at hm).2.2
      rw [List.cons_append, List.map_cons, List.headD_cons, mergeAfter, htag]
      by_cases hfree : m.tag = physFreeBlockType
      · obtain ⟨k1, hk1, hi1, hs1⟩ := hi.unlink hr hfree
        obtain ⟨k2, gs, ys', rfl, hgs, hhead, hrun, hi2, hs2⟩ := ih hi1 hr (by simpa using hf)
        have hfuse : merged [] (r.fuse m) gs = merged [] r (m :: gs) := by
          simp [merged, total]
          omega
        rw [hfuse] at hi2
        refine ⟨k2, m :: gs, ys', rfl, ?_, hhead, ?_, hi2, hs1.trans hs2⟩
        · intro g hg
          rcases List.mem_cons.mp hg with rfl | hg
          · exact hfree
          · exact hgs g hg
        · rw [if_pos ⟨hi.key_ne_zero (List.mem_append_left _ hm), hfree⟩, hk1, ok_bind]
          exact hrun
      · refine ⟨k, [], m :: ys, rfl, by simp, by simpa using hfree, ?_, by rw [hm']; exact hi,
          .refl k⟩
        rw [if_neg (fun h => hfree h.2)]

/-- `curr->type = PHYS_FREE_BLOCK_TYPE`. -/
theorem PhysInv.markFree {k : Kernel} {xs ys : List PRegion} {r : PRegion}
    (hi : PhysInv stale tl k (xs ++ r :: ys)) (ht : Movable r.tag) :
    PhysInv stale tl
      { k with phys := k.phys.modify r.key fun b => { b with type := physFreeBlockType } }
      (xs ++ { r with tag := physFreeBlockType } :: ys) := by
  have hr : r ∈ xs ++ r :: ys := by simp
  have hkeys : (xs ++ { r with tag := physFreeBlockType } :: ys ++ tl).map Region.key =
      (xs ++ r :: ys ++ tl).map Region.key := by simp
  have hlinks : (k.phys.modify r.key fun b => { b with type := physFreeBlockType }).links =
      k.phys.links := by
    apply links_ext
    · rw [PhysMem.modify, set_next]
      exact Function.update_eq_self r.key k.phys.links.next
    · rw [PhysMem.modify, set_prev]
      exact Function.update_eq_self r.key k.phys.links.prev
  obtain ⟨hb, hs, -⟩ := hi.data_at hr
  have hlist : Listing stale (k.phys.modify r.key fun b => { b with type := physFreeBlockType })
      (xs ++ { r with tag := physFreeBlockType } :: ys ++ tl) := by
    refine ⟨?_, hkeys ▸ hi.listing.nodup, ?_⟩
    · obtain ⟨q, hl⟩ := hi.listing.linked
      refine ⟨q, ?_⟩
      rw [hkeys, hlinks]
      exact hl
    · intro t ht
      rw [PhysMem.modify, set_region]
      split_ifs with hk
      · have hnd : ((xs ++ { r with tag := physFreeBlockType } :: ys ++ tl).map
            Region.key).Nodup := hkeys ▸ hi.listing.nodup
        have htr : t = { r with tag := physFreeBlockType } :=
          List.inj_on_of_nodup_map hnd ht (by simp) hk
        rw [htr, PBlock.region, hb, hs]
      · refine hi.listing.data t ?_
        simp only [List.mem_append, List.mem_cons] at ht ⊢
        rcases ht with (ht | rfl | ht) | ht
        · exact .inl (.inl ht)
        · exact absurd rfl hk
        · exact .inl (.inr (.inr ht))
        · exact .inr ht
  have hlive := forall_replace (fun s => s.key ∈ k.heap.live) xs [r]
    [{ r with tag := physFreeBlockType }] (ys ++ tl) (by simpa using hi.live)
    (by simpa using hi.live r (List.mem_append_left _ hr))
  have hi' : PhysInv stale tl k (xs ++ [r] ++ ys) := by simpa using hi
  have := hi'.replace [{ r with tag := physFreeBlockType }] hi.heap (by simpa using hlist)
    (by simpa using hlive) (by simp [Ascending]) (by simp) (by simp [Region.stop])
    (by simpa using ht) fun p hp => .inl hp
  simpa using this

/-- `free_block` finds the first region at the address; if that one can be
freed, it and the free regions around it become one. -/
theorem PhysInv.freeBlock_spec {k : Kernel} {rs : List PRegion} (hi : PhysInv stale tl k rs) {a : ℕ}
    (ha : a ≠ 0) {r : PRegion} (hf : rs.find? (fun r => r.base = a) = some r)
    (ht : r.tag = physKernelfBlockType ∨ r.tag = physUserBlockType) :
    ∃ k' xs fs gs ys, rs = xs ++ fs ++ r :: (gs ++ ys) ∧
      (∀ f ∈ fs ++ gs, f.tag = physFreeBlockType) ∧
      ((∀ p, ¬ stale p) → ∀ x ∈ xs.getLast?, x.tag ≠ physFreeBlockType) ∧
      (∀ y ∈ ys.head?, y.tag ≠ physFreeBlockType) ∧
      freeBlock a k = .ok k' ∧ PhysInv stale tl k' (xs ++ merged fs r gs :: ys) ∧
      SameFrame k k' := by
  obtain ⟨-, xs0, ys0, rfl, -⟩ := List.find?_eq_some_iff_append.mp hf
  have hr : r ∈ xs0 ++ r :: ys0 := by simp
  have htype : (k.phys.node r.key).type = r.tag := (hi.data_at hr).2.2
  have htl : ∀ t ∈ tl, decide (t.base = a) = false := by
    intro t ht
    simpa [(hi.tail t ht).1] using ha.symm
  have hlen := hi.length_lt
  rw [List.length_append, List.length_append, List.length_cons] at hlen
  let r0 : PRegion := { r with tag := physFreeBlockType }
  obtain ⟨k1, xs, fs, rfl, hfs, hlast, hrun1, hi1, hs1⟩ :=
    mergeBefore_spec loopFuel (r := r0) (hi.markFree (.inr ht)) rfl (by omega)
  obtain ⟨k2, gs, ys, rfl, hgs, hhead, hrun2, hi2, hs2⟩ :=
    mergeAfter_spec loopFuel hi1 rfl (by omega)
  have hm : merged [] (merged fs r0 []) gs = merged fs r gs := by
    cases fs <;> simp [merged, total, r0]
  rw [hm] at hi2
  refine ⟨k2, xs, fs, gs, ys, rfl, ?_, hlast, hhead, ?_, hi2, ?_⟩
  · intro f hf'
    rcases List.mem_append.mp hf' with hf' | hf'
    · exact hfs f hf'
    · exact hgs f hf'
  · rw [freeBlock, hi.walk_eq (f := fun r => r.base = a) (fun b a => rfl) htl, hf, ok_bind]
    dsimp only [Option.map_some]
    rw [htype, if_neg (by tauto)]
    rw [hrun1, ok_bind]
    exact hrun2
  · have hmark : SameFrame k { k with
        phys := k.phys.modify r.key fun b => { b with type := physFreeBlockType } } :=
      ⟨rfl, rfl, fun _ h => h⟩
    exact (hmark.trans hs1).trans hs2

theorem PhysInv.freeBlock_non_freeable {k : Kernel} {rs : List PRegion}
    (hi : PhysInv stale tl k rs) {a : ℕ} (ha : a ≠ 0) {r : PRegion}
    (hf : rs.find? (fun r => r.base = a) = some r)
    (ht : ¬ (r.tag = physKernelfBlockType ∨ r.tag = physUserBlockType)) :
    freeBlock a k = fatalKernelError "Trying to free a non-freeable block" "FREE_BLOCK" := by
  have htl : ∀ t ∈ tl, decide (t.base = a) = false := by
    intro t ht
    simpa [(hi.tail t ht).1] using ha.symm
  have htype : (k.phys.node r.key).type = r.tag := (hi.data_at (List.mem_of_find?_eq_some hf)).2.2
  rw [freeBlock, hi.walk_eq (f := fun r => r.base = a) (fun b a => rfl) htl, hf, ok_bind]
  dsimp only [Option.map_some]
  rw [htype, if_pos (by tauto)]

/-- `free_block` stops the kernel unless the first region at the address can be freed. -/
theorem PhysInv.freeBlock_returns {k k' : Kernel} {rs : List PRegion}
    (hi : PhysInv stale tl k rs) {a : ℕ} (ha : a ≠ 0) (h : freeBlock a k = .ok k') :
    ∃ r, rs.find? (fun r => r.base = a) = some r ∧
      (r.tag = physKernelfBlockType ∨ r.tag = physUserBlockType) := by
  have htl : ∀ t ∈ tl, decide (t.base = a) = false := by
    intro t ht
    simpa [(hi.tail t ht).1] using ha.symm
  cases hr : rs.find? (fun r => r.base = a) with
  | none =>
    rw [freeBlock, hi.walk_eq (f := fun r => r.base = a) (fun b a => rfl) htl, hr, ok_bind] at h
    cases h
  | some r =>
    refine ⟨r, rfl, ?_⟩
    by_contra ht
    rw [hi.freeBlock_non_freeable ha hr ht] at h
    cases h

end VkKernel
