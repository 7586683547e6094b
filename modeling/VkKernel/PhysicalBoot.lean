import VkKernel.PhysicalRun

/-!
# The boot memory map

`physmem_get` turns the memory map into the list of physical blocks and reserves
the kernel image and the first kernel heap with `reserve_specific`. The second
case of `reserve_specific` leaves one back link out of date, and entries above
4 GiB leave a node without a block at the end.
-/

namespace VkKernel
open LinkedList RegionList BlockLayout Outcome

variable {stale : ℕ → Prop} {tl : List PRegion}

/-! ## Reserving a given range -/

/-- The null node is not part of any list. -/
theorem Listing.congr {m m' : PhysMem} {rs : List PRegion} (h : Listing stale m rs)
    (hf : m'.firstBlock = m.firstBlock) (hn : ∀ a, a ≠ 0 → m'.node a = m.node a) :
    Listing stale m' rs := by
  obtain ⟨q, hq⟩ := h.linked
  have hnode : ∀ r ∈ rs, m'.node r.key = m.node r.key := fun r hr =>
    hn r.key (hq.ne_null r.key (List.mem_map_of_mem hr))
  refine ⟨⟨q, ?_⟩, h.nodup, fun r hr => by rw [hnode r hr]; exact h.data r hr⟩
  rw [hf]
  refine hq.congr (fun x hx => ?_) (fun x hx => ?_)
  · simp only [PhysMem.links, hn x (hq.ne_null x hx)]
  · simp only [PhysMem.links, hn x (hq.ne_null x hx)]

theorem cutStart_node {m : PhysMem} {c n size type a : ℕ} (ha : a ≠ 0) :
    (m.cutStart c n size type).node a = (m.splitAt c n size type).node a := by
  unfold PhysMem.cutStart PhysMem.splitAt PhysMem.relinkPrev
  by_cases hnext : (m.node c).next = 0
  · simp only [hnext, ne_eq, not_true_eq_false, ↓reduceIte, PhysMem.modify, PhysMem.set]
    by_cases hc : c = 0
    · simp [hc, ha, Function.update_of_ne, physFreeBlockType]
    · by_cases hac : a = c
      · subst hac
        simp [ha, physFreeBlockType]
      · simp [hac, ha, physFreeBlockType]
  · simp only [hnext, ne_eq, not_false_eq_true, ↓reduceIte]
    rfl

/-- The first case of `reserve_specific`. -/
theorem PhysInv.cutStart {k : Kernel} {xs ys : List PRegion} {r : PRegion} {node n : ℕ} {h' : Heap}
    (hi : PhysInv stale tl k (xs ++ r :: ys)) (type : ℕ) (hfree : r.tag = physFreeBlockType)
    (hn : n ≤ r.size) (hnew : node ∉ k.heap.live) (hn0 : node ≠ 0) (hkept : Kept k.heap h')
    (hlive : h'.live = node :: k.heap.live) :
    PhysInv stale tl { k with heap := h', phys := k.phys.cutStart r.key node n type }
      (xs ++ r.cut n type :: r.rest n node physFreeBlockType :: ys) := by
  have hcut := hi.cut type hfree hn hnew hn0 hkept hlive
  exact { hcut with
    listing := hcut.listing.congr (by rw [splitAt_firstBlock]; rfl) fun a ha => cutStart_node ha }

theorem cutBefore_links {m : PhysMem} {c b p addr size : ℕ} (hp : (m.node c).prev = p)
    (hpc : (m.node p).next = c) (hc : c ≠ 0) (hcp : c ≠ p) (hbp : b ≠ p) (hbc : b ≠ c) :
    (m.cutBefore c b addr size).links = m.links.insertAfter 0 p b := by
  have hnext : m.links.next p = c := hpc
  unfold PhysMem.cutBefore PhysMem.modify
  apply links_ext
  · dsimp only
    rw [set_next, set_next, set_next, hp]
    simp only [Links.insertAfter, hnext]
    funext a
    by_cases hac : a = c
    · subst hac
      simp [PhysMem.set, hcp, Ne.symm hbc, PhysMem.links]
    · by_cases hap : a = p
      · subst hap
        simp [Ne.symm hcp]
      · simp [hac, hap, Function.update_apply]
  · dsimp only
    rw [set_prev, set_prev, set_prev, hp]
    simp only [Links.insertAfter, hnext, hc, ↓reduceIte]
    funext a
    by_cases hac : a = c
    · subst hac
      simp
    · by_cases hap : a = p
      · subst hap
        simp [PhysMem.set, Ne.symm hcp, Ne.symm hbp, PhysMem.links]
      · by_cases hab : a = b
        · subst hab
          simp [hac, hap]
        · simp [hac, hap, hab]

theorem cutBefore_region {m : PhysMem} {c b p addr size a : ℕ} (hp : (m.node c).prev = p)
    (hcp : c ≠ p) (hbp : b ≠ p) (hbc : b ≠ c) :
    ((m.cutBefore c b addr size).node a).region a =
      if a = c then ⟨c, addr, sub32 (m.node c).size (sub32 addr size), (m.node c).type⟩
      else if a = b then ⟨b, (m.node c).baseAddr, sub32 addr size, physFreeBlockType⟩
      else (m.node a).region a := by
  unfold PhysMem.cutBefore PhysMem.modify
  dsimp only
  rw [set_region, set_region, set_region, hp]
  by_cases hac : a = c
  · subst hac
    simp [PhysMem.set, hcp, Ne.symm hbc, PBlock.region]
  · by_cases hap : a = p
    · subst hap
      simp [PhysMem.set, hac, Ne.symm hbp, PBlock.region]
    · simp [hac, hap, PBlock.region]

/-- A free node in front of the block, when the size it gets is right. -/
theorem PhysInv.cutBefore {k : Kernel} {xs ys : List PRegion} {p r : PRegion}
    {node size : ℕ} {h' : Heap} (hi : PhysInv stale tl k (xs ++ p :: r :: ys)) (addr : ℕ)
    (hprev : (k.phys.node r.key).prev = p.key) (hfree : r.tag = physFreeBlockType)
    (hsize : size ≤ addr) (haddr : r.base = size) (hin : addr < r.stop)
    (hnew : node ∉ k.heap.live) (hn0 : node ≠ 0) (hkept : Kept k.heap h')
    (hlive : h'.live = node :: k.heap.live) :
    PhysInv stale tl { k with heap := h', phys := k.phys.cutBefore r.key node addr size }
      ((xs ++ [p]) ++ ⟨node, r.base, addr - r.base, physFreeBlockType⟩ ::
        ⟨r.key, addr, r.stop - addr, physFreeBlockType⟩ :: ys) := by
  have hr : r ∈ xs ++ p :: r :: ys := by simp
  have hbound := hi.bounded r hr (.inl hfree)
  simp only [Region.stop] at hin hbound
  obtain ⟨hrb, hrs, hrt⟩ := hi.data_at hr
  have hlist := hi.listing
  rw [List.append_assoc, List.cons_append, List.cons_append] at hlist
  have hfresh : node ∉ (xs ++ p :: r :: (ys ++ tl)).map Region.key := by
    intro hm
    obtain ⟨s, hs, rfl⟩ := List.mem_map.mp hm
    exact hnew (hi.live s (by simpa using hs))
  have hnd := hlist.nodup
  obtain ⟨q, hq⟩ := hlist.linked
  rw [List.map_append, List.map_cons, List.map_cons] at hnd hfresh hq
  have hnext : (k.phys.node p.key).next = r.key := hq.links_at.2
  have hpr : p.key ≠ r.key := by
    have := (List.nodup_cons.mp (List.nodup_append.mp hnd).2.1).1
    exact fun h => this (by simp [h])
  have hnp : node ≠ p.key := fun h => hfresh (by simp [h])
  have hnr : node ≠ r.key := fun h => hfresh (by simp [h])
  have hsub : sub32 addr size = addr - size := sub32_of_le (by omega) hsize
  have hrest : sub32 r.size (addr - size) = r.base + r.size - addr := by
    rw [sub32_of_le (by omega) (by omega)]
    omega
  have hi' : PhysInv stale tl k ((xs ++ [p]) ++ r :: ys) := by simpa using hi
  refine hi'.cut_of_listing hfree hkept hlive ?_ (.inr ⟨rfl, rfl⟩) rfl ?_ ?_ fun p hp => .inl hp
  · constructor
    · obtain ⟨q', hq'⟩ := hq.insertAfter hnd hn0 hfresh
      refine ⟨q', ?_⟩
      rw [cutBefore_links hprev hnext (hi.key_ne_zero (by simp)) (Ne.symm hpr) hnp hnr]
      simpa [PhysMem.cutBefore, PhysMem.modify, PhysMem.set] using hq'
    · have hperm : (xs.map Region.key ++ p.key :: node :: r.key :: (ys ++ tl).map Region.key).Perm
          (node :: (xs.map Region.key ++ p.key :: r.key :: (ys ++ tl).map Region.key)) := by
        rw [List.append_cons, List.append_cons (xs.map Region.key) p.key (r.key :: _)]
        exact List.perm_middle
      have := hperm.nodup_iff.mpr (List.nodup_cons.mpr ⟨hfresh, hnd⟩)
      simpa using this
    · intro s hs
      rw [cutBefore_region hprev (Ne.symm hpr) hnp hnr, hrs, hrt, hrb, hsub]
      simp only [List.append_assoc, List.cons_append, List.nil_append, List.mem_append,
        List.mem_cons] at hs
      -- the other nodes have other keys, so they are as before
      have hother : s ∈ xs ++ p :: (ys ++ tl) → s.key ≠ r.key ∧ s.key ≠ node := by
        intro hs
        have hnd' : (r.key :: (xs ++ p :: (ys ++ tl)).map Region.key).Nodup := by
          have hperm : (xs.map Region.key ++ p.key :: r.key :: (ys ++ tl).map Region.key).Perm
              (r.key :: (xs.map Region.key ++ p.key :: (ys ++ tl).map Region.key)) := by
            rw [List.append_cons, List.append_cons (xs.map Region.key) p.key (List.map _ _)]
            exact List.perm_middle
          simpa using hperm.nodup_iff.mp hnd
        refine ⟨fun h => (List.nodup_cons.mp hnd').1 (h ▸ List.mem_map_of_mem hs), fun h => ?_⟩
        refine hnew (h ▸ hi.live s ?_)
        simp only [List.mem_append, List.mem_cons] at hs ⊢
        tauto
      have hkeep : s ∈ xs ++ p :: (ys ++ tl) → (k.phys.node s.key).region s.key = s := fun hs =>
        hlist.data s (by simp only [List.mem_append, List.mem_cons] at hs ⊢; tauto)
      rcases hs with hs | rfl | rfl | rfl | hs
      · obtain ⟨h1, h2⟩ := hother (by simp [hs])
        rw [if_neg h1, if_neg h2]
        exact hkeep (by simp [hs])
      · obtain ⟨h1, h2⟩ := hother (by simp)
        rw [if_neg h1, if_neg h2]
        exact hkeep (by simp)
      · rw [if_neg hnr, if_pos rfl, haddr]
      · rw [if_pos rfl, hrest, hfree]
        rfl
      · obtain ⟨h1, h2⟩ := hother (by simp only [List.mem_append, List.mem_cons]; tauto)
        rw [if_neg h1, if_neg h2]
        exact hkeep (by simp only [List.mem_append, List.mem_cons]; tauto)
  · simp only [Region.stop]
    omega
  · simp only [Region.stop]
    omega

theorem cutAfter_links (m : PhysMem) (c n size type : ℕ) :
    (m.cutAfter c n size type).links = m.links.insertLazily c n := by
  unfold PhysMem.cutAfter PhysMem.modify
  apply links_ext
  · rw [set_next, set_next]
    rfl
  · dsimp only
    rw [set_prev, set_prev]
    have hself := Function.update_eq_self c (Function.update m.links.prev n c)
    refine Eq.trans ?_ hself
    congr 1
    have := congrFun (set_prev m n ⟨u32 ((m.node c).baseAddr + size), sub32 (m.node c).size size,
      (m.node c).next, c, physFreeBlockType⟩) c
    exact this

theorem cutAfter_region {m : PhysMem} {c n size type a : ℕ} (hc : n ≠ c) :
    ((m.cutAfter c n size type).node a).region a =
      if a = c then ⟨c, (m.node c).baseAddr, size, type⟩
      else if a = n then
        ⟨n, u32 ((m.node c).baseAddr + size), sub32 (m.node c).size size, physFreeBlockType⟩
      else (m.node a).region a := by
  unfold PhysMem.cutAfter PhysMem.modify
  dsimp only
  rw [set_region, set_region]
  by_cases hac : a = c
  · simp [hac, PhysMem.set, Ne.symm hc, PBlock.region]
  · simp [hac, PBlock.region]

/-- A free node behind a block of the kernel, whose old successor keeps its back
link. -/
theorem PhysInv.cutAfter {k : Kernel} (xs : List PRegion) {ys : List PRegion} {r : PRegion}
    {node n : ℕ} {h' : Heap} (hi : PhysInv stale tl k (xs ++ r :: ys)) (hfree : r.tag = physFreeBlockType)
    (hn : n ≤ r.size) (hnew : node ∉ k.heap.live) (hn0 : node ≠ 0) (hkept : Kept k.heap h')
    (hlive : h'.live = node :: k.heap.live) :
    PhysInv (fun p => stale p ∨ p = r.key) tl
      { k with heap := h', phys := k.phys.cutAfter r.key node n physKernelBlockType }
      (xs ++ r.cut n physKernelBlockType :: r.rest n node physFreeBlockType :: ys) := by
  have hlist := hi.listing
  rw [List.append_assoc, List.cons_append] at hlist
  have hfresh : node ∉ (xs ++ r :: (ys ++ tl)).map Region.key := by
    intro hm
    obtain ⟨s, hs, rfl⟩ := List.mem_map.mp hm
    exact hnew (hi.live s (by simpa using hs))
  have hnr : node ≠ r.key := fun e => hfresh (by simp [e])
  obtain ⟨hcut, hrest⟩ := hlist.cut_fields (by simp) node physKernelBlockType hn
    (hi.bounded r (by simp) (.inl hfree))
  have hl : Listing (fun p => stale p ∨ p = r.key)
      (k.phys.cutAfter r.key node n physKernelBlockType)
      (xs ++ r.cut n physKernelBlockType :: r.rest n node physFreeBlockType :: (ys ++ tl)) := by
    refine hlist.insert hfresh ?_ fun a => ?_
    · obtain ⟨q, hq⟩ := hlist.linked
      have hnd := hlist.nodup
      rw [List.map_append, List.map_cons] at hq hnd hfresh
      rw [cutAfter_links]
      exact (hq.mono fun p => .inl).insertLazily hnd hn0 hfresh (.inr rfl)
    · rw [cutAfter_region hnr, ← hcut, ← hrest]
  refine hi.cut_of_listing hfree hkept hlive (by simpa using hl) (.inl ⟨rfl, rfl⟩) rfl rfl ?_
    fun p hp => hp.imp id fun h => ⟨h, rfl⟩
  simp only [Region.stop, Region.rest_base, Region.rest_size]
  omega

/-- The two tests of `reserve_specific` on a region. -/
def meets (addr : ℕ) (r : PRegion) : Bool :=
  decide (r.base = addr ∧ r.tag = physFreeBlockType) ||
    decide (r.base < addr ∧ u32 (r.base + r.size) > addr)

theorem PhysInv.reserveSpecific_walk {k : Kernel} {rs : List PRegion}
    (hi : PhysInv stale tl k rs) (addr : ℕ) :
    k.phys.walk (fun b => b.startsAt addr || b.spans addr) loopFuel k.phys.firstBlock =
      .ok ((rs.find? (meets addr)).map Region.key) := by
  refine hi.walk_eq (fun b a => rfl) fun t ht => ?_
  obtain ⟨hb, htag, hs⟩ := hi.tail t ht
  simp [meets, hb, htag, hs, u32, physFreeBlockType]

/-- `reserve_specific` on a block that starts at the address. -/
theorem PhysInv.reserveSpecific_start {k : Kernel} {rs : List PRegion} {a : Alloc}
    (hi : PhysInv stale tl k rs) {r : PRegion} {size : ℕ} (type : ℕ)
    (hf : rs.find? (meets r.base) = some r) (hfree : r.tag = physFreeBlockType)
    (hsize : size ≤ r.size) :
    reserveSpecific a r.base size type k = a sizeofPBlock k >>= fun n =>
      .ok (((n.2.phys.cutStart r.key n.1 size type).node r.key).baseAddr,
        { n.2 with phys := n.2.phys.cutStart r.key n.1 size type }) := by
  obtain ⟨hb, hs, ht⟩ := hi.data_at (List.mem_of_find?_eq_some hf)
  rw [reserveSpecific, hi.reserveSpecific_walk, hf, ok_bind]
  dsimp only [Option.map_some]
  rw [ht, hs, if_neg (by rw [hfree]; omega)]
  have hstart : (k.phys.node r.key).startsAt r.base = true := by
    simp [PBlock.startsAt, hb, ht, hfree]
  rw [if_pos hstart]

/-- `reserve_specific` on a block that starts before the address. -/
theorem PhysInv.reserveSpecific_span {k : Kernel} {rs : List PRegion} {a : Alloc}
    (hi : PhysInv stale tl k rs) {r : PRegion} {addr size : ℕ} (type : ℕ)
    (hf : rs.find? (meets addr) = some r) (hfree : r.tag = physFreeBlockType)
    (hsize : size ≤ r.size) (hne : r.base ≠ addr) :
    reserveSpecific a addr size type k = a sizeofPBlock k >>= fun n =>
      a sizeofPBlock { n.2 with phys := n.2.phys.cutBefore r.key n.1 addr size } >>= fun n' =>
      .ok (((n'.2.phys.cutAfter r.key n'.1 size type).node r.key).baseAddr,
        { n'.2 with phys := n'.2.phys.cutAfter r.key n'.1 size type }) := by
  obtain ⟨hb, hs, ht⟩ := hi.data_at (List.mem_of_find?_eq_some hf)
  rw [reserveSpecific, hi.reserveSpecific_walk, hf, ok_bind]
  dsimp only [Option.map_some]
  rw [ht, hs, if_neg (by rw [hfree]; omega)]
  have hstart : ¬ (k.phys.node r.key).startsAt addr = true := by
    simp [PBlock.startsAt, hb, hne]
  rw [if_neg hstart]

/-- `reserve_specific` stops the kernel unless the block it finds is free and
has the size. -/
theorem PhysInv.reserveSpecific_returns {k : Kernel} {rs : List PRegion} {a : Alloc}
    (hi : PhysInv stale tl k rs) {addr size type : ℕ} {s : ℕ × Kernel}
    (h : reserveSpecific a addr size type k = .ok s) :
    ∃ r, rs.find? (meets addr) = some r ∧ r.tag = physFreeBlockType ∧ size ≤ r.size := by
  rw [reserveSpecific, hi.reserveSpecific_walk, ok_bind] at h
  cases hf : rs.find? (meets addr) with
  | none =>
    rw [hf] at h
    cases h
  | some r =>
    obtain ⟨-, hs, ht⟩ := hi.data_at (List.mem_of_find?_eq_some hf)
    rw [hf] at h
    dsimp only [Option.map_some] at h
    rw [ht, hs] at h
    split_ifs at h with hbad
    · cases h
    · exact ⟨r, rfl, by tauto, by omega⟩
    · exact ⟨r, rfl, by tauto, by omega⟩

theorem PhysInv.reserveSpecific_start_spec {k k1 : Kernel} {rs : List PRegion}
    (hi : PhysInv stale tl k rs) {r : PRegion} {n node size : ℕ} (type : ℕ)
    (hf : rs.find? (meets r.base) = some r) (hfree : r.tag = physFreeBlockType)
    (hsize : size ≤ r.size) (hk : kmalloc n sizeofPBlock k = .ok (node, k1)) :
    ∃ a k' xs ys, reserveSpecific (kmalloc n) r.base size type k = .ok (a, k') ∧
      rs = xs ++ r :: ys ∧ PhysInv stale tl k' (xs ++ r.cut size type ::
        r.rest size node physFreeBlockType :: ys) ∧
      (k'.phys.node node).prev = r.key ∧ k'.heap = k1.heap := by
  obtain ⟨-, xs, ys, rfl, -⟩ := List.find?_eq_some_iff_append.mp hf
  obtain ⟨bs, hh⟩ := hi.heap
  obtain ⟨hnew, hn0, hk1, hkept, hlive, -⟩ := hh.kmalloc_node hk
  have hcut := hi.cutStart type hfree hsize hnew hn0 hkept hlive
  have hnr : node ≠ r.key := fun h => hnew (h ▸ hi.live r (by simp))
  have hrs := hi.reserveSpecific_start (a := kmalloc n) type hf hfree hsize
  rw [hk, ok_bind] at hrs
  refine ⟨_, _, xs, ys, hrs, rfl, ?_, ?_, rfl⟩
  · rw [hk1]
    exact hcut
  · have hphys : k1.phys = k.phys := by rw [hk1]
    have hnext : (k.phys.node r.key).next ≠ node := by
      rw [hi.links_at.2]
      intro h
      cases hys : ys ++ tl with
      | nil =>
        rw [hys] at h
        exact hn0 h.symm
      | cons y zs =>
        rw [hys] at h
        exact hnew (h ▸ hi.live y (by simp [hys]))
    dsimp only
    rw [hphys]
    simp [PhysMem.cutStart, PhysMem.modify, PhysMem.set, hnr, Ne.symm hnext]

theorem PhysInv.reserveSpecific_span_spec {k k1 k2 : Kernel} {xs ys : List PRegion} {p r : PRegion}
    (hi : PhysInv stale tl k (xs ++ p :: r :: ys)) {n b c addr size : ℕ}
    (hf : (xs ++ p :: r :: ys).find? (meets addr) = some r) (hfree : r.tag = physFreeBlockType)
    (hprev : (k.phys.node r.key).prev = p.key) (hbase : r.base = size) (hle : size < addr)
    (hin : addr + size ≤ r.stop) (h0 : 0 < size) (hk1 : kmalloc n sizeofPBlock k = .ok (b, k1))
    (hk2 : kmalloc n sizeofPBlock { k1 with phys := k1.phys.cutBefore r.key b addr size } =
      .ok (c, k2)) :
    ∃ a k', reserveSpecific (kmalloc n) addr size physKernelBlockType k = .ok (a, k') ∧
      PhysInv (fun q => stale q ∨ q = r.key) tl k'
        (xs ++ p :: ⟨b, r.base, addr - r.base, physFreeBlockType⟩ ::
          ⟨r.key, addr, size, physKernelBlockType⟩ ::
          ⟨c, addr + size, r.stop - addr - size, physFreeBlockType⟩ :: ys) ∧
      k'.heap = k2.heap := by
  obtain ⟨bs, hh⟩ := hi.heap
  obtain ⟨hnew, hn0, hk1', hkept, hlive, -⟩ := hh.kmalloc_node hk1
  have hsize : size ≤ r.size := by
    simp only [Region.stop] at hin
    omega
  have hbefore := hi.cutBefore addr hprev hfree hle.le hbase (by omega) hnew hn0 hkept
    hlive
  have hphys1 : k1.phys = k.phys := by rw [hk1']
  have hk1s : { k1 with phys := k1.phys.cutBefore r.key b addr size } =
      { k with heap := k1.heap, phys := k.phys.cutBefore r.key b addr size } := by
    rw [hk1']
  obtain ⟨bs1, hh1⟩ := hbefore.heap
  rw [hk1s] at hk2
  obtain ⟨hnew2, hn02, hk2', hkept2, hlive2, -⟩ := hh1.kmalloc_node hk2
  have hafter := PhysInv.cutAfter (xs ++ [p] ++ [⟨b, r.base, addr - r.base, physFreeBlockType⟩])
    (r := ⟨r.key, addr, r.stop - addr, physFreeBlockType⟩) (n := size) (by simpa using hbefore) rfl
    (by dsimp only; omega) hnew2 hn02 hkept2 hlive2
  have hrs := hi.reserveSpecific_span (a := kmalloc n) physKernelBlockType hf hfree hsize (by omega)
  rw [hk1, ok_bind, hk1s, hk2, ok_bind] at hrs
  refine ⟨_, _, hrs, ?_, rfl⟩
  rw [hk2']
  simpa [Region.cut, Region.rest] using hafter

/-! ## Reading the memory map -/

/-- An entry that `physmem_get` turns into a block. -/
def MemoryMap.low (e : MemoryMap) : Bool := e.baseAddr < u32Max

/-- Base, size and type of the block of an entry. -/
def MemoryMap.body (e : MemoryMap) : ℕ × ℕ × ℕ :=
  (e.baseAddr, if e.length < u32Max then e.length else u32Max - 1, e.type)

def body (r : PRegion) : ℕ × ℕ × ℕ := (r.base, r.size, r.tag)

/-- Inside the loop of `physmem_get`: the blocks `acc` are complete, and `current`
is the node to fill, which like all other nodes is still zero. -/
structure Filling (stale : ℕ → Prop) (k : Kernel) (acc : List PRegion) (prev current : ℕ) :
    Prop where
  heap : ∃ bs, HeapInv k.heap bs
  linked : Seg 0 stale k.phys.links 0 k.phys.firstBlock (acc.map Region.key) prev current
  nodup : (acc.map Region.key).Nodup
  data : ∀ r ∈ acc, (k.phys.node r.key).region r.key = r
  live : ∀ r ∈ acc, r.key ∈ k.heap.live
  current_live : current ∈ k.heap.live
  current_new : current ∉ acc.map Region.key
  current_ne : current ≠ 0
  fresh : ∀ p, p ∉ acc.map Region.key → k.phys.node p = PBlock.zero

/-- The block of an entry in the node `current`. -/
def fill (e : MemoryMap) (prev next : ℕ) : PBlock :=
  ⟨e.baseAddr, if e.length < u32Max then e.length else u32Max - 1, next, prev, e.type⟩

/-- Completing the node `current`, whose successor is `next`. -/
theorem Filling.fill {k : Kernel} {acc : List PRegion} {prev current : ℕ}
    (h : Filling stale k acc prev current) (e : MemoryMap) (next : ℕ) :
    Seg 0 stale (k.phys.set current (fill e prev next)).links 0 k.phys.firstBlock
        ((acc ++ [(fill e prev next).region current]).map Region.key) current next ∧
      ((acc ++ [(fill e prev next).region current]).map Region.key).Nodup ∧
      (∀ r ∈ acc ++ [(fill e prev next).region current],
        ((k.phys.set current (fill e prev next)).node r.key).region r.key = r) := by
  have hne : ∀ x ∈ acc.map Region.key, x ≠ current := fun x hx hc => h.current_new (hc ▸ hx)
  refine ⟨?_, ?_, ?_⟩
  · rw [List.map_append]
    refine seg_append.mpr ⟨prev, current, h.linked.congr ?_ ?_, rfl, h.current_ne, .inl ?_, rfl, ?_⟩
    · intro x hx
      rw [set_next, Function.update_of_ne (hne x hx)]
    · intro x hx
      rw [set_prev, Function.update_of_ne (hne x hx)]
    · rw [set_prev]
      exact Function.update_self _ _ _
    · rw [set_next]
      exact Function.update_self _ _ _
  · rw [List.map_append, List.nodup_append]
    refine ⟨h.nodup, List.nodup_singleton _, fun a ha b hb => ?_⟩
    rw [List.mem_singleton.mp hb]
    exact hne a ha
  · intro r hr
    rw [set_region]
    rcases List.mem_append.mp hr with hr | hr
    · rw [if_neg (hne r.key (List.mem_map_of_mem hr))]
      exact h.data r hr
    · rw [List.mem_singleton.mp hr]
      exact if_pos rfl

theorem physmemLoop_high {a : Alloc} {es : List MemoryMap} (h : ∀ e ∈ es, e.low = false)
    (prev current : ℕ) (k : Kernel) : physmemLoop a es prev current k = .ok k := by
  induction es with
  | nil => rfl
  | cons e es ih =>
    have he := h e List.mem_cons_self
    rw [MemoryMap.low, decide_eq_false_iff_not] at he
    rw [physmemLoop, if_neg he]
    exact ih fun f hf => h f (List.mem_cons_of_mem _ hf)

/-- A zero node at the end of the list. -/
theorem Filling.listing_tail {k : Kernel} {acc : List PRegion} {prev current : ℕ}
    (h : Filling stale k acc prev current) (h0 : stale 0) :
    Listing stale k.phys (acc ++ [⟨current, 0, 0, 0⟩]) := by
  have hzero := h.fresh current h.current_new
  refine ⟨⟨current, ?_⟩, ?_, ?_⟩
  · rw [List.map_append]
    refine seg_append.mpr ⟨prev, current, h.linked, rfl, h.current_ne, .inr ?_, rfl, ?_⟩
    · simp only [PhysMem.links, hzero]
      exact h0
    · simp only [PhysMem.links, hzero]
      rfl
  · rw [List.map_append, List.nodup_append]
    refine ⟨h.nodup, List.nodup_singleton _, fun a ha b hb => ?_⟩
    rw [List.mem_singleton.mp hb]
    rintro rfl
    exact h.current_new ha
  · intro r hr
    rcases List.mem_append.mp hr with hr | hr
    · exact h.data r hr
    · rw [List.mem_singleton.mp hr]
      dsimp only
      rw [hzero]
      rfl

/-- One entry of the map: the node `current` is completed, and the next node is
allocated. -/
theorem Filling.next {k k1 : Kernel} {acc : List PRegion} {prev current n next : ℕ}
    (h : Filling stale k acc prev current) (e : MemoryMap)
    (hk : kmalloc n sizeofPBlock { k with phys := k.phys.set current (VkKernel.fill e prev 0) } =
      .ok (next, k1)) :
    Filling stale { k1 with phys := k1.phys.set current (VkKernel.fill e prev next) }
      (acc ++ [(VkKernel.fill e prev next).region current]) current next := by
  obtain ⟨bs, hh⟩ := h.heap
  obtain ⟨hnew, hn0, hk1, hkept, hlive, -⟩ := HeapInv.kmalloc_node
    (k := { k with phys := k.phys.set current (VkKernel.fill e prev 0) }) hh hk
  have hphys : k1.phys.set current (VkKernel.fill e prev next) =
      k.phys.set current (VkKernel.fill e prev next) := by
    rw [hk1]
    simp [PhysMem.set]
  obtain ⟨hseg, hnd, hdata⟩ := h.fill e next
  rw [hphys]
  refine ⟨hkept.inv, hseg, hnd, hdata, ?_, ?_, ?_, hn0, ?_⟩
  · intro r hr
    dsimp only
    rw [hlive]
    refine List.mem_cons_of_mem _ ?_
    rcases List.mem_append.mp hr with hr | hr
    · exact h.live r hr
    · rw [List.mem_singleton.mp hr]
      exact h.current_live
  · dsimp only
    rw [hlive]
    exact List.mem_cons_self
  · intro hm
    rw [List.map_append, List.mem_append] at hm
    rcases hm with hm | hm
    · obtain ⟨r, hr, rfl⟩ := List.mem_map.mp hm
      exact hnew (h.live r hr)
    · refine hnew ?_
      rw [List.mem_singleton.mp hm]
      exact h.current_live
  · intro p hp
    rw [List.map_append, List.mem_append, not_or] at hp
    have hpc : p ≠ current := fun hc => hp.2 (List.mem_singleton.mpr hc)
    have : (k.phys.set current (VkKernel.fill e prev next)).node p = k.phys.node p := by
      simp [PhysMem.set, hpc]
    rw [this]
    exact h.fresh p hp.1

/-- What the loop leaves: the completed blocks, then the blocks of the entries
`es`, then at most one zero node. -/
def Filled (stale : ℕ → Prop) (k : Kernel) (acc : List PRegion) (es : List MemoryMap) : Prop :=
  ∃ rs tl, rs.map body = (es.filter MemoryMap.low).map MemoryMap.body ∧
    Listing stale k.phys (acc ++ rs ++ tl) ∧ (∀ r ∈ acc ++ rs ++ tl, r.key ∈ k.heap.live) ∧
    (∃ bs, HeapInv k.heap bs) ∧ ∀ t ∈ tl, t.base = 0 ∧ t.tag = 0 ∧ t.size = 0

/-- Without further blocks, the current node stays zero. -/
theorem Filling.filled {k : Kernel} {acc : List PRegion} {prev current : ℕ}
    (h : Filling stale k acc prev current) (h0 : stale 0) {es : List MemoryMap}
    (hes : ∀ e ∈ es, e.low = false) : Filled stale k acc es := by
  refine ⟨[], [⟨current, 0, 0, 0⟩], ?_, by simpa using h.listing_tail h0, ?_, h.heap, by simp⟩
  · rw [List.filter_eq_nil_iff.mpr fun e he => by simp [hes e he]]
    rfl
  · intro r hr
    rw [List.append_nil] at hr
    rcases List.mem_append.mp hr with hr | hr
    · exact h.live r hr
    · rw [List.mem_singleton.mp hr]
      exact h.current_live

/-- The last block of the map. -/
theorem Filling.filled_last {k : Kernel} {acc : List PRegion} {prev current : ℕ}
    (h : Filling stale k acc prev current) {e : MemoryMap} (he : e.low = true) :
    Filled stale { k with phys := k.phys.set current (VkKernel.fill e prev 0) } acc [e] := by
  obtain ⟨hseg, hnd, hdata⟩ := h.fill e 0
  refine ⟨[(VkKernel.fill e prev 0).region current], [], by simp [he, body, MemoryMap.body,
    VkKernel.fill, PBlock.region], ?_, ?_, h.heap, by simp⟩
  · rw [List.append_nil]
    exact ⟨⟨current, hseg⟩, hnd, hdata⟩
  · intro r hr
    rw [List.append_nil] at hr
    rcases List.mem_append.mp hr with hr | hr
    · exact h.live r hr
    · rw [List.mem_singleton.mp hr]
      exact h.current_live

/-- The assignments of one round, to a zero node. -/
theorem Filling.modify {k : Kernel} {acc : List PRegion} {prev current : ℕ}
    (h : Filling stale k acc prev current) (e : MemoryMap) :
    (k.phys.modify current fun b => { b with
      baseAddr := e.baseAddr, size := if e.length < u32Max then e.length else u32Max - 1,
      type := e.type, prev := prev }) = k.phys.set current (VkKernel.fill e prev 0) := by
  rw [PhysMem.modify, h.fresh current h.current_new]
  rfl

/-- The link to the next node, once that is allocated. -/
theorem Filling.set_next {k k1 : Kernel} {acc : List PRegion} {prev current n next : ℕ}
    (h : Filling stale k acc prev current) (e : MemoryMap)
    (hk : kmalloc n sizeofPBlock { k with phys := k.phys.set current (VkKernel.fill e prev 0) } =
      .ok (next, k1)) :
    (k1.phys.modify current fun b => { b with next := next }) =
      k1.phys.set current (VkKernel.fill e prev next) := by
  obtain ⟨bs, hh⟩ := h.heap
  have hk1 := (HeapInv.kmalloc_node
    (k := { k with phys := k.phys.set current (VkKernel.fill e prev 0) }) hh hk).2.2.1
  rw [hk1]
  simp [PhysMem.modify, PhysMem.set, VkKernel.fill]

theorem physmemLoop_spec {n : ℕ} {es : List MemoryMap} {k k' : Kernel} {acc : List PRegion}
    {prev current : ℕ} (h : Filling stale k acc prev current) (h0 : stale 0)
    (hes : es.Pairwise fun e f => e.baseAddr + e.length ≤ f.baseAddr)
    (hrun : physmemLoop (kmalloc n) es prev current k = .ok k') : Filled stale k' acc es := by
  induction es generalizing k acc prev current with
  | nil =>
    injection hrun with hrun
    subst hrun
    exact h.filled h0 (by simp)
  | cons e es ih =>
    obtain ⟨he, hes⟩ := List.pairwise_cons.mp hes
    by_cases hlow : e.baseAddr < u32Max
    · have hlow' : e.low = true := by simpa [MemoryMap.low] using hlow
      rw [physmemLoop, if_pos hlow] at hrun
      dsimp only at hrun
      rw [h.modify e] at hrun
      cases es with
      | nil =>
        injection hrun with hrun
        subst hrun
        exact h.filled_last hlow'
      | cons f es =>
        obtain ⟨⟨next, k1⟩, hk1, hrun⟩ := bind_eq_ok.mp hrun
        dsimp only at hrun
        rw [h.set_next e hk1] at hrun
        obtain ⟨rs, tl, hbody, hl, hlive, hheap, htl⟩ := ih (h.next e hk1) hes hrun
        refine ⟨(fill e prev next).region current :: rs, tl, ?_, by simpa using hl,
          by simpa using hlive, hheap, htl⟩
        rw [List.filter_cons_of_pos hlow', List.map_cons, List.map_cons, hbody]
        rfl
    · -- an entry above 4 GiB is skipped, and so are all later ones
      have hall : ∀ f ∈ e :: es, f.low = false := by
        intro f hf
        rw [MemoryMap.low, decide_eq_false_iff_not]
        rcases List.mem_cons.mp hf with rfl | hf
        · exact hlow
        · have := he f hf
          omega
      rw [physmemLoop_high hall] at hrun
      injection hrun with hrun
      subst hrun
      exact h.filled h0 hall

/-- With room in the heap for its nodes, the loop completes. -/
theorem physmemLoop_of_room {n : ℕ} {es : List MemoryMap} {k : Kernel} {acc : List PRegion}
    {prev current : ℕ} (h : Filling stale k acc prev current)
    (hroom : k.heap.Room (n + 32 * es.length)) :
    ∃ k', physmemLoop (kmalloc 1) es prev current k = .ok k' ∧ k'.heap.Room n := by
  induction es generalizing k acc prev current with
  | nil => exact ⟨k, rfl, hroom⟩
  | cons e es ih =>
    rw [List.length_cons] at hroom
    by_cases hlow : e.baseAddr < u32Max
    · rw [physmemLoop, if_pos hlow]
      dsimp only
      rw [h.modify e]
      cases es with
      | nil => exact ⟨_, rfl, hroom.mono (by omega)⟩
      | cons f es =>
        have hroom' : k.heap.Room (n + 32 * (f :: es).length + 32) := hroom.mono (by omega)
        obtain ⟨next, k1, hk1, hr1⟩ := kmalloc_of_room
          (k := { k with phys := k.phys.set current (VkKernel.fill e prev 0) }) hroom'
        have hset := h.set_next e hk1
        obtain ⟨k', hk', hr'⟩ := ih (h.next e hk1) hr1
        refine ⟨k', ?_, hr'⟩
        dsimp only [List.isEmpty_cons]
        rw [if_neg (by decide), hk1, ok_bind]
        dsimp only
        rw [hset]
        exact hk'
    · rw [physmemLoop, if_neg hlow]
      exact ih h (hroom.mono (by omega))

/-! ## The block list after boot -/

/-- The kernel as `physmem_get` finds it: the heap has just been installed, so
the memory of every later node is zero. -/
def Booted (k : Kernel) : Prop :=
  ∃ h, k.heap = kheapInstall h ∧ k.phys.node = fun _ => PBlock.zero

/-- An address inside an entry of free memory. -/
def InRam (mmap : List MemoryMap) (x : ℕ) : Prop :=
  ∃ e ∈ mmap, e.type = physFreeBlockType ∧ e.baseAddr ≤ x ∧ x < e.baseAddr + e.length

/-- An ascending memory map that `physmem_get` handles: no free entry that starts
below 4 GiB reaches 4 GiB, and the ranges of the kernel image and of the first
heap are cut from blocks in a way `reserve_specific` gets right. -/
structure BootMap (mmap : List MemoryMap) : Prop where
  ascending : mmap.Pairwise fun e f => e.baseAddr + e.length ≤ f.baseAddr
  below : ∀ e ∈ mmap, e.low → Movable e.type → e.baseAddr + e.length < 2 ^ 32
  kernel : ∃ e ∈ mmap, e.type = physFreeBlockType ∧ e.baseAddr = 0x100000 ∧
    (0xC00000 ≤ e.baseAddr + e.length ∨
      ∃ f ∈ mmap, f.type = physFreeBlockType ∧ f.baseAddr = kheapPhysStart)

/-- The free regions lie in free memory. -/
def FreeInRam (mmap : List MemoryMap) (rs : List PRegion) : Prop :=
  ∀ r ∈ rs, r.tag = physFreeBlockType → ∀ x, r.Covers x → InRam mmap x

theorem FreeInRam.replace {mmap : List MemoryMap} {xs ys : List PRegion} {r : PRegion}
    (h : FreeInRam mmap (xs ++ r :: ys)) (zs : List PRegion) (hr : r.tag = physFreeBlockType)
    (hz : ∀ z ∈ zs, z.tag = physFreeBlockType → ∀ x, z.Covers x → r.Covers x) :
    FreeInRam mmap (xs ++ zs ++ ys) := by
  refine forall_replace (fun s => s.tag = physFreeBlockType → ∀ x, s.Covers x → InRam mmap x)
    xs [r] zs ys (by simpa [FreeInRam] using h) fun z hz' ht x hx => ?_
  exact h r (by simp) hr x (hz z hz' ht x hx)

theorem FreeInRam.cut {mmap : List MemoryMap} {xs ys : List PRegion} {r : PRegion} {n type node : ℕ}
    (h : FreeInRam mmap (xs ++ r :: ys)) (hr : r.tag = physFreeBlockType) (hn : n ≤ r.size) :
    FreeInRam mmap (xs ++ r.cut n type :: r.rest n node physFreeBlockType :: ys) := by
  have := h.replace [r.cut n type, r.rest n node physFreeBlockType] hr (by
    simp only [List.mem_cons, List.not_mem_nil, or_false, forall_eq_or_imp, forall_eq,
      Region.Covers, Region.stop, Region.cut_base, Region.cut_size, Region.rest_base,
      Region.rest_size]
    exact ⟨fun _ x h => by omega, fun _ x h => by omega⟩)
  simpa using this

section Boot

variable {mmap : List MemoryMap} {rs : List PRegion}

/-- The blocks of the map, read as regions. -/
theorem mem_of_body (hb : rs.map body = (mmap.filter MemoryMap.low).map MemoryMap.body)
    {r : PRegion} (hr : r ∈ rs) : ∃ e ∈ mmap, e.low = true ∧ e.body = body r := by
  have hm : body r ∈ (mmap.filter MemoryMap.low).map MemoryMap.body :=
    hb ▸ List.mem_map_of_mem hr
  obtain ⟨e, he, heq⟩ := List.mem_map.mp hm
  exact ⟨e, (List.mem_filter.mp he).1, (List.mem_filter.mp he).2, heq⟩

theorem exists_of_body (hb : rs.map body = (mmap.filter MemoryMap.low).map MemoryMap.body)
    {e : MemoryMap} (he : e ∈ mmap) (hlow : e.low = true) : ∃ r ∈ rs, body r = e.body := by
  have hm : e.body ∈ rs.map body :=
    hb ▸ List.mem_map_of_mem (List.mem_filter.mpr ⟨he, hlow⟩)
  exact List.mem_map.mp hm

theorem body_le (e : MemoryMap) : e.body.2.1 ≤ e.length := by
  unfold MemoryMap.body u32Max
  split_ifs with h
  · exact le_rfl
  · dsimp only
    omega

theorem ascending_of_body (hb : rs.map body = (mmap.filter MemoryMap.low).map MemoryMap.body)
    (hasc : mmap.Pairwise fun e f => e.baseAddr + e.length ≤ f.baseAddr) : Ascending rs := by
  have h1 : ((mmap.filter MemoryMap.low).map MemoryMap.body).Pairwise
      fun a b => a.1 + a.2.1 ≤ b.1 := by
    rw [List.pairwise_map]
    refine (hasc.filter _).imp fun {e f} h => ?_
    exact (Nat.add_le_add_left (body_le e) e.baseAddr).trans h
  rw [← hb, List.pairwise_map] at h1
  exact h1

theorem freeInRam_of_body (hb : rs.map body = (mmap.filter MemoryMap.low).map MemoryMap.body) :
    FreeInRam mmap rs := by
  intro r hr ht x hx
  obtain ⟨e, he, -, heq⟩ := mem_of_body hb hr
  have hle := body_le e
  have hbase : e.baseAddr = r.base := congrArg Prod.fst heq
  have hsize : e.body.2.1 = r.size := congrArg (fun t => t.2.1) heq
  have htype : e.type = r.tag := congrArg (fun t => t.2.2) heq
  refine ⟨e, he, htype.trans ht, ?_⟩
  simp only [Region.Covers, Region.stop] at hx
  omega

/-- The list that the loop of `physmem_get` leaves. -/
theorem Filled.physInv {k : Kernel} (hmap : BootMap mmap) (h : Filled (· = 0) k [] mmap) :
    ∃ tl rs, PhysInv (· = 0) tl k rs ∧
      rs.map body = (mmap.filter MemoryMap.low).map MemoryMap.body := by
  obtain ⟨rs, tl, hb, hl, hlive, hheap, htl⟩ := h
  refine ⟨tl, rs, ⟨hheap, hl, hlive, ascending_of_body hb hmap.ascending, ?_, htl,
    fun p hp => .inl hp⟩, hb⟩
  intro r hr ht
  obtain ⟨e, he, hlow, heq⟩ := mem_of_body hb hr
  have hle := body_le e
  have hbase : e.baseAddr = r.base := congrArg Prod.fst heq
  have hsize : e.body.2.1 = r.size := congrArg (fun t => t.2.1) heq
  have htype : e.type = r.tag := congrArg (fun t => t.2.2) heq
  have := hmap.below e he hlow (htype ▸ ht)
  simp only [Region.stop]
  omega

end Boot

/-- The region that `reserve_specific` finds starts at the address, if a free
region does. -/
theorem PhysInv.meets_start {k : Kernel} {rs : List PRegion} (hi : PhysInv stale tl k rs)
    {addr : ℕ} {r s : PRegion} (hf : rs.find? (meets addr) = some r)
    (hfree : r.tag = physFreeBlockType) (hs : s ∈ rs) (hsb : s.base = addr) : r.base = addr := by
  have hr := List.mem_of_find?_eq_some hf
  have hm : meets addr r = true := List.find?_some hf
  have hstop := hi.bounded r hr (.inl hfree)
  simp only [meets, Bool.or_eq_true, decide_eq_true_eq, Region.stop] at hm hstop
  rcases hm with hm | hm
  · exact hm.1
  · rw [u32_of_lt (by omega)] at hm
    by_contra hne
    have hrs : r ≠ s := by
      rintro rfl
      exact hne hsb
    have := hi.ascending.apart hr hs hrs
    simp only [Region.stop] at this
    omega

/-- The state in which the loop of `physmem_get` starts. -/
theorem Booted.filling {k k1 : Kernel} (hb : Booted k) {n first : ℕ}
    (hk : kmalloc n sizeofPBlock k = .ok (first, k1)) :
    Filling (· = 0) { k1 with phys := { k1.phys with firstBlock := first } } [] 0 first := by
  obtain ⟨h, hheap, hnode⟩ := hb
  have hh : HeapInv k.heap _ := hheap ▸ heapInv_kheapInstall h
  obtain ⟨-, hn0, hk1, hkept, hlive, -⟩ := hh.kmalloc_node hk
  refine ⟨hkept.inv, ⟨rfl, rfl⟩, List.nodup_nil, by simp, by simp, ?_, by simp, hn0, ?_⟩
  · dsimp only
    rw [hlive]
    exact List.mem_cons_self
  · intro p _
    dsimp only
    rw [hk1]
    exact congrFun hnode p

/-- The second `reserve_specific` of `physmem_get`, for the first kernel heap. -/
theorem PhysInv.reserve_heap {k : Kernel} {xs ys : List PRegion} {p r : PRegion} {n : ℕ}
    {mmap : List MemoryMap} (hi : PhysInv stale tl k (xs ++ p :: r :: ys))
    (hprev : (k.phys.node r.key).prev = p.key) (hfree : r.tag = physFreeBlockType)
    (hbase : r.base = kheapBaseSize)
    (hok : 0xC00000 ≤ r.stop ∨ ∃ s ∈ xs ++ p :: r :: ys, s.base = kheapPhysStart)
    (hram : FreeInRam mmap (xs ++ p :: r :: ys)) {s : ℕ × Kernel}
    (h : reserveSpecific (kmalloc n) kheapPhysStart kheapBaseSize physKernelBlockType k = .ok s) :
    ∃ stale' rs, PhysInv stale' tl s.2 rs ∧ FreeInRam mmap rs := by
  obtain ⟨c, hf, hcfree, hcsize⟩ := hi.reserveSpecific_returns h
  have hc := List.mem_of_find?_eq_some hf
  by_cases hcb : c.base = kheapPhysStart
  · -- a block that starts at the heap is cut once
    rw [← hcb] at hf h
    have heq := hi.reserveSpecific_start (a := kmalloc n) physKernelBlockType hf hcfree hcsize
    rw [heq] at h
    obtain ⟨⟨node, k1⟩, hk1, -⟩ := bind_eq_ok.mp h
    obtain ⟨a, k', us, vs, hrun, hsplit, hi', -⟩ :=
      hi.reserveSpecific_start_spec physKernelBlockType hf hcfree hcsize hk1
    rw [← heq, hrun] at h
    injection h with h
    subst h
    rw [hsplit] at hram
    exact ⟨stale, _, hi', hram.cut hcfree hcsize⟩
  · -- otherwise it is the block behind the kernel image
    have hcr : c = r := by
      by_contra hne
      have hstop := hi.bounded c hc (.inl hcfree)
      have hm : meets kheapPhysStart c = true := List.find?_some hf
      simp only [meets, Bool.or_eq_true, decide_eq_true_eq, hcb, false_and, false_or,
        Region.stop] at hm hstop
      rw [u32_of_lt (by omega)] at hm
      rcases hok with hlarge | ⟨t, ht, htb⟩
      · have := hi.ascending.apart hc (by simp) hne
        simp only [Region.stop, kheapPhysStart, kheapBaseSize] at this hlarge hm hbase
        omega
      · exact hcb (hi.meets_start hf hcfree ht htb)
    subst hcr
    have hlarge : 0xC00000 ≤ c.stop := by
      rcases hok with hlarge | ⟨t, ht, htb⟩
      · exact hlarge
      · exact absurd (hi.meets_start hf hcfree ht htb) hcb
    have heq := hi.reserveSpecific_span (a := kmalloc n) physKernelBlockType hf hcfree hcsize hcb
    rw [heq] at h
    obtain ⟨⟨b, k1⟩, hk1, h⟩ := bind_eq_ok.mp h
    obtain ⟨⟨d, k2⟩, hk2, h⟩ := bind_eq_ok.mp h
    obtain ⟨a, k', hrun, hi', -⟩ := hi.reserveSpecific_span_spec hf hcfree hprev hbase (by decide)
      (by simpa [kheapPhysStart, kheapBaseSize] using hlarge) (by decide) hk1 hk2
    rw [heq, hk1, ok_bind, hk2, ok_bind] at hrun
    rw [hrun] at h
    injection h with h
    subst h
    refine ⟨_, _, hi', ?_⟩
    have hram' : FreeInRam mmap ((xs ++ [p]) ++ c :: ys) := by simpa using hram
    have := hram'.replace [⟨b, c.base, kheapPhysStart - c.base, physFreeBlockType⟩,
      ⟨c.key, kheapPhysStart, kheapBaseSize, physKernelBlockType⟩,
      ⟨d, kheapPhysStart + kheapBaseSize, c.stop - kheapPhysStart - kheapBaseSize,
        physFreeBlockType⟩] hcfree (by
      simp only [List.mem_cons, List.not_mem_nil, or_false, forall_eq_or_imp, forall_eq,
        Region.Covers, Region.stop, kheapPhysStart, kheapBaseSize] at hlarge hbase ⊢
      refine ⟨fun _ x hx => by omega, fun h => absurd h (by decide), fun _ x hx => by omega⟩)
    simpa using this

/-- After `physmem_get` the list is well formed and its free blocks lie in free
memory. -/
theorem physmemGet_spec {k k1 : Kernel} {n : ℕ} {mmap : List MemoryMap} (hb : Booted k)
    (hmap : BootMap mmap) (h : physmemGet (kmalloc n) mmap k = .ok k1) :
    ∃ stale tl rs, PhysInv stale tl k1 rs ∧ FreeInRam mmap rs := by
  obtain ⟨⟨first, ka⟩, hka, h⟩ := bind_eq_ok.mp h
  obtain ⟨kb, hkb, h⟩ := bind_eq_ok.mp h
  obtain ⟨⟨a1, kc⟩, hkc, h⟩ := bind_eq_ok.mp h
  obtain ⟨⟨a2, kd⟩, hkd, h⟩ := bind_eq_ok.mp h
  injection h with h
  subst h
  have hfill := physmemLoop_spec (hb.filling hka) rfl hmap.ascending hkb
  obtain ⟨tl, rs, hi, hbody⟩ := hfill.physInv hmap
  have hram := freeInRam_of_body hbody
  -- the kernel image is cut from the start of a block
  obtain ⟨e, he, hetype, hebase, hok⟩ := hmap.kernel
  have helow : e.low = true := by simp [MemoryMap.low, hebase, u32Max]
  obtain ⟨u, hu, hub⟩ := exists_of_body hbody he helow
  have hubase : u.base = 0x100000 := (congrArg Prod.fst hub).trans hebase
  obtain ⟨r, hf, hfree, hsize⟩ := hi.reserveSpecific_returns hkc
  have hrbase := hi.meets_start hf hfree hu hubase
  have hr := List.mem_of_find?_eq_some hf
  rw [← hrbase] at hf hkc
  have heq := hi.reserveSpecific_start (a := kmalloc n) physKernelBlockType hf hfree hsize
  rw [heq] at hkc
  obtain ⟨⟨node, k2⟩, hk2, -⟩ := bind_eq_ok.mp hkc
  obtain ⟨a, k', xs, ys, hrun, rfl, hi', hprev, -⟩ :=
    hi.reserveSpecific_start_spec physKernelBlockType hf hfree hsize hk2
  rw [← heq, hrun] at hkc
  injection hkc with hkc
  rw [Prod.mk.injEq] at hkc
  obtain ⟨-, rfl⟩ := hkc
  -- the rest of that block, or another one, holds the first heap
  have hok' : 0xC00000 ≤ (r.rest 0x300000 node physFreeBlockType).stop ∨
      ∃ s ∈ xs ++ r.cut 0x300000 physKernelBlockType ::
        r.rest 0x300000 node physFreeBlockType :: ys, s.base = kheapPhysStart := by
    rcases hok with hlarge | ⟨f, hf', hftype, hfbase⟩
    · left
      have hue : u.size = e.length := by
        have hlt := hmap.below e he helow (.inl hetype)
        have hs : u.size = e.body.2.1 := congrArg (fun t => t.2.1) hub
        rw [hs, MemoryMap.body, if_pos (by unfold u32Max; omega)]
      have hur : u = r := by
        by_contra hne
        have := hi.ascending.apart hu hr hne
        simp only [Region.stop] at this
        omega
      simp only [Region.stop, Region.rest_base, Region.rest_size]
      rw [← hur] at hsize ⊢
      omega
    · right
      have hflow : f.low = true := by simp [MemoryMap.low, hfbase, u32Max, kheapPhysStart]
      obtain ⟨v, hv, hvb⟩ := exists_of_body hbody hf' hflow
      have hvbase : v.base = kheapPhysStart := (congrArg Prod.fst hvb).trans hfbase
      have hvr : v ≠ r := by
        rintro rfl
        rw [hvbase] at hrbase
        cases hrbase
      refine ⟨v, ?_, hvbase⟩
      simp only [List.mem_append, List.mem_cons, hvr, false_or] at hv ⊢
      tauto
  obtain ⟨stale', rs', hi2, hram2⟩ := hi'.reserve_heap hprev rfl
    (by rw [Region.rest_base, hrbase]; decide) hok' (hram.cut hfree hsize) hkd
  exact ⟨stale', tl, rs', hi2, hram2⟩

end VkKernel
