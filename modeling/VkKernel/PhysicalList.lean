import VkKernel.KmallocSpec
import VkKernel.Lib.LinkedList
import VkKernel.Lib.RegionList

/-!
# The physical memory list represents a list of regions

The nodes of the list are threaded both ways, and each holds one region. A
reservation cuts a region in two; freeing a block fuses it with its free
neighbours, one node at a time.
-/

namespace VkKernel
open LinkedList RegionList BlockLayout Outcome

abbrev PRegion := Region ℕ ℕ

def PBlock.region (b : PBlock) (a : ℕ) : PRegion := ⟨a, b.baseAddr, b.size, b.type⟩

def PhysMem.links (m : PhysMem) : Links ℕ where
  next a := (m.node a).next
  prev a := (m.node a).prev

/-- The list from `firstBlock` on holds the regions `rs`, each in the node named
by its key. A back link may be out of date if it is one of `stale`. -/
structure Listing (stale : ℕ → Prop) (m : PhysMem) (rs : List PRegion) : Prop where
  linked : ∃ q, Seg 0 stale m.links 0 m.firstBlock (rs.map Region.key) q 0
  nodup : (rs.map Region.key).Nodup
  data : ∀ r ∈ rs, (m.node r.key).region r.key = r

/-- All back links are right: `prev` and `next` are inverse to each other. -/
def noStale (_ : ℕ) : Prop := False

/-! ## Links and regions after the list operations -/

@[ext] theorem links_ext {l l' : Links ℕ} (hn : l.next = l'.next) (hp : l.prev = l'.prev) :
    l = l' := by
  cases l
  cases l'
  congr

theorem set_region (m : PhysMem) (p : ℕ) (b : PBlock) (a : ℕ) :
    ((m.set p b).node a).region a = if a = p then b.region p else (m.node a).region a := by
  by_cases ha : a = p
  · simp [PhysMem.set, ha]
  · simp [PhysMem.set, ha]

theorem set_next (m : PhysMem) (p : ℕ) (b : PBlock) :
    (m.set p b).links.next = Function.update m.links.next p b.next := by
  funext a
  by_cases ha : a = p
  · simp [PhysMem.set, PhysMem.links, ha]
  · simp [PhysMem.set, PhysMem.links, ha]

theorem set_prev (m : PhysMem) (p : ℕ) (b : PBlock) :
    (m.set p b).links.prev = Function.update m.links.prev p b.prev := by
  funext a
  by_cases ha : a = p
  · simp [PhysMem.set, PhysMem.links, ha]
  · simp [PhysMem.set, PhysMem.links, ha]

theorem relinkPrev_region (m : PhysMem) (p q a : ℕ) :
    ((m.relinkPrev p q).node a).region a = (m.node a).region a := by
  unfold PhysMem.relinkPrev PhysMem.modify
  split_ifs with hp
  · rw [set_region]
    split_ifs with ha
    · rw [ha]
      rfl
    · rfl
  · rfl

theorem relinkPrev_next (m : PhysMem) (p q : ℕ) : (m.relinkPrev p q).links.next = m.links.next := by
  unfold PhysMem.relinkPrev PhysMem.modify
  split_ifs with hp
  · rw [set_next]
    exact Function.update_eq_self p m.links.next
  · rfl

theorem relinkPrev_prev (m : PhysMem) (p q : ℕ) :
    (m.relinkPrev p q).links.prev =
      if p = 0 then m.links.prev else Function.update m.links.prev p q := by
  unfold PhysMem.relinkPrev PhysMem.modify
  by_cases hp : p = 0
  · rw [if_neg (not_not.mpr hp), if_pos hp]
  · rw [if_pos hp, if_neg hp, set_prev]

@[simp] theorem relinkPrev_firstBlock (m : PhysMem) (p q : ℕ) :
    (m.relinkPrev p q).firstBlock = m.firstBlock := by
  unfold PhysMem.relinkPrev
  split_ifs <;> rfl

theorem absorb_links (m : PhysMem) (p q : ℕ) : (m.absorb p q).links = m.links.bypass 0 p q := by
  unfold PhysMem.absorb PhysMem.modify
  apply links_ext
  · rw [relinkPrev_next, set_next]
    rfl
  · dsimp only
    rw [relinkPrev_prev, set_prev]
    have hself := Function.update_eq_self p m.links.prev
    simp only [PhysMem.links] at hself
    simp only [PhysMem.links, hself]
    rfl

theorem absorb_region (m : PhysMem) (p q a : ℕ) :
    ((m.absorb p q).node a).region a = if a = p then
      ⟨p, (m.node p).baseAddr, u32 ((m.node p).size + (m.node q).size), (m.node p).type⟩
      else (m.node a).region a := by
  unfold PhysMem.absorb PhysMem.modify
  rw [relinkPrev_region, set_region]
  rfl

@[simp] theorem absorb_firstBlock (m : PhysMem) (p q : ℕ) :
    (m.absorb p q).firstBlock = m.firstBlock := by
  unfold PhysMem.absorb
  rw [relinkPrev_firstBlock]
  rfl

theorem splitAt_links (m : PhysMem) (c n size type : ℕ) :
    (m.splitAt c n size type).links = m.links.insertAfter 0 c n := by
  unfold PhysMem.splitAt PhysMem.modify
  apply links_ext
  · rw [set_next, relinkPrev_next, set_next]
    rfl
  · dsimp only
    rw [set_prev, relinkPrev_prev, set_prev]
    have hself := Function.update_eq_self c
      (if m.links.next c = 0 then Function.update m.links.prev n c
        else Function.update (Function.update m.links.prev n c) (m.links.next c) n)
    rw [Links.insertAfter]
    dsimp only
    refine Eq.trans ?_ hself
    congr 1
    have := congrFun (relinkPrev_prev (m.set n ⟨u32 ((m.node c).baseAddr + size),
      sub32 (m.node c).size size, (m.node c).next, c, 1⟩) (m.node c).next n) c
    rw [set_prev] at this
    exact this

theorem splitAt_region {m : PhysMem} {c n size type a : ℕ} (hc : n ≠ c) :
    ((m.splitAt c n size type).node a).region a =
      if a = c then ⟨c, (m.node c).baseAddr, size, type⟩
      else if a = n then ⟨n, u32 ((m.node c).baseAddr + size), sub32 (m.node c).size size, 1⟩
      else (m.node a).region a := by
  unfold PhysMem.splitAt PhysMem.modify
  dsimp only
  rw [set_region]
  have hbase : ∀ m' : PhysMem, ((m'.node c).region c).base = (m'.node c).baseAddr := fun _ => rfl
  congr 1
  · simp only [PBlock.region, Region.mk.injEq, true_and, and_true]
    rw [← hbase, relinkPrev_region, set_region, if_neg (Ne.symm hc)]
    rfl
  · rw [relinkPrev_region, set_region]
    rfl

@[simp] theorem splitAt_firstBlock (m : PhysMem) (c n size type : ℕ) :
    (m.splitAt c n size type).firstBlock = m.firstBlock := by
  unfold PhysMem.splitAt PhysMem.modify PhysMem.set
  simp

/-! ## Listings after the list operations -/

theorem Listing.key_inj {stale : ℕ → Prop} {m : PhysMem} {rs : List PRegion} (h : Listing stale m rs) {r s : PRegion}
    (hr : r ∈ rs) (hs : s ∈ rs) (hk : r.key = s.key) : r = s :=
  List.inj_on_of_nodup_map h.nodup hr hs hk

theorem Listing.data_at {stale : ℕ → Prop} {m : PhysMem} {rs : List PRegion} (h : Listing stale m rs) {r : PRegion}
    (hr : r ∈ rs) : (m.node r.key).baseAddr = r.base ∧ (m.node r.key).size = r.size ∧
      (m.node r.key).type = r.tag := by
  have hd := h.data r hr
  rw [PBlock.region] at hd
  exact ⟨congrArg Region.base hd, congrArg Region.size hd, congrArg Region.tag hd⟩

theorem Listing.unique {stale : ℕ → Prop} {m : PhysMem} {rs rs' : List PRegion}
    (h : Listing stale m rs) (h' : Listing stale m rs') : rs = rs' := by
  obtain ⟨q, hq⟩ := h.linked
  obtain ⟨q', hq'⟩ := h'.linked
  have hkeys := hq.unique hq'
  have hread : ∀ {ts : List PRegion}, Listing stale m ts →
      ts = (ts.map Region.key).map fun a => (m.node a).region a := by
    intro ts ht
    rw [List.map_map]
    exact (List.map_id ts).symm.trans (List.map_congr_left fun r hr => (ht.data r hr).symm)
  rw [hread h, hread h', hkeys]

/-- A node inserted after the node of `r`, which keeps the first `size` bytes. -/
theorem Listing.insert {stale stale' : ℕ → Prop} {m m' : PhysMem} {xs ys : List PRegion}
    {r : PRegion} {n size type : ℕ} (h : Listing stale m (xs ++ r :: ys))
    (hnew : n ∉ (xs ++ r :: ys).map Region.key)
    (hl : ∃ q, Seg 0 stale' m'.links 0 m'.firstBlock
      (xs.map Region.key ++ r.key :: n :: ys.map Region.key) q 0)
    (hd : ∀ a, (m'.node a).region a = if a = r.key then r.cut size type
      else if a = n then r.rest size n physFreeBlockType else (m.node a).region a) :
    Listing stale' m' (xs ++ r.cut size type :: r.rest size n physFreeBlockType :: ys) := by
  have hnd := h.nodup
  have hrmem : r ∈ xs ++ r :: ys := by simp
  have hnr : n ≠ r.key := fun e => hnew (by simp [e])
  rw [List.map_append, List.map_cons] at hnd hnew
  constructor
  · simpa using hl
  · simp only [List.map_append, List.map_cons, Region.cut, Region.rest]
    have hperm : (xs.map Region.key ++ r.key :: n :: ys.map Region.key).Perm
        (n :: (xs.map Region.key ++ r.key :: ys.map Region.key)) := by
      rw [List.append_cons, List.append_cons (xs.map Region.key) r.key (ys.map Region.key)]
      exact List.perm_middle
    exact hperm.nodup_iff.mpr (List.nodup_cons.mpr ⟨hnew, hnd⟩)
  · have hother : ∀ s ∈ xs ++ ys, s.key ≠ r.key ∧ s.key ≠ n := by
      intro s hs'
      have hs : s ∈ xs ++ r :: ys := by
        simp only [List.mem_append, List.mem_cons] at hs' ⊢
        tauto
      refine ⟨fun hk => ?_, fun hk => hnew ?_⟩
      · have hnd' : (r :: (xs ++ ys)).Nodup :=
          (List.perm_middle.nodup_iff).mp (List.Nodup.of_map _ h.nodup)
        rw [h.key_inj hs hrmem hk] at hs'
        exact (List.nodup_cons.mp hnd').1 hs'
      · have := List.mem_map_of_mem (f := Region.key) hs
        simpa [hk] using this
    intro s hs'
    simp only [List.mem_append, List.mem_cons] at hs'
    rw [hd]
    rcases hs' with hx | rfl | rfl | hy
    · obtain ⟨h1, h2⟩ := hother s (List.mem_append_left _ hx)
      rw [if_neg h1, if_neg h2]
      exact h.data s (by simp [hx])
    · rw [Region.cut_key, if_pos rfl]
    · rw [Region.rest_key, if_neg hnr, if_pos rfl]
    · obtain ⟨h1, h2⟩ := hother s (List.mem_append_right _ hy)
      rw [if_neg h1, if_neg h2]
      exact h.data s (by simp [hy])

/-- The fields that a cut writes, as regions. -/
theorem Listing.cut_fields {stale : ℕ → Prop} {m : PhysMem} {rs : List PRegion} {r : PRegion}
    {size : ℕ} (h : Listing stale m rs) (hr : r ∈ rs) (n type : ℕ) (hs : size ≤ r.size)
    (hstop : r.stop < 2 ^ 32) :
    (⟨r.key, (m.node r.key).baseAddr, size, type⟩ : PRegion) = r.cut size type ∧
      (⟨n, u32 ((m.node r.key).baseAddr + size), sub32 (m.node r.key).size size,
        physFreeBlockType⟩ : PRegion) = r.rest size n physFreeBlockType := by
  obtain ⟨hbase, hsize, -⟩ := h.data_at hr
  simp only [Region.stop] at hstop
  rw [hbase, hsize, u32_of_lt (by omega), sub32_of_le (by omega) hs]
  exact ⟨rfl, rfl⟩

theorem Listing.splitAt {stale : ℕ → Prop} {m : PhysMem} {xs ys : List PRegion} {r : PRegion}
    {n size : ℕ} (h : Listing stale m (xs ++ r :: ys)) (type : ℕ) (hn : n ≠ 0)
    (hnew : n ∉ (xs ++ r :: ys).map Region.key) (hs : size ≤ r.size) (hstop : r.stop < 2 ^ 32) :
    Listing stale (m.splitAt r.key n size type)
      (xs ++ r.cut size type :: r.rest size n physFreeBlockType :: ys) := by
  have hnr : n ≠ r.key := fun e => hnew (by simp [e])
  obtain ⟨hcut, hrest⟩ := h.cut_fields (by simp) n type hs hstop
  refine h.insert hnew ?_ fun a => ?_
  · obtain ⟨q, hl⟩ := h.linked
    have hnd := h.nodup
    rw [List.map_append, List.map_cons] at hl hnd hnew
    rw [splitAt_links, splitAt_firstBlock]
    exact hl.insertAfter hnd hn hnew
  · rw [splitAt_region hnr, ← hcut, ← hrest]
    rfl

theorem Listing.absorb {stale : ℕ → Prop} {m : PhysMem} {xs ys : List PRegion} {r s : PRegion}
    (h : Listing stale m (xs ++ r :: s :: ys)) (hsum : r.size + s.size < 2 ^ 32) :
    Listing stale (m.absorb r.key s.key) (xs ++ r.fuse s :: ys) := by
  obtain ⟨q, hl⟩ := h.linked
  have hnd := h.nodup
  have hrmem : r ∈ xs ++ r :: s :: ys := by simp
  have hsmem : s ∈ xs ++ r :: s :: ys := by simp
  obtain ⟨hbase, hsize, htag⟩ := h.data_at hrmem
  obtain ⟨-, hsize', -⟩ := h.data_at hsmem
  rw [List.map_append, List.map_cons, List.map_cons] at hl hnd
  constructor
  · obtain ⟨q', hq⟩ := hl.bypass hnd
    refine ⟨q', ?_⟩
    rw [absorb_links, absorb_firstBlock]
    simpa [Region.fuse] using hq
  · have hsub : (xs.map Region.key ++ r.key :: ys.map Region.key).Sublist
        (xs.map Region.key ++ r.key :: s.key :: ys.map Region.key) :=
      (List.Sublist.refl _).append ((List.sublist_cons_self _ _).cons_cons _)
    simpa [Region.fuse] using hnd.sublist hsub
  · intro t ht
    rw [absorb_region]
    rcases List.mem_append.mp ht with hx | hy
    · have hne : t.key ≠ r.key := by
        intro hk
        rw [List.nodup_append] at hnd
        exact hnd.2.2 t.key (List.mem_map_of_mem hx) r.key List.mem_cons_self hk
      rw [if_neg hne]
      exact h.data t (by simp [hx])
    · rcases List.mem_cons.mp hy with rfl | hy
      · rw [Region.fuse_key, if_pos rfl, hbase, hsize, hsize', htag, u32_of_lt hsum]
        rfl
      · have hne : t.key ≠ r.key := by
          intro hk
          rw [List.nodup_append] at hnd
          have := (List.nodup_cons.mp hnd.2.1).1
          exact this (List.mem_cons_of_mem _ (hk ▸ List.mem_map_of_mem hy))
        rw [if_neg hne]
        exact h.data t (by simp [hy])

end VkKernel
