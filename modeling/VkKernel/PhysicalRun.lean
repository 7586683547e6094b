import VkKernel.PhysicalSpec

/-!
# Runs of the physical memory manager

A run is a sequence of reservations and frees that return. Beside the kernel it
carries the reservations that have not been freed, as pairs of an address and a
size rounded up to pages.
-/

namespace VkKernel
open LinkedList RegionList BlockLayout Outcome

/-- A block list that is doubly linked, ascending and without overlaps or
wrap-around, in nodes allocated from the kernel heap. -/
structure InitialList (k : Kernel) (rs : List PRegion) : Prop where
  heap : HeapReachable k
  listing : Listing noStale k.phys rs
  live : ∀ r ∈ rs, r.key ∈ k.heap.live
  chain : rs.IsChain fun r s => r.stop ≤ s.base
  bounded : ∀ r ∈ rs, r.stop < 2 ^ 32

/-- One reservation, with a type among `types`, or one free of a live
reservation that meets `mayFree`, or work of the heap's other clients, who keep
the nodes of the list allocated. -/
inductive PhysStep (types : ℕ → Prop) (mayFree : Kernel → ℕ → Prop) :
    Kernel × List (ℕ × ℕ) → Kernel × List (ℕ × ℕ) → Prop
  | reserve {k k' : Kernel} {rv : List (ℕ × ℕ)} {n size type a : ℕ} : 0 < size →
      size ≤ 0xFFFFF000 → types type → reserveBlock (kmalloc n) size type k = .ok (a, k') →
      PhysStep types mayFree (k, rv) (k', (a, alignup size 4096) :: rv)
  | free {k k' : Kernel} {rv : List (ℕ × ℕ)} {a size : ℕ} : (a, size) ∈ rv → mayFree k a →
      freeBlock a k = .ok k' → PhysStep types mayFree (k, rv) (k', rv.erase (a, size))
  | heap {k k' : Kernel} {rv : List (ℕ × ℕ)} : HeapStep k k' → k'.phys = k.phys →
      (∀ stale rs, Listing stale k.phys rs → ∀ r ∈ rs, r.key ∈ k'.heap.live) →
      PhysStep types mayFree (k, rv) (k', rv)

/-- Every live reservation has a block of its own. -/
structure RunInv (stale : ℕ → Prop) (tl : List PRegion) (types : ℕ → Prop) (k : Kernel)
    (rv : List (ℕ × ℕ)) (rs : List PRegion) : Prop where
  phys : PhysInv stale tl k rs
  nodup : rv.Nodup
  held : ∀ v ∈ rv, 0x100000 ≤ v.1 ∧ 0 < v.2 ∧ ∃ r ∈ rs, r.base = v.1 ∧ r.size = v.2 ∧ types r.tag

/-- What one step does to the live reservations and the regions. -/
inductive RegionStep (types : ℕ → Prop) (mayFree : Kernel → ℕ → Prop) (k : Kernel) :
    List (ℕ × ℕ) → List PRegion → List (ℕ × ℕ) → List PRegion → Prop
  | keep (rv : List (ℕ × ℕ)) (rs : List PRegion) : RegionStep types mayFree k rv rs rv rs
  | cut {rv : List (ℕ × ℕ)} {xs ys : List PRegion} {r : PRegion} {n type node : ℕ} :
      r.tag = physFreeBlockType → n ≤ r.size → types type →
      RegionStep types mayFree k rv (xs ++ r :: ys) ((r.base, n) :: rv)
        (xs ++ r.cut n type :: r.rest n node physFreeBlockType :: ys)
  | merge {rv : List (ℕ × ℕ)} {xs fs gs ys : List PRegion} {r : PRegion} {n : ℕ} :
      (r.base, n) ∈ rv → (r.size = 0 ∨ r.size = n) → mayFree k r.base →
      (∀ x ∈ xs ++ fs, x.base ≠ r.base) → (∀ f ∈ fs ++ gs, f.tag = physFreeBlockType) →
      RegionStep types mayFree k rv (xs ++ fs ++ r :: (gs ++ ys)) (rv.erase (r.base, n))
        (xs ++ merged fs r gs :: ys)

variable {stale : ℕ → Prop} {tl : List PRegion} {types : ℕ → Prop} {mayFree : Kernel → ℕ → Prop}

/-! ## One step -/

theorem alignup_page_pos {n : ℕ} (h0 : 0 < n) (hn : n ≤ 0xFFFFF000) : 0 < alignup n 4096 :=
  h0.trans_le (alignup_page hn).2.1

theorem RunInv.reserve {k k' : Kernel} {rv : List (ℕ × ℕ)} {rs : List PRegion} {n size type a : ℕ}
    (hi : RunInv stale tl types k rv rs) (hnf : ∀ t, types t → t ≠ physFreeBlockType)
    (h0 : 0 < size) (hs : size ≤ 0xFFFFF000) (ht : types type)
    (h : reserveBlock (kmalloc n) size type k = .ok (a, k')) :
    ∃ rs', RunInv stale tl types k' ((a, alignup size 4096) :: rv) rs' ∧
      k'.phys.firstBlock = k.phys.firstBlock ∧
      RegionStep types mayFree k rv rs ((a, alignup size 4096) :: rv) rs' := by
  obtain ⟨xs, r, ys, node, rfl, hf, rfl, hi', hfirst, -⟩ := hi.phys.reserveBlock_spec h
  obtain ⟨hbase, hfree, hsize⟩ := available_iff.mp (List.find?_some hf)
  have hpos := alignup_page_pos h0 hs
  have hr : r ∈ xs ++ r :: ys := by simp
  -- the regions of older reservations are not free, so they are not the one that is cut
  have hother : ∀ s ∈ xs ++ r :: ys, types s.tag → s ≠ r ∧ (s ∈ xs ∨ s ∈ ys) := by
    intro s hs' hts
    have hne : s ≠ r := by
      rintro rfl
      exact hnf _ hts hfree
    simp only [List.mem_append, List.mem_cons, hne, false_or] at hs'
    exact ⟨hne, hs'⟩
  refine ⟨_, ⟨hi', List.nodup_cons.mpr ⟨fun hmem => ?_, hi.nodup⟩, ?_⟩, hfirst,
    .cut hfree hsize ht⟩
  · obtain ⟨-, -, s, hs', hsb, hss, hst⟩ := hi.held _ hmem
    have := hi.phys.ascending.apart hs' hr (hother s hs' hst).1
    simp only [Region.stop] at this
    omega
  · intro v hv
    rcases List.mem_cons.mp hv with rfl | hv
    · exact ⟨hbase, hpos, r.cut (alignup size 4096) type, by simp, rfl, rfl, ht⟩
    · obtain ⟨h1, h2, s, hs', hsb, hss, hst⟩ := hi.held v hv
      refine ⟨h1, h2, s, ?_, hsb, hss, hst⟩
      rcases (hother s hs' hst).2 with hx | hy
      · simp [hx]
      · simp [hy]

/-- In an ascending list, the region found at the address of a reservation is
the block of the reservation, or it is empty. -/
theorem RunInv.found {k : Kernel} {rv : List (ℕ × ℕ)} {rs : List PRegion}
    (hi : RunInv stale tl types k rv rs) {v : ℕ × ℕ} (hv : v ∈ rv) {r s : PRegion} (hr : r ∈ rs)
    (hrb : r.base = v.1) (hr0 : r.size ≠ 0) (hs : s ∈ rs) (hsb : s.base = v.1)
    (hs0 : s.size = v.2) : r = s := by
  obtain ⟨-, hpos, -⟩ := hi.held v hv
  by_contra hne
  have := hi.phys.ascending.apart hr hs hne
  simp only [Region.stop] at this
  omega

theorem RunInv.free {k k' : Kernel} {rv : List (ℕ × ℕ)} {rs : List PRegion} {a size : ℕ}
    (hi : RunInv stale tl types k rv rs) (hnf : ∀ t, types t → t ≠ physFreeBlockType)
    (hv : (a, size) ∈ rv) (hmay : mayFree k a) (h : freeBlock a k = .ok k') :
    ∃ rs', RunInv stale tl types k' (rv.erase (a, size)) rs' ∧
      k'.phys.firstBlock = k.phys.firstBlock ∧
      RegionStep types mayFree k rv rs (rv.erase (a, size)) rs' := by
  obtain ⟨hlow, hpos, u, hu, hub, hus, -⟩ := hi.held _ hv
  have ha : a ≠ 0 := by
    dsimp only at hlow
    omega
  obtain ⟨r, hf, htag⟩ := hi.phys.freeBlock_returns ha h
  obtain ⟨k1, xs, fs, gs, ys, rfl, hfree, -, -, hrun, hi', hframe⟩ :=
    hi.phys.freeBlock_spec ha hf htag
  rw [hrun] at h
  injection h with h
  subst h
  have hrb : r.base = a := by simpa using List.find?_some hf
  have hr : r ∈ xs ++ fs ++ r :: (gs ++ ys) := by simp
  have hfirst : ∀ x ∈ xs ++ fs, x.base ≠ a := by
    obtain ⟨-, as, bs, heq, has⟩ := List.find?_eq_some_iff_append.mp hf
    have hnd := List.Nodup.of_map _ hi.phys.listing.nodup
    rw [List.nodup_append, List.nodup_append, List.nodup_cons] at hnd
    obtain ⟨hx, -, -⟩ := (List.append_cons_inj_of_notMem
      (fun h => hnd.1.2.2 r h r List.mem_cons_self rfl) hnd.1.2.1.1).mp heq
    rw [hx]
    simpa using has
  have hsize : r.size = 0 ∨ r.size = size := by
    by_cases hr0 : r.size = 0
    · exact .inl hr0
    · rw [hi.found hv hr hrb hr0 hu hub hus]
      exact .inr hus
  refine ⟨_, ⟨hi', hi.nodup.erase _, ?_⟩, hframe.first, ?_⟩
  · intro v hv'
    obtain ⟨hva, hv'⟩ := (hi.nodup.mem_erase_iff).mp hv'
    obtain ⟨h1, h2, s, hs, hsb, hss, hst⟩ := hi.held v hv'
    refine ⟨h1, h2, s, ?_, hsb, hss, hst⟩
    -- the block of another reservation is neither the freed one nor a free one
    have hsr : s ≠ r := by
      rintro rfl
      have hsame := hi.found hv hr hrb (by omega) hu hub hus
      apply hva
      rw [Prod.ext_iff]
      exact ⟨hsb.symm.trans hrb, by rw [← hss, hsame, hus]⟩
    have hsf : s ∉ fs ++ gs := fun hm => hnf _ hst (hfree s hm)
    simp only [List.mem_append, List.mem_cons, hsr, false_or, not_or] at hs hsf ⊢
    tauto
  · subst hrb
    exact .merge hv hsize hmay hfirst hfree

theorem RunInv.heap {k k' : Kernel} {rv : List (ℕ × ℕ)} {rs : List PRegion}
    (hi : RunInv stale tl types k rv rs) (hs : HeapStep k k') (hp : k'.phys = k.phys)
    (hl : ∀ stale rs, Listing stale k.phys rs → ∀ r ∈ rs, r.key ∈ k'.heap.live) :
    RunInv stale tl types k' rv rs := by
  obtain ⟨bs, hh⟩ := hi.phys.heap
  exact ⟨⟨hs.inv hh, hp ▸ hi.phys.listing, hl _ _ hi.phys.listing, hi.phys.ascending,
    hi.phys.bounded, hi.phys.tail, hi.phys.back⟩, hi.nodup, hi.held⟩

/-- Everything a step can do. -/
theorem RunInv.step {k k' : Kernel} {rv rv' : List (ℕ × ℕ)} {rs : List PRegion}
    (hi : RunInv stale tl types k rv rs) (hnf : ∀ t, types t → t ≠ physFreeBlockType)
    (hs : PhysStep types mayFree (k, rv) (k', rv')) :
    ∃ rs', RunInv stale tl types k' rv' rs' ∧ k'.phys.firstBlock = k.phys.firstBlock ∧
      RegionStep types mayFree k rv rs rv' rs' := by
  cases hs with
  | reserve h0 hs ht h => exact hi.reserve hnf h0 hs ht h
  | free hv hmay h => exact hi.free hnf hv hmay h
  | heap hs hp hl => exact ⟨rs, hi.heap hs hp hl, by rw [hp], .keep rv rs⟩

/-! ## Whole runs -/

theorem InitialList.runInv {k : Kernel} {rs : List PRegion} (h : InitialList k rs)
    (types : ℕ → Prop) :
    RunInv noStale [] types k [] rs where
  phys :=
    { heap := h.heap.inv
      listing := by simpa using h.listing
      live := by simpa using h.live
      ascending := ascending_of_isChain h.chain
      bounded := fun r hr _ => h.bounded r hr
      tail := by simp
      back := fun p hp => absurd hp id }
  nodup := List.nodup_nil
  held := by simp

/-- A property of the regions that every step keeps holds along every run. -/
theorem RunInv.run {P : List (ℕ × ℕ) → List PRegion → Prop}
    (hnf : ∀ t, types t → t ≠ physFreeBlockType)
    (hP : ∀ k rv rs rv' rs', RunInv stale tl types k rv rs → P rv rs →
      RegionStep types mayFree k rv rs rv' rs' → P rv' rs')
    {k0 k : Kernel} {rv0 rv : List (ℕ × ℕ)} {rs0 : List PRegion}
    (hi : RunInv stale tl types k0 rv0 rs0) (h0 : P rv0 rs0)
    (hrun : Relation.ReflTransGen (PhysStep types mayFree) (k0, rv0) (k, rv)) :
    ∃ rs, RunInv stale tl types k rv rs ∧ k.phys.firstBlock = k0.phys.firstBlock ∧ P rv rs := by
  generalize hs : (k, rv) = s at hrun
  induction hrun generalizing k rv with
  | refl =>
    injection hs with hk hv
    subst hk hv
    exact ⟨rs0, hi, rfl, h0⟩
  | @tail s1 s2 _ hstep ih =>
    obtain ⟨k1, rv1⟩ := s1
    subst hs
    obtain ⟨rs1, hi1, hf1, hp1⟩ := ih rfl
    obtain ⟨rs2, hi2, hf2, hstep'⟩ := hi1.step hnf hstep
    exact ⟨rs2, hi2, hf2.trans hf1, hP k1 rv1 rs1 rv rs2 hi1 hp1 hstep'⟩

theorem total_merged {xs fs gs ys : List PRegion} {r : PRegion} :
    total (xs ++ merged fs r gs :: ys) = total (xs ++ fs ++ r :: (gs ++ ys)) := by
  simp only [total_append, total_cons, merged]
  omega

/-- The end of a merged region is not beyond the end of the last region merged. -/
theorem merged_stop_le {fs gs : List PRegion} {r : PRegion} {B : ℕ}
    (h : Ascending (fs ++ r :: gs)) (hB : ∀ s ∈ fs ++ r :: gs, s.stop ≤ B) :
    (merged fs r gs).stop ≤ B := by
  have key : ∀ (ts : List PRegion) (t : PRegion), Ascending (t :: ts) → (∀ s ∈ t :: ts, s.stop ≤ B) →
      t.base + total (t :: ts) ≤ B := by
    intro ts
    induction ts with
    | nil =>
      intro t _ hB
      simpa [Region.stop, total] using hB t List.mem_cons_self
    | cons u us ih =>
      intro t h hB
      have hlt := (List.pairwise_cons.mp h).1 u List.mem_cons_self
      have := ih u (List.pairwise_cons.mp h).2 fun s hs => hB s (List.mem_cons_of_mem _ hs)
      simp only [total_cons, Region.stop] at hlt this ⊢
      omega
  cases fs with
  | nil =>
    have := key gs r h hB
    simpa [merged, Region.stop, total] using this
  | cons f fs =>
    have := key (fs ++ r :: gs) f h hB
    simp only [total_cons, total_append, merged, Region.stop, List.headD_cons] at this ⊢
    omega

/-- A step keeps the total size, and no region gets past the old ends. -/
theorem RegionStep.total_eq {k : Kernel} {rv rv' : List (ℕ × ℕ)} {rs rs' : List PRegion}
    (h : RegionStep types mayFree k rv rs rv' rs') : total rs' = total rs := by
  cases h with
  | keep => rfl
  | cut _ hn _ => exact total_cut hn
  | merge => exact total_merged

theorem RegionStep.bounded {k : Kernel} {rv rv' : List (ℕ × ℕ)} {rs rs' : List PRegion} {B : ℕ}
    (h : RegionStep types mayFree k rv rs rv' rs') (hasc : Ascending rs) (hb : ∀ r ∈ rs, r.stop ≤ B) :
    ∀ r ∈ rs', r.stop ≤ B := by
  cases h with
  | keep => exact hb
  | @cut xs ys r n type node _ hn _ =>
    have hr := hb r (by simp)
    have := forall_replace (fun s => s.stop ≤ B) xs [r]
      [r.cut n type, r.rest n node physFreeBlockType] ys (by simpa using hb) (by
        simp only [Region.stop] at hr
        simp only [List.mem_cons, List.not_mem_nil, or_false, forall_eq_or_imp, forall_eq,
          Region.stop, Region.cut_base, Region.cut_size, Region.rest_base, Region.rest_size]
        omega)
    simpa using this
  | @merge xs fs gs ys r _ _ _ _ _ _ =>
    have hmid : (fs ++ r :: gs).Sublist (xs ++ fs ++ r :: (gs ++ ys)) := by
      have h1 : (fs ++ r :: gs).Sublist (fs ++ r :: (gs ++ ys)) :=
        (List.Sublist.refl _).append ((List.sublist_append_left gs ys).cons_cons r)
      rw [List.append_assoc]
      exact h1.trans (List.sublist_append_right _ _)
    have hstop : (merged fs r gs).stop ≤ B :=
      merged_stop_le (hasc.sublist hmid) fun s hs => hb s (hmid.subset hs)
    have := forall_replace (fun s => s.stop ≤ B) xs (fs ++ r :: gs)
      [merged fs r gs] ys (by simpa using hb) (by simpa using hstop)
    simpa using this

/-- In every run the list stays ascending, without overlaps, threaded both ways
from the same first node, with the same total size, and live reservations are
disjoint regions above the first MiB. -/
theorem reservations_never_overlap {k0 k : Kernel} {rs0 : List PRegion} {rv : List (ℕ × ℕ)}
    (h0 : InitialList k0 rs0)
    (hrun : Relation.ReflTransGen (PhysStep (· ≠ physFreeBlockType) fun _ _ => True)
      (k0, []) (k, rv)) :
    (∃ rs, Listing noStale k.phys rs ∧ Ascending rs ∧ (∀ r ∈ rs, r.stop < 2 ^ 32) ∧
      total rs = total rs0) ∧
    k.phys.firstBlock = k0.phys.firstBlock ∧ (∀ v ∈ rv, 0x100000 ≤ v.1) ∧
    rv.Pairwise fun v w => v.1 + v.2 ≤ w.1 ∨ w.1 + w.2 ≤ v.1 := by
  have hstep : ∀ k rv rs rv' rs', RunInv noStale [] (· ≠ physFreeBlockType) k rv rs →
      ((∀ r ∈ rs, r.stop ≤ 2 ^ 32 - 1) ∧ total rs = total rs0) →
      RegionStep (· ≠ physFreeBlockType) (fun _ _ => True) k rv rs rv' rs' →
      (∀ r ∈ rs', r.stop ≤ 2 ^ 32 - 1) ∧ total rs' = total rs0 :=
    fun k rv rs rv' rs' hi hP hs => ⟨hs.bounded hi.phys.ascending hP.1, hs.total_eq.trans hP.2⟩
  have hb0 : ∀ r ∈ rs0, r.stop ≤ 2 ^ 32 - 1 := fun r hr => Nat.le_sub_one_of_lt (h0.bounded r hr)
  obtain ⟨rs, hi, hfirst, hbound, htotal⟩ :=
    (h0.runInv _).run (P := fun _ rs => (∀ r ∈ rs, r.stop ≤ 2 ^ 32 - 1) ∧ total rs = total rs0)
      (fun _ h => h) hstep ⟨hb0, rfl⟩ hrun
  have hbound' : ∀ r ∈ rs, r.stop < 2 ^ 32 := fun r hr =>
    Nat.lt_of_le_sub_one (by norm_num) (hbound r hr)
  refine ⟨⟨rs, by simpa using hi.phys.listing, hi.phys.ascending, hbound', htotal⟩, hfirst,
    fun v hv => (hi.held v hv).1, ?_⟩
  refine hi.nodup.imp_of_mem fun {v w} hv hw hne => ?_
  obtain ⟨-, -, r, hr, hrb, hrs, -⟩ := hi.held v hv
  obtain ⟨-, -, s, hs, hsb, hss, -⟩ := hi.held w hw
  have hrs' : r ≠ s := by
    rintro rfl
    exact hne (Prod.ext (hrb.symm.trans hsb) (hrs.symm.trans hss))
  have := hi.phys.ascending.apart hr hs hrs'
  simp only [Region.stop] at this
  omega

/-! ## A kernel with one free block -/

/-- 16 MiB of free memory from 1 MiB on, in one node. -/
def freeRegion : PRegion := ⟨kheapBaseStart + 8, 0x100000, 0x1000000, physFreeBlockType⟩

def oneBlockKernel : Kernel :=
  { installedKernel with
    heap := takeBlock installedKernel.heap kheapBaseStart 20
    phys := ⟨kheapBaseStart + 8, Function.update (fun _ => PBlock.zero) (kheapBaseStart + 8)
      ⟨0x100000, 0x1000000, 0, 0, physFreeBlockType⟩⟩ }

theorem initialList_oneBlockKernel : InitialList oneBlockKernel [freeRegion] where
  heap := by
    have hstep := HeapStep.kmalloc (by decide) (kmalloc_installed 0 20 (by decide))
    exact (heapReachable_installedKernel.tail hstep).tail (.other rfl rfl)
  listing := by
    refine ⟨⟨kheapBaseStart + 8, rfl, by decide, .inl ?_, rfl, ?_⟩, by simp, ?_⟩
    · simp [PhysMem.links, oneBlockKernel, freeRegion]
    · simp [PhysMem.links, oneBlockKernel, freeRegion]
    · simp [oneBlockKernel, freeRegion, PBlock.region]
  live := by
    have hlive : oneBlockKernel.heap.live = [kheapBaseStart + 8] := takeBlock_live
    simp [hlive, freeRegion]
  chain := .singleton _
  bounded := by simp [freeRegion, Region.stop]

theorem room_oneBlockKernel : oneBlockKernel.heap.Room 0x3FFFC0 := by
  have hi : HeapInv (takeBlock installedKernel.heap kheapBaseStart 20)
      [⟨kheapBaseStart, 20, true⟩, ⟨kheapBaseStart + 28, 0x3FFFDC, false⟩] :=
    (HeapInv.takeBlock_inv [] 20 (heapInv_kheapInstall _) rfl (by decide) (by decide)).1
  exact ⟨_, _, hi, List.mem_cons_of_mem _ List.mem_cons_self, rfl, by decide⟩

/-- One page reserved for a process. -/
theorem reservations_never_overlap_one_page : ∃ k : Kernel,
    Relation.ReflTransGen (PhysStep (· ≠ physFreeBlockType) fun _ _ => True)
      (oneBlockKernel, []) (k, [(0x100000, alignup 4096 4096)]) ∧
    ∃ rs, Listing noStale k.phys rs ∧ Ascending rs ∧ total rs = 0x1000000 := by
  have hi := (initialList_oneBlockKernel.runInv fun _ => True).phys
  obtain ⟨k, node, hk, -⟩ := hi.reserveBlock_of_room [] 4096
    physUserBlockType 0 (room_oneBlockKernel.mono (by decide)) (by simp)
    (by rw [alignup_of_dvd (by decide)]; decide)
  have hstep : PhysStep (· ≠ physFreeBlockType) (fun _ _ => True) (oneBlockKernel, [])
      (k, [(0x100000, alignup 4096 4096)]) := .reserve (by decide) (by decide) (by decide) hk
  have hrun := Relation.ReflTransGen.single hstep
  obtain ⟨⟨rs, hl, hasc, -, htotal⟩, -⟩ :=
    reservations_never_overlap initialList_oneBlockKernel hrun
  exact ⟨k, hrun, rs, hl, hasc, htotal.trans (by simp [total, freeRegion])⟩

/-! ## Freeing live reservations -/

def isFree (r : PRegion) : Bool := r.tag = physFreeBlockType

/-- The free regions that directly precede the address `a` in the list. -/
def freeBefore (a : ℕ) (rs : List PRegion) : List PRegion :=
  (rs.takeWhile fun r => r.base < a).rtakeWhile isFree

/-- The free regions that directly follow the block at `a` in the list. -/
def freeAfter (a : ℕ) (rs : List PRegion) : List PRegion :=
  (rs.dropWhile fun r => r.base ≤ a).takeWhile isFree

/-- No empty region lies at `a`, and the holes between `a` and the free regions
before it are not larger than the free regions after it. -/
def Reclaimable (a : ℕ) (rs : List PRegion) : Prop :=
  (∀ r ∈ rs, r.base = a → r.size ≠ 0) ∧
    a ≤ ((freeBefore a rs).map Region.base).headD a + total (freeBefore a rs) +
      total (freeAfter a rs)

/-- Every byte of `n` bytes from `a` on is in a free block. -/
def FreeRange (m : PhysMem) (a n : ℕ) : Prop :=
  ∃ rs, Listing noStale m rs ∧
    ∀ x, a ≤ x → x < a + n → ∃ r ∈ rs, r.tag = physFreeBlockType ∧ r.Covers x

theorem rtakeWhile_append_of_pos {α : Type} {p : α → Bool} {xs fs : List α} (hf : ∀ f ∈ fs, p f)
    (hx : ∀ x ∈ xs.getLast?, ¬ p x) : (xs ++ fs).rtakeWhile p = fs := by
  rw [List.rtakeWhile, List.reverse_append,
    List.takeWhile_append_of_pos fun f h => hf f (List.mem_reverse.mp h)]
  rw [← List.head?_reverse] at hx
  cases hr : xs.reverse with
  | nil => simp
  | cons y ys => simp [hx y (by simp [hr])]

theorem takeWhile_append_of_head {α : Type} {p : α → Bool} {gs ys : List α} (hg : ∀ g ∈ gs, p g)
    (hy : ∀ y ∈ ys.head?, ¬ p y) : (gs ++ ys).takeWhile p = gs := by
  rw [List.takeWhile_append_of_pos hg]
  cases ys with
  | nil => simp
  | cons y ys => simp [hy y (by simp)]

/-- The free neighbours that `free_block` merges, read off the list. -/
theorem free_neighbours {xs fs gs ys : List PRegion} {r : PRegion}
    (hasc : Ascending (xs ++ fs ++ r :: (gs ++ ys))) (hr : r.size ≠ 0)
    (hempty : ∀ s ∈ xs ++ fs ++ r :: (gs ++ ys), s.base = r.base → s.size ≠ 0)
    (hfree : ∀ f ∈ fs ++ gs, f.tag = physFreeBlockType)
    (hlast : ∀ x ∈ xs.getLast?, x.tag ≠ physFreeBlockType)
    (hhead : ∀ y ∈ ys.head?, y.tag ≠ physFreeBlockType) :
    freeBefore r.base (xs ++ fs ++ r :: (gs ++ ys)) = fs ∧
      freeAfter r.base (xs ++ fs ++ r :: (gs ++ ys)) = gs := by
  obtain ⟨-, hafter, hbefore⟩ := List.pairwise_append.mp hasc
  have hlt : ∀ s ∈ xs ++ fs, s.base < r.base := by
    intro s hs
    have hle := hbefore s hs r List.mem_cons_self
    have hne := hempty s (List.mem_append_left _ hs)
    simp only [Region.stop] at hle
    omega
  have hgt : ∀ s ∈ gs ++ ys, r.base < s.base := by
    intro s hs
    have hle := (List.pairwise_cons.mp hafter).1 s hs
    simp only [Region.stop] at hle
    omega
  constructor
  · unfold freeBefore
    rw [takeWhile_append_of_head (by simpa using hlt) (by simp)]
    exact rtakeWhile_append_of_pos (fun f hf => by simpa [isFree] using hfree f (by simp [hf]))
      (fun x hx => by simpa [isFree] using hlast x hx)
  · unfold freeAfter
    have hdrop : (xs ++ fs ++ r :: (gs ++ ys)).dropWhile (fun s => decide (s.base ≤ r.base)) =
        gs ++ ys := by
      rw [List.dropWhile_append_of_pos fun s hs => by simpa using (hlt s hs).le,
        List.dropWhile_cons_of_pos (by simp)]
      cases hgy : gs ++ ys with
      | nil => rfl
      | cons t ts =>
        refine List.dropWhile_cons_of_neg ?_
        have := hgt t (by simp [hgy])
        simpa using this
    rw [hdrop]
    exact takeWhile_append_of_head (fun g hg => by simpa [isFree] using hfree g (by simp [hg]))
      (fun y hy => by simpa [isFree] using hhead y hy)

/-- A block in use keeps its first byte out of the free blocks. -/
theorem freeRange_first {rs : List PRegion} {u : PRegion} (hasc : Ascending rs) (hu : u ∈ rs)
    (hu0 : 0 < u.size) (hut : u.tag ≠ physFreeBlockType)
    (hcov : ∃ t ∈ rs, t.tag = physFreeBlockType ∧ t.Covers u.base) : False := by
  obtain ⟨t, ht, htag, hlo, hhi⟩ := hcov
  have hne : u ≠ t := fun h => hut (h ▸ htag)
  have := hasc.apart hu ht hne
  simp only [Region.stop] at this hhi
  omega

/-- The region found at the address of a live reservation is its own block
exactly when no empty region lies there. -/
theorem RunInv.found_own {k : Kernel} {rv : List (ℕ × ℕ)} {rs : List PRegion}
    (hi : RunInv stale tl types k rv rs) {v : ℕ × ℕ} (hv : v ∈ rv) {r u : PRegion}
    (hf : rs.find? (fun s => s.base = v.1) = some r) (hu : u ∈ rs) (hub : u.base = v.1)
    (hus : u.size = v.2) : r = u ↔ ∀ s ∈ rs, s.base = v.1 → s.size ≠ 0 := by
  obtain ⟨-, hpos, -⟩ := hi.held v hv
  obtain ⟨hrb, xs, ys, hsplit, hxs⟩ := List.find?_eq_some_iff_append.mp hf
  have hr : r ∈ rs := List.mem_of_find?_eq_some hf
  have hrb' : r.base = v.1 := by simpa using hrb
  constructor
  · rintro rfl s hs hsb hs0
    -- an empty region at the same address would come first
    have hsr : s ≠ r := by
      rintro rfl
      omega
    have hsy : s ∈ ys := by
      rw [hsplit] at hs
      rcases List.mem_append.mp hs with hs | hs
      · exact absurd hsb (by simpa using hxs s hs)
      · exact (List.mem_cons.mp hs).resolve_left hsr
    have hasc := hi.phys.ascending
    rw [hsplit] at hasc
    have := (List.pairwise_cons.mp (List.pairwise_append.mp hasc).2.1).1 s hsy
    simp only [Region.stop] at this
    omega
  · intro hall
    exact hi.found hv hr hrb' (hall r hr hrb') hu hub hus

/-- In every reachable state, `free_block` of a live reservation returns and
leaves its whole region in free blocks if and only if no empty region lies at the
same address and no hole before the block is left uncovered. -/
theorem freeBlock_reclaims_iff {k0 k : Kernel} {rs0 rs : List PRegion} {rv : List (ℕ × ℕ)}
    {a n : ℕ} (h0 : InitialList k0 rs0)
    (hrun : Relation.ReflTransGen
      (PhysStep (fun t => t = physKernelfBlockType ∨ t = physUserBlockType) fun _ _ => True)
      (k0, []) (k, rv))
    (hl : Listing noStale k.phys rs) (hv : (a, n) ∈ rv) :
    (∃ k', freeBlock a k = .ok k' ∧ FreeRange k'.phys a n) ↔ Reclaimable a rs := by
  have hnf : ∀ t, t = physKernelfBlockType ∨ t = physUserBlockType → t ≠ physFreeBlockType := by
    rintro t (rfl | rfl) <;> decide
  obtain ⟨rs', hi, -⟩ := (h0.runInv _).run hnf (P := fun _ _ => True) (fun _ _ _ _ _ _ _ _ => trivial)
    trivial hrun
  have hrs : rs' = rs := by
    have := hi.phys.listing
    rw [List.append_nil] at this
    exact this.unique hl
  subst hrs
  obtain ⟨hlow, hpos, u, hu, hub, hus, hut⟩ := hi.held _ hv
  dsimp only at hlow hpos hub hus
  have ha : a ≠ 0 := by omega
  have hstale : ∀ p, ¬ noStale p := fun _ h => h
  constructor
  · rintro ⟨k', hk, ts, hts, hcov⟩
    obtain ⟨r, hf, htag⟩ := hi.phys.freeBlock_returns ha hk
    obtain ⟨k1, xs, fs, gs, ys, rfl, hfree, hlast, hhead, hk1, hi1, -⟩ :=
      hi.phys.freeBlock_spec ha hf htag
    rw [hk] at hk1
    injection hk1 with hk1
    subst hk1
    have hts' : ts = xs ++ merged fs r gs :: ys := by
      have := hi1.listing
      rw [List.append_nil] at this
      exact hts.unique this
    subst hts'
    have huf : u ∉ fs ++ gs := fun h => hnf _ hut (hfree u h)
    -- were the freed region another one, the block of the reservation would stay
    have hru : r = u := by
      by_contra hne
      refine freeRange_first hi1.ascending (u := u) ?_ (by omega) (hnf _ hut) ?_
      · simp only [List.mem_append, List.mem_cons, not_or, Ne.symm hne, false_or] at hu huf ⊢
        tauto
      · rw [hub]
        exact hcov a le_rfl (by omega)
    have hempty := (hi.found_own hv hf hu hub hus).mp hru
    subst hru
    obtain ⟨hb, hg⟩ := free_neighbours hi.phys.ascending (by omega) (hub ▸ hempty) hfree
      (hlast hstale) hhead
    rw [hub] at hb hg
    refine ⟨hempty, ?_⟩
    rw [hb, hg]
    -- the last byte of the region is in the merged block
    obtain ⟨t, ht, httag, hlo, hhi⟩ := hcov (a + n - 1) (by omega) (by omega)
    have hmid := hi.phys.ascending
    rw [Ascending, List.append_assoc, List.pairwise_append, List.pairwise_append] at hmid
    obtain ⟨-, ⟨-, hry, -⟩, hxr⟩ := hmid
    simp only [Region.stop] at hhi hry hxr
    rcases List.mem_append.mp ht with hx | ht
    · have := hxr t hx r (by simp)
      omega
    · rcases List.mem_cons.mp ht with rfl | hy
      · have hhead' : (fs.headD r).base = (fs.map Region.base).headD a := by
          cases fs <;> simp [hub]
        simp only [merged, hhead'] at hhi
        omega
      · have := (List.pairwise_cons.mp hry).1 t (List.mem_append_right _ hy)
        omega
  · rintro ⟨hempty, hhole⟩
    have hfound : (rs'.find? fun s => s.base = a).isSome := by
      rw [List.find?_isSome]
      exact ⟨u, hu, by simpa using hub⟩
    obtain ⟨r, hf⟩ := Option.isSome_iff_exists.mp hfound
    have hru := (hi.found_own hv hf hu hub hus).mpr hempty
    subst hru
    obtain ⟨k', xs, fs, gs, ys, rfl, hfree, hlast, hhead, hk, hi', -⟩ :=
      hi.phys.freeBlock_spec ha hf hut
    obtain ⟨hb, hg⟩ := free_neighbours hi.phys.ascending (by omega) (hub ▸ hempty) hfree
      (hlast hstale) hhead
    rw [hub] at hb hg
    rw [hb, hg] at hhole
    refine ⟨k', hk, _, by simpa using hi'.listing, fun x hx hx' => ?_⟩
    refine ⟨merged fs r gs, by simp, rfl, ?_⟩
    have hhead' : (fs.headD r).base = (fs.map Region.base).headD a := by
      cases fs <;> simp [hub]
    have hbase : (fs.headD r).base ≤ a := by
      cases fs with
      | nil => simp [hub]
      | cons f fs =>
        have := (List.pairwise_append.mp hi.phys.ascending).2.2 f (by simp) r (by simp)
        simp only [Region.stop] at this
        rw [List.headD_cons]
        omega
    simp only [Region.Covers, Region.stop, merged]
    rw [hhead'] at hbase ⊢
    omega

/-- The only page in use can be freed. -/
theorem freeBlock_reclaims_one_page : ∃ k : Kernel,
    Relation.ReflTransGen (PhysStep (fun t => t = physKernelfBlockType ∨ t = physUserBlockType)
      fun _ _ => True) (oneBlockKernel, []) (k, [(0x100000, alignup 4096 4096)]) ∧
    ∃ k', freeBlock 0x100000 k = .ok k' ∧ FreeRange k'.phys 0x100000 (alignup 4096 4096) := by
  have hpage : alignup 4096 4096 = 4096 := alignup_of_dvd (by decide)
  have hi := (initialList_oneBlockKernel.runInv fun _ => True).phys
  obtain ⟨k, node, hk, hi', -⟩ := hi.reserveBlock_of_room [] 4096
    physUserBlockType 0 (room_oneBlockKernel.mono (by decide)) (by simp)
    (by rw [hpage]; decide)
  have hstep : PhysStep (fun t => t = physKernelfBlockType ∨ t = physUserBlockType)
      (fun _ _ => True) (oneBlockKernel, []) (k, [(0x100000, alignup 4096 4096)]) :=
    .reserve (by decide) (by decide) (.inr rfl) hk
  have hrun := Relation.ReflTransGen.single hstep
  have hl := hi'.listing
  rw [List.append_nil, hpage] at hl
  have hrec : Reclaimable 0x100000 ([] ++ freeRegion.cut 4096 physUserBlockType ::
      freeRegion.rest 4096 node physFreeBlockType :: []) := by
    refine ⟨by simp [freeRegion], ?_⟩
    have hfirst : freeBefore 0x100000 ([] ++ freeRegion.cut 4096 physUserBlockType ::
        freeRegion.rest 4096 node physFreeBlockType :: []) = [] := by
      simp [freeBefore, freeRegion]
    rw [hfirst, List.map_nil, List.headD_nil, Nat.add_assoc]
    exact Nat.le_add_right _ _
  exact ⟨k, hrun, (freeBlock_reclaims_iff initialList_oneBlockKernel hrun hl
    (List.mem_singleton_self _)).mpr hrec⟩

/-- Freeing a block whose predecessor in the list is in use: it takes over the
free regions `gs` behind it. -/
theorem PhysInv.freeBlock_forward {k : Kernel} (xs gs : List PRegion) {ys : List PRegion}
    {r : PRegion} (hi : PhysInv stale tl k (xs ++ r :: (gs ++ ys))) (h0 : r.base ≠ 0)
    (hxs : ∀ x ∈ xs, x.base ≠ r.base)
    (ht : r.tag = physKernelfBlockType ∨ r.tag = physUserBlockType)
    (hlast : ∀ x ∈ xs.getLast?, x.tag ≠ physFreeBlockType)
    (hgs : ∀ g ∈ gs, g.tag = physFreeBlockType)
    (hhead : ∀ y ∈ ys.head?, y.tag ≠ physFreeBlockType) :
    ∃ k', freeBlock r.base k = .ok k' ∧ PhysInv stale tl k' (xs ++ merged [] r gs :: ys) ∧
      SameFrame k k' := by
  have hf : (xs ++ r :: (gs ++ ys)).find? (fun s => s.base = r.base) = some r := by
    rw [List.find?_append, List.find?_eq_none.mpr fun x hx => by simpa using hxs x hx]
    simp
  obtain ⟨k', xs', fs', gs', ys', heq, hfree, -, hhead', hk, hi', hframe⟩ :=
    hi.freeBlock_spec h0 hf ht
  have hnd := List.Nodup.of_map _ hi.listing.nodup
  rw [List.nodup_append, List.nodup_append, List.nodup_cons] at hnd
  obtain ⟨hx, -, hy⟩ := (List.append_cons_inj_of_notMem
    (fun h => hxs r h rfl) hnd.1.2.1.1).mp heq
  -- the free regions before `r` are a suffix of `xs`, so there are none
  have hfs : fs' = [] := by
    induction fs' using List.reverseRecOn with
    | nil => rfl
    | append_singleton fs f _ =>
      refine absurd (hfree f (by simp)) (hlast f ?_)
      rw [hx, ← List.append_assoc, List.getLast?_concat]
      rfl
  have hgs' : gs' = gs := by
    have h1 : (gs ++ ys).takeWhile isFree = gs := takeWhile_append_of_head
      (fun g hg => by simpa [isFree] using hgs g hg) (fun y hy => by simpa [isFree] using hhead y hy)
    have h2 : (gs' ++ ys').takeWhile isFree = gs' := takeWhile_append_of_head
      (fun g hg => by simpa [isFree] using hfree g (by simp [hg]))
      (fun y hy => by simpa [isFree] using hhead' y hy)
    rw [← h2, ← hy, h1]
  subst hfs hgs'
  rw [List.append_cancel_left hy, hx, List.append_nil]
  exact ⟨k', hk, hi', hframe⟩

/-- Two pages reserved, the first one freed and reserved again: the exact fit
leaves an empty region at the address of the second page, which then cannot be
freed. -/
theorem freeBlock_empty_region : ∃ (k : Kernel) (rv : List (ℕ × ℕ)),
    Relation.ReflTransGen (PhysStep (fun t => t = physKernelfBlockType ∨ t = physUserBlockType)
      fun _ _ => True) (oneBlockKernel, []) (k, rv) ∧ (0x101000, 0x1000) ∈ rv ∧
    freeBlock 0x101000 k =
      fatalKernelError "Trying to free a non-freeable block" "FREE_BLOCK" := by
  have hpage : alignup 0x1000 4096 = 0x1000 := alignup_of_dvd (by decide)
  have hi0 := (initialList_oneBlockKernel.runInv fun _ => True).phys
  -- reserve a page
  obtain ⟨k1, n1, hk1, hi1, hroom1⟩ := hi0.reserveBlock_of_room [] 0x1000
    physUserBlockType 0x1000 (room_oneBlockKernel.mono (by decide)) (by simp)
    (by rw [hpage]; decide)
  rw [hpage] at hi1
  let page := freeRegion.cut 0x1000 physUserBlockType
  let rest := freeRegion.rest 0x1000 n1 physFreeBlockType
  -- and a second one
  obtain ⟨k2, n2, hk2, hi2, hroom2⟩ := PhysInv.reserveBlock_of_room [page] (r := rest) hi1
    0x1000 physUserBlockType 0x800 (hroom1.mono (by decide)) (by decide)
    (by rw [hpage]; simp [available, rest, freeRegion, physFreeBlockType])
  rw [hpage] at hi2
  -- free the first page
  obtain ⟨k3, hk3, hi3, hs3⟩ := PhysInv.freeBlock_forward [] [] (r := page) hi2
    (by decide) (by simp) (.inr rfl) (by simp) (by simp) (by simp [physFreeBlockType, physUserBlockType])
  -- and reserve it again: what is left of it is empty
  obtain ⟨k4, n4, hk4, hi4, -⟩ := PhysInv.reserveBlock_of_room []
    (r := merged [] page []) hi3 0x1000 physUserBlockType 0 ((hs3.room _ hroom2).mono (by decide))
    (by simp) (by rw [hpage]; decide)
  rw [hpage] at hi4
  refine ⟨k4, [(0x100000, 0x1000), (0x101000, 0x1000)], ?_, by simp, ?_⟩
  · have h1 : PhysStep (fun t => t = physKernelfBlockType ∨ t = physUserBlockType)
        (fun _ _ => True) (oneBlockKernel, []) (k1, [(0x100000, alignup 0x1000 4096)]) :=
      .reserve (by decide) (by decide) (.inr rfl) hk1
    have h2 : PhysStep (fun t => t = physKernelfBlockType ∨ t = physUserBlockType)
        (fun _ _ => True) (k1, [(0x100000, 0x1000)])
        (k2, [(0x101000, alignup 0x1000 4096), (0x100000, 0x1000)]) :=
      .reserve (by decide) (by decide) (.inr rfl) hk2
    have h3 : PhysStep (fun t => t = physKernelfBlockType ∨ t = physUserBlockType)
        (fun _ _ => True) (k2, [(0x101000, 0x1000), (0x100000, 0x1000)])
        (k3, [(0x101000, 0x1000), (0x100000, 0x1000)].erase (0x100000, 0x1000)) :=
      .free (by simp) trivial hk3
    have h4 : PhysStep (fun t => t = physKernelfBlockType ∨ t = physUserBlockType)
        (fun _ _ => True) (k3, [(0x101000, 0x1000)])
        (k4, [(0x100000, alignup 0x1000 4096), (0x101000, 0x1000)]) :=
      .reserve (by decide) (by decide) (.inr rfl) hk4
    rw [hpage] at h1 h2 h4
    exact (((Relation.ReflTransGen.single h1).tail h2).tail h3).tail h4
  · exact hi4.freeBlock_non_freeable (by decide) (r := (merged [] page []).rest 0x1000 n4
      physFreeBlockType) (by simp [page, rest, merged, freeRegion, total])
      (by simp [physFreeBlockType, physKernelfBlockType, physUserBlockType])

end VkKernel
