import VkKernel.PageRanges

/-!
# Address spaces

The user half of every page directory is a partial map from pages to frames.
Calls that map and unmap ranges overwrite an interval of this map in one
directory, whatever tables they allocate.
-/

namespace VkKernel
open Outcome IntervalUpdate

/-- For each directory, the frame of each mapped page. -/
abbrev Translations := ℕ → ℕ → Option ℕ

/-- The calls on page directories; `d` is the directory. -/
inductive SpaceCall
  | getKernelPdClone
  | mapMemory (size virt d : ℕ)
  | mapFlexible (size physical virt d : ℕ)
  | unmapFlexible (size virt d : ℕ)
  | unmapMemoryIfMapped (size virt d : ℕ)
  | heapCall
deriving DecidableEq, Repr

/-- The pages that a call is about. -/
def SpaceCall.touches : SpaceCall → ℕ → ℕ → Prop
  | .getKernelPdClone, _, _ => False
  | .mapMemory size virt d, c, p
  | .mapFlexible size _ virt d, c, p
  | .unmapFlexible size virt d, c, p
  | .unmapMemoryIfMapped size virt d, c, p =>
    c = d ∧ virt / 4096 ≤ p ∧ p < virt / 4096 + pageCount size
  | .heapCall, _, _ => False

/-- New frames for the pages of a range of one directory. -/
def Translations.set (σ : Translations) (d size virt : ℕ) (frame : ℕ → Option ℕ) : Translations :=
  Function.update σ d (overwrite (σ d) (virt / 4096) (pageCount size) frame)

/-- One completed call, with what it does to the map of translations. The
frames of `map_memory` are the ones it reserves. -/
inductive SpaceStep : SpaceCall → Kernel × List ℕ × Translations →
    Kernel × List ℕ × Translations → Prop
  | getKernelPdClone {k : Kernel} {ds : List ℕ} {σ : Translations} {d : ℕ} {g : Paging} :
      getKernelPdClone k.paging = .ok (d, g) →
      SpaceStep .getKernelPdClone (k, ds, σ)
        ({ k with paging := g }, d :: ds, Function.update σ d fun _ => none)
  | mapMemory {k k1 k' : Kernel} {ds : List ℕ} {σ : Translations} {n size virt d phys : ℕ} :
      d ∈ ds → UserRange size virt →
      reserveBlock (kmalloc n) (alignup size 4096) (blockTypeFor d k.paging) k = .ok (phys, k1) →
      mapMemory (kmalloc n) size virt d k = .ok k' →
      SpaceStep (.mapMemory size virt d) (k, ds, σ)
        (k', ds, σ.set d size virt fun i => some (u32 (phys + i * 4096)))
  | mapFlexible {k : Kernel} {ds : List ℕ} {σ : Translations} {size physical virt d : ℕ}
      {g : Paging} : d ∈ ds → UserRange size virt → physical % 4096 = 0 →
      mapFlexible size physical virt d k.paging = .ok g →
      SpaceStep (.mapFlexible size physical virt d) (k, ds, σ)
        ({ k with paging := g }, ds, σ.set d size virt fun i => some (u32 (physical + i * 4096)))
  | unmapFlexible {k : Kernel} {ds : List ℕ} {σ : Translations} {size virt d : ℕ} {g : Paging} :
      d ∈ ds → UserRange size virt → unmapFlexible size virt d k.paging = .ok g →
      SpaceStep (.unmapFlexible size virt d) (k, ds, σ)
        ({ k with paging := g }, ds, σ.set d size virt fun _ => none)
  | unmapMemoryIfMapped {k : Kernel} {ds : List ℕ} {σ : Translations} {size virt d : ℕ}
      {g : Paging} : d ∈ ds → UserRange size virt →
      unmapMemoryIfMapped size virt d k.paging = .ok g →
      SpaceStep (.unmapMemoryIfMapped size virt d) (k, ds, σ)
        ({ k with paging := g }, ds, σ.set d size virt fun _ => none)
  | heapCall {k k' : Kernel} {ds : List ℕ} {σ : Translations} : HeapStep k k' →
      k'.paging = k.paging → SpaceStep .heapCall (k, ds, σ) (k', ds, σ)

/-- The page-table entry for a translation. -/
def entryOf (flags : ℕ) : Option ℕ → ℕ
  | none => 0
  | some f => f + flags

/-- The tables of the directories hold the translations. -/
structure Represents (k : Kernel) (ds : List ℕ) (σ : Translations) : Prop where
  heap : ∃ bs, HeapInv k.heap bs
  spaces : Spaces False (fun _ => False) ds k.paging
  aligned : ∀ d ∈ ds, ∀ p f, σ d p = some f → f % 4096 = 0
  entries : ∀ d ∈ ds, ∀ p < userPages,
    k.paging.pageEntry d p = entryOf (k.paging.pageFlags d) (σ d p)

variable {k k' : Kernel} {ds : List ℕ} {σ : Translations}

/-! ## What the lookups return -/

theorem entryOf_ne_zero_iff {flags : ℕ} (hf : 0 < flags) (t : Option ℕ) :
    entryOf flags t ≠ 0 ↔ t.isSome := by
  cases t with
  | none => simp [entryOf]
  | some f => simp [entryOf, hf.ne']

theorem page_lt {v : ℕ} (hv : v < kernelVirtualBase) : v / 4096 < userPages := by
  unfold userPages
  unfold kernelVirtualBase at hv
  omega

theorem Represents.isMapped_eq (h : Represents k ds σ) {d v : ℕ} (hd : d ∈ ds)
    (hv : v < kernelVirtualBase) : isMapped v d k.paging = (σ d (v / 4096)).isSome := by
  rw [h.spaces.isMapped_eq hd hv, h.entries d hd _ (page_lt hv)]
  simp [entryOf_ne_zero_iff (pageFlags_pos k.paging d)]

theorem Represents.getPhysical_eq (h : Represents k ds σ) {d v : ℕ} (hd : d ∈ ds)
    (hv : v < kernelVirtualBase) :
    getPhysical v d k.paging = (σ d (v / 4096)).elim 0 (· + v % 4096) := by
  rw [h.spaces.getPhysical_eq hd hv, h.entries d hd _ (page_lt hv)]
  cases ht : σ d (v / 4096) with
  | none => rfl
  | some f =>
    rw [if_pos ((entryOf_ne_zero_iff (pageFlags_pos _ _) _).mpr rfl), entryOf,
      frameOf_add (h.aligned d hd _ f ht) (pageFlags_lt _ _)]
    rfl

/-! ## One step -/

/-- The translations after a loop over a range. -/
theorem Represents.setRange (h : Represents k ds σ) {d size virt : ℕ} {frame : ℕ → Option ℕ}
    {k' : Kernel} (hheap : ∃ bs, HeapInv k'.heap bs)
    (hs : Spaces False (fun _ => False) ds k'.paging)
    (hf : PagingFrame (fun _ => False) k.paging k'.paging)
    (halign : ∀ i < pageCount size, ∀ f, frame i = some f → f % 4096 = 0)
    (hset : SetsPages ds d (virt / 4096) (pageCount size)
      (fun i => entryOf (k.paging.pageFlags d) (frame i)) k.paging k'.paging) :
    Represents k' ds (σ.set d size virt frame) := by
  refine ⟨hheap, hs, fun c hc p f hp => ?_, fun c hc p hp => ?_⟩
  · unfold Translations.set at hp
    by_cases hcd : c = d
    · subst hcd
      rw [Function.update_self] at hp
      by_cases hin : virt / 4096 ≤ p ∧ p < virt / 4096 + pageCount size
      · rw [overwrite_of_mem hin.1 hin.2] at hp
        exact halign _ (by omega) f hp
      · rw [overwrite_of_notMem (by omega)] at hp
        exact h.aligned c hc p f hp
    · rw [Function.update_of_ne hcd] at hp
      exact h.aligned c hc p f hp
  · rw [hset c hc p hp, hf.pageFlags, Translations.set]
    by_cases hcd : c = d
    · subst hcd
      rw [if_pos rfl, Function.update_self]
      by_cases hin : virt / 4096 ≤ p ∧ p < virt / 4096 + pageCount size
      · rw [overwrite_of_mem hin.1 hin.2, overwrite_of_mem hin.1 hin.2]
      · rw [overwrite_of_notMem (by omega), overwrite_of_notMem (by omega), h.entries c hc p hp]
    · rw [if_neg hcd, Function.update_of_ne hcd, h.entries c hc p hp]

/-- A reservation works on the heap and the block list only. -/
theorem HeapInv.reserveBlock_paging {bs : List BlockLayout.Block} (hi : HeapInv k.heap bs)
    {n size type a : ℕ} (h : reserveBlock (kmalloc n) size type k = .ok (a, k')) :
    k'.paging = k.paging ∧ ∃ bs', HeapInv k'.heap bs' := by
  obtain ⟨c, -, h⟩ := bind_eq_ok.mp h
  cases c with
  | none => cases h
  | some curr =>
    obtain ⟨⟨p, k1⟩, hk1, h⟩ := bind_eq_ok.mp h
    obtain ⟨-, -, hk1', hkept, -⟩ := hi.kmalloc_node hk1
    injection h with h
    rw [Prod.mk.injEq] at h
    obtain ⟨-, rfl⟩ := h
    exact ⟨by rw [hk1'], hkept.inv⟩

theorem SpaceStep.represents {c : SpaceCall} {ds' : List ℕ} {σ' : Translations}
    (hs : SpaceStep c (k, ds, σ) (k', ds', σ')) (h : Represents k ds σ) : Represents k' ds' σ' := by
  cases hs with
  | @getKernelPdClone _ _ _ d g hr =>
    obtain ⟨hnew, hspaces, hf, hold, hzero⟩ := h.spaces.clone hr (fun _ => False)
      fun _ hb => hb.elim
    have hne : ∀ c ∈ ds, c ≠ d := fun c hc hcd => hnew (hcd ▸ hc)
    refine ⟨h.heap, hspaces, fun c hc p f hp => ?_, fun c hc p hp => ?_⟩
    · rcases List.mem_cons.mp hc with rfl | hc
      · rw [Function.update_self] at hp
        cases hp
      · rw [Function.update_of_ne (hne c hc)] at hp
        exact h.aligned c hc p f hp
    · rcases List.mem_cons.mp hc with rfl | hc
      · rw [Function.update_self]
        exact hzero p hp
      · rw [Function.update_of_ne (hne c hc), hf.pageFlags]
        exact (hold c hc p hp).trans (h.entries c hc p hp)
  | @mapMemory _ k1 _ _ _ n size virt d phys hd hu hres hr =>
    obtain ⟨bs, hh⟩ := h.heap
    obtain ⟨hg, hheap⟩ := hh.reserveBlock_paging hres
    rw [VkKernel.mapMemory, hu.rangeSize_eq, hu.aligndown_eq, hres, ok_bind] at hr
    obtain ⟨g, hg', hr⟩ := bind_eq_ok.mp hr
    injection hr with hr
    subst hr
    rw [hu.forRange_eq, hg] at hg'
    obtain ⟨halign, hs, hf, hset⟩ := h.spaces.mapRange hd hu hg'
    refine h.setRange hheap hs hf ?_ hset
    intro i hi f hfi
    injection hfi with hfi
    exact hfi ▸ halign i hi
  | @mapFlexible _ _ _ size physical virt d g hd hu _ hr =>
    obtain ⟨halign, hs, hf, hset⟩ := h.spaces.mapFlexible hd hu hr
    refine h.setRange h.heap hs hf ?_ hset
    intro i hi f hfi
    injection hfi with hfi
    exact hfi ▸ halign i hi
  | @unmapFlexible _ _ _ size virt d g hd hu hr =>
    obtain ⟨hs, hf, hset⟩ := h.spaces.unmapFlexible hd hu hr
    exact h.setRange h.heap hs hf (fun _ _ _ hf => by cases hf) hset
  | @unmapMemoryIfMapped _ _ _ size virt d g hd hu hr =>
    obtain ⟨hs, hf, hset⟩ := h.spaces.unmapMemoryIfMapped hd hu hr
    exact h.setRange h.heap hs hf (fun _ _ _ hf => by cases hf) hset
  | heapCall hstep hg =>
    obtain ⟨bs, hh⟩ := h.heap
    exact ⟨hstep.inv hh, hg ▸ h.spaces, h.aligned, hg ▸ h.entries⟩

/-- A call changes the translations of its pages only. -/
theorem SpaceStep.translations_eq {c : SpaceCall} {ds' : List ℕ} {σ' : Translations}
    (hs : SpaceStep c (k, ds, σ) (k', ds', σ')) (h : Represents k ds σ) {d p : ℕ} (hd : d ∈ ds)
    (hp : ¬ c.touches d p) : σ' d p = σ d p := by
  have hrange : ∀ {e size virt : ℕ} (frame : ℕ → Option ℕ),
      ¬ (d = e ∧ virt / 4096 ≤ p ∧ p < virt / 4096 + pageCount size) →
      σ.set e size virt frame d p = σ d p := by
    intro e size virt frame hout
    unfold Translations.set
    by_cases hde : d = e
    · subst hde
      rw [Function.update_self, overwrite_of_notMem (by omega)]
    · rw [Function.update_of_ne hde]
  cases hs with
  | @getKernelPdClone _ _ _ e g hr =>
    have hnew := (h.spaces.clone hr (fun _ => False) fun _ hb => hb.elim).1
    have hde : d ≠ e := fun hc => hnew (hc ▸ hd)
    rw [Function.update_of_ne hde]
  | mapMemory => exact hrange _ hp
  | mapFlexible => exact hrange _ hp
  | unmapFlexible => exact hrange _ hp
  | unmapMemoryIfMapped => exact hrange _ hp
  | heapCall => rfl

/-! ## Runs -/

/-- The runs of calls on page directories, from a kernel without any. -/
def SpaceRun (k0 : Kernel) (s : Kernel × List ℕ × Translations) : Prop :=
  Relation.ReflTransGen (fun s s' => ∃ c, SpaceStep c s s') (k0, [], fun _ _ => none) s

theorem SpaceRun.represents {k0 : Kernel} (h0 : HeapReachable k0) {s : Kernel × List ℕ × Translations}
    (hrun : SpaceRun k0 s) : Represents s.1 s.2.1 s.2.2 := by
  induction hrun with
  | refl =>
    refine ⟨h0.inv, ⟨by simp, ?_⟩, by simp, by simp⟩
    refine ⟨?_, ?_, ?_, ?_⟩ <;> simp [userEntry]
  | tail _ hstep ih =>
    obtain ⟨c, hc⟩ := hstep
    exact hc.represents ih

/-- In every run, `is_mapped` and `get_physical` on each directory are lookups in
the map of translations, and a further call changes the results only for the
pages it is about, in the directory it is about. -/
theorem lookups_eq_translations {k0 k : Kernel} {ds : List ℕ} {σ : Translations}
    (h0 : HeapReachable k0) (hrun : SpaceRun k0 (k, ds, σ)) :
    (∀ d ∈ ds, ∀ v < kernelVirtualBase,
      isMapped v d k.paging = (σ d (v / 4096)).isSome ∧
      getPhysical v d k.paging = (σ d (v / 4096)).elim 0 (· + v % 4096)) ∧
    ∀ c k' ds' σ', SpaceStep c (k, ds, σ) (k', ds', σ') → ∀ d ∈ ds, ∀ v < kernelVirtualBase,
      ¬ c.touches d (v / 4096) →
      isMapped v d k'.paging = isMapped v d k.paging ∧
      getPhysical v d k'.paging = getPhysical v d k.paging := by
  have h := SpaceRun.represents h0 hrun
  refine ⟨fun d hd v hv => ⟨h.isMapped_eq hd hv, h.getPhysical_eq hd hv⟩, ?_⟩
  intro c k' ds' σ' hs d hd v hv hout
  have h' := hs.represents h
  have hsame := hs.translations_eq h hd hout
  have hd' : d ∈ ds' := by
    cases hs with
    | getKernelPdClone => exact List.mem_cons_of_mem _ hd
    | mapMemory => exact hd
    | mapFlexible => exact hd
    | unmapFlexible => exact hd
    | unmapMemoryIfMapped => exact hd
    | heapCall => exact hd
  rw [h'.isMapped_eq hd' hv, h.isMapped_eq hd hv, h'.getPhysical_eq hd' hv, h.getPhysical_eq hd hv,
    hsame]
  exact ⟨rfl, rfl⟩

/-- The first slot of an unused page heap. -/
theorem ptAlloc_first {g : Paging} (h : g.kpheapBlocks 0 = false) : ptAlloc g = .ok (slotAddr 0,
    { g.clearPage (slotAddr 0) with kpheapBlocks := Function.update g.kpheapBlocks 0 true }) := by
  rw [ptAlloc, ptAllocFrom]
  exact if_pos h

/-- The first directory. -/
theorem getKernelPdClone_first {g : Paging} (h : g.kpheapBlocks 0 = false) :
    ∃ g', getKernelPdClone g = .ok (slotAddr 0, g') ∧
      g'.kpheapBlocks = Function.update g.kpheapBlocks 0 true := by
  rw [getKernelPdClone, ptAlloc_first h, ok_bind]
  exact ⟨_, rfl, (copyKernelHalf_frame _ _ _).2.1⟩

/-- A page for a new directory, at an unmapped address. -/
theorem Represents.mapFlexible_page (h : Represents k ds σ) {d virt : ℕ} (physical : ℕ) (hd : d ∈ ds)
    (hu : UserRange 4096 virt) (hp : physical % 4096 = 0) (hnone : σ d (virt / 4096) = none)
    (hfree : ∃ i < 1024, k.paging.kpheapBlocks i = false) :
    ∃ g, mapFlexible 4096 physical virt d k.paging = .ok g := by
  have hone : pageCount 4096 = 1 := by rw [pageCount, alignup_of_dvd (by decide)]
  have hv : virt < kernelVirtualBase := by
    have := (hu.lt (i := 0) (by omega)).1
    omega
  have hidx : ptIndex virt < 1024 := Nat.mod_lt _ (by norm_num)
  have hpage := h.entries d hd _ (page_lt hv)
  rw [hnone, ← leafAt_eq_pageEntry] at hpage
  obtain ⟨g, hg, -⟩ := h.spaces.tables.mapPages (n := 1) (userEntry_of_mem hd hv) hp
    hu.aligned (by unfold kernelVirtualBase at hv; omega) (by omega)
    (fun i hi => by rw [Nat.lt_one_iff.mp hi]; exact hpage) hfree
  refine ⟨g, ?_⟩
  rw [VkKernel.mapFlexible, hu.rangeSize_eq, hu.aligndown_eq, hu.forRange_eq, hone, hg]

/-- One page of a first address space. -/
theorem lookups_eq_translations_one_page : ∃ k d σ, SpaceRun installedKernel (k, [d], σ) ∧
    isMapped 0x8048123 d k.paging = true ∧ getPhysical 0x8048123 d k.paging = 0x5123 := by
  -- a new directory
  obtain ⟨g, hclone, hblocks⟩ := getKernelPdClone_first (g := installedKernel.paging) rfl
  have hfree : g.kpheapBlocks 1 = false := by
    rw [hblocks]
    exact Function.update_of_ne (by decide) _ _
  let d := slotAddr 0
  let k : Kernel := { installedKernel with paging := g }
  let σ : Translations := Function.update (fun _ _ => none) d fun _ => none
  have hrun : SpaceRun installedKernel (k, [d], σ) := .single ⟨_, .getKernelPdClone hclone⟩
  have hrep : Represents k [d] σ := hrun.represents heapReachable_installedKernel
  -- and a page in it
  have hu : UserRange 4096 0x8048000 :=
    ⟨by decide, by decide, by rw [alignup_of_dvd (by decide)]; decide⟩
  obtain ⟨g', hg'⟩ := hrep.mapFlexible_page 0x5000 List.mem_cons_self hu (by decide)
    (by simp only [σ, Function.update_self]) ⟨1, by decide, hfree⟩
  have hstep : SpaceStep (.mapFlexible 4096 0x5000 0x8048000 d) (k, [d], σ)
      ({ k with paging := g' }, [d], σ.set d 4096 0x8048000 fun i => some (u32 (0x5000 + i * 4096))) :=
    .mapFlexible List.mem_cons_self hu (by decide) hg'
  have hrun' := Relation.ReflTransGen.tail hrun ⟨_, hstep⟩
  obtain ⟨hmap, hphys⟩ := (lookups_eq_translations heapReachable_installedKernel hrun').1 d
    List.mem_cons_self 0x8048123 (by decide)
  have hσ : σ.set d 4096 0x8048000 (fun i => some (u32 (0x5000 + i * 4096))) d
      (0x8048123 / 4096) = some 0x5000 := by
    rw [Translations.set, Function.update_self, pageCount, alignup_of_dvd (by decide)]
    rfl
  rw [hσ] at hmap hphys
  exact ⟨_, d, _, hrun', hmap, hphys⟩

end VkKernel
