import VkKernel.CopyRoom
import VkKernel.MapIfNotMapped

/-!
# The memories of processes

No frame is shown by two pages of user memory, so the kernel gives every process a memory of its
own: what one process stores, no other one reads, and `copy_adress_space` returns a second memory
with the same bytes. This holds along every run that maps user memory by `map_memory`, copies it,
frees it and reuses it.
-/

namespace VkKernel
open ByteMemory BlockLayout RegionList Outcome IntervalUpdate

/-- The byte that the processor reads at `virt` behind the directory `d`. -/
def Kernel.userByte (k : Kernel) (d virt : ℕ) : Option UInt8 := (k.paging.translate virt d).map k.ram

/-- What `free_process_memory` does for a segment, and `free_thread_memory` for a stack. -/
def freeSegment (size virt pd : ℕ) (k : Kernel) : Result Kernel := do
  let phys := getPhysical virt pd k.paging
  let g ← unmapFlexible size virt pd k.paging
  freeBlock (aligndown phys 4096) { k with paging := g }

/-- The blocks of a copied address space, one for every page. -/
def copyBlocks (k : Kernel) (tr : ℕ) : List (ℕ × ℕ) :=
  (List.range userPages).filterMap fun p => (k.paging.translate (p * 4096) tr).map fun a => (a, 4096)

/-! ## Runs -/

inductive MemoryCall
  | getKernelPdClone
  | mapMemory (size virt d : ℕ)
  | mapMemoryIfNotMapped (size virt d : ℕ)
  | unmapMemoryIfMapped (size virt d : ℕ)
  | freeSegment (size virt d : ℕ)
  | copyAdressSpace (d : ℕ)
  | ptFree (d : ℕ)
  | store (virt : ℕ) (b : UInt8) (d : ℕ)
  | pdSwitch (d : ℕ)
  | other
deriving DecidableEq

/-- The kernel, the directories of the processes, and the reservations that have not been freed. -/
abbrev MemoryState := Kernel × List ℕ × List (ℕ × ℕ)

/-- One completed call. A store is one of the process whose directory is current. A segment that
is freed was mapped from a block of its own that is not longer, and `copy_adress_space` finds room
for its buffers in the heap. -/
inductive MemoryStep : MemoryCall → MemoryState → MemoryState → Prop
  | getKernelPdClone {k : Kernel} {ds : List ℕ} {rv : List (ℕ × ℕ)} {d : ℕ} {g : Paging} :
      getKernelPdClone k.paging = .ok (d, g) →
      MemoryStep .getKernelPdClone (k, ds, rv) ({ k with paging := g }, d :: ds, rv)
  | mapMemory {k k₁ k' : Kernel} {ds : List ℕ} {rv : List (ℕ × ℕ)} {n size virt d a : ℕ} :
      d ∈ ds → UserRange size virt → 0 < size →
      reserveBlock (kmalloc n) (alignup size 4096) (blockTypeFor d k.paging) k = .ok (a, k₁) →
      mapMemory (kmalloc n) size virt d k = .ok k' →
      MemoryStep (.mapMemory size virt d) (k, ds, rv) (k', ds, (a, alignup size 4096) :: rv)
  | mapMemoryIfNotMapped {k k₁ k' : Kernel} {ds : List ℕ} {rv : List (ℕ × ℕ)}
      {n size virt d a : ℕ} : d ∈ ds → UserRange size virt → 0 < size →
      reserveBlock (kmalloc n) (alignup size 4096) (blockTypeFor d k.paging) k = .ok (a, k₁) →
      mapMemoryIfNotMapped (kmalloc n) size virt d k = .ok k' →
      MemoryStep (.mapMemoryIfNotMapped size virt d) (k, ds, rv)
        (k', ds, (a, alignup size 4096) :: rv)
  | unmapMemoryIfMapped {k : Kernel} {ds : List ℕ} {rv : List (ℕ × ℕ)} {size virt d : ℕ}
      {g : Paging} : d ∈ ds → UserRange size virt →
      unmapMemoryIfMapped size virt d k.paging = .ok g →
      MemoryStep (.unmapMemoryIfMapped size virt d) (k, ds, rv) ({ k with paging := g }, ds, rv)
  | freeSegment {k k' : Kernel} {ds : List ℕ} {rv : List (ℕ × ℕ)} {size virt d n : ℕ} :
      d ∈ ds → UserRange size virt → (getPhysical virt d k.paging, n) ∈ rv →
      n ≤ alignup size 4096 → freeSegment size virt d k = .ok k' →
      MemoryStep (.freeSegment size virt d) (k, ds, rv)
        (k', ds, rv.erase (getPhysical virt d k.paging, n))
  | copyAdressSpace {k k' : Kernel} {ds : List ℕ} {rv : List (ℕ × ℕ)} {fuel pd tr : ℕ} : pd ∈ ds →
      copyAdressSpace fuel pd k = .ok (tr, k') → k'.heap.baseEnd = k.heap.baseEnd →
      MemoryStep (.copyAdressSpace pd) (k, ds, rv) (k', tr :: ds, copyBlocks k' tr ++ rv)
  | ptFree {k : Kernel} {ds : List ℕ} {rv : List (ℕ × ℕ)} {d : ℕ} : d ∈ ds →
      MemoryStep (.ptFree d) (k, ds, rv) ({ k with paging := VkKernel.ptFree d k.paging }, ds.erase d, rv)
  | store {k : Kernel} {ds : List ℕ} {rv : List (ℕ × ℕ)} {virt a : ℕ} {b : UInt8} :
      k.paging.currentPageDirectory ∈ ds → virt < kernelVirtualBase →
      k.paging.translate virt k.paging.currentPageDirectory = some a →
      MemoryStep (.store virt b k.paging.currentPageDirectory) (k, ds, rv)
        ({ k with ram := Function.update k.ram a b }, ds, rv)
  | pdSwitch {k : Kernel} {ds : List ℕ} {rv : List (ℕ × ℕ)} {d : ℕ} :
      MemoryStep (.pdSwitch d) (k, ds, rv) (k.switchTo d, ds, rv)
  | other {k k' : Kernel} {ds : List ℕ} {rv : List (ℕ × ℕ)} : HeapStep k k' →
      k'.paging = k.paging → k'.phys = k.phys → k'.ram = k.ram →
      (∀ stale rs, Listing stale k.phys rs → ∀ r ∈ rs, r.key ∈ k'.heap.live) →
      MemoryStep .other (k, ds, rv) (k', ds, rv)

/-- The runs from a kernel without processes. -/
def MemoryRun (k₀ : Kernel) (s : MemoryState) : Prop :=
  Relation.ReflTransGen (fun s s' => ∃ c, MemoryStep c s s') (k₀, [], []) s

/-! ## Memories of their own -/

/-- What each process sees at each address. -/
abbrev Memories := ℕ → ℕ → Option UInt8

/-- The same calls on independent memories. New memory has arbitrary bytes. -/
inductive PrivateStep : MemoryCall → List ℕ × Memories → List ℕ × Memories → Prop
  | getKernelPdClone {ds : List ℕ} {m : Memories} {d : ℕ} : d ∉ ds →
      PrivateStep .getKernelPdClone (ds, m) (d :: ds, Function.update m d fun _ => none)
  | mapMemory {ds : List ℕ} {m : Memories} {size virt d : ℕ} (new : ℕ → UInt8) : d ∈ ds →
      PrivateStep (.mapMemory size virt d) (ds, m) (ds, Function.update m d
        (overwrite (m d) virt (alignup size 4096) fun i => some (new i)))
  | mapMemoryIfNotMapped {ds : List ℕ} {m : Memories} {size virt d : ℕ} (new : ℕ → UInt8) : d ∈ ds →
      PrivateStep (.mapMemoryIfNotMapped size virt d) (ds, m) (ds, Function.update m d
        (overwrite (m d) virt (alignup size 4096) fun i => some ((m d (virt + i)).getD (new i))))
  | unmapMemoryIfMapped {ds : List ℕ} {m : Memories} {size virt d : ℕ} : d ∈ ds →
      PrivateStep (.unmapMemoryIfMapped size virt d) (ds, m) (ds, Function.update m d
        (overwrite (m d) virt (alignup size 4096) fun _ => none))
  | freeSegment {ds : List ℕ} {m : Memories} {size virt d : ℕ} : d ∈ ds →
      PrivateStep (.freeSegment size virt d) (ds, m) (ds, Function.update m d
        (overwrite (m d) virt (alignup size 4096) fun _ => none))
  | copyAdressSpace {ds : List ℕ} {m : Memories} {pd tr : ℕ} : pd ∈ ds → tr ∉ ds →
      PrivateStep (.copyAdressSpace pd) (ds, m) (tr :: ds, Function.update m tr (m pd))
  | ptFree {ds : List ℕ} {m : Memories} {d : ℕ} : d ∈ ds →
      PrivateStep (.ptFree d) (ds, m) (ds.erase d, Function.update m d fun _ => none)
  | store {ds : List ℕ} {m : Memories} {virt d : ℕ} {b : UInt8} : d ∈ ds → (m d virt).isSome →
      PrivateStep (.store virt b d) (ds, m)
        (ds, Function.update m d (Function.update (m d) virt (some b)))
  | pdSwitch {ds : List ℕ} {m : Memories} {d : ℕ} : PrivateStep (.pdSwitch d) (ds, m) (ds, m)
  | other {ds : List ℕ} {m : Memories} : PrivateStep .other (ds, m) (ds, m)

/-- The memories that the kernel gives to the processes. -/
def userMemories (s : MemoryState) : List ℕ × Memories :=
  (s.2.1, fun d virt =>
    if d ∈ s.2.1 ∧ virt < kernelVirtualBase then s.1.userByte d virt else none)

/-! ## What the frames hold -/

/-- The memories that translations and physical memory make. -/
def memoriesOf (ds : List ℕ) (σ : Translations) (ram : Mem) : Memories := fun d virt =>
  if d ∈ ds ∧ virt < kernelVirtualBase then
    (σ d (virt / 4096)).map fun f => ram (f + virt % 4096)
  else none

section Memories
variable {k k' : Kernel} {ds : List ℕ} {σ : Translations} {rv : List (ℕ × ℕ)} {d : ℕ} {ram : Mem}

theorem userMemories_eq (h : PrivateFrames k ds σ rv) :
    userMemories (k, ds, rv) = (ds, memoriesOf ds σ k.ram) := by
  unfold userMemories memoriesOf
  refine Prod.ext rfl (funext fun c => funext fun v => ?_)
  dsimp only
  split_ifs with hc
  · rw [Kernel.userByte, h.spaces.translate_eq hc.1 hc.2, Option.map_map]
    rfl
  · rfl

theorem memoriesOf_apply (hd : d ∈ ds) {v : ℕ} (hv : v < kernelVirtualBase) :
    memoriesOf ds σ ram d v = (σ d (v / 4096)).map fun f => ram (f + v % 4096) := if_pos ⟨hd, hv⟩

theorem memoriesOf_clone :
    memoriesOf (d :: ds) (Function.update σ d fun _ => none) ram =
      Function.update (memoriesOf ds σ ram) d fun _ => none := by
  funext c v
  by_cases hcd : c = d
  · subst hcd
    simp [memoriesOf]
  · simp [memoriesOf, hcd]

theorem memoriesOf_erase (hn : ds.Nodup) :
    memoriesOf (ds.erase d) σ ram = Function.update (memoriesOf ds σ ram) d fun _ => none := by
  funext c v
  by_cases hcd : c = d
  · subst hcd
    simp [memoriesOf, hn.not_mem_erase]
  · simp [memoriesOf, hcd, List.mem_erase_of_ne]

/-- A range of pages. -/
theorem memoriesOf_set (hd : d ∈ ds) {size virt : ℕ} (hu : UserRange size virt)
    (frame : ℕ → Option ℕ) :
    memoriesOf ds (σ.set d size virt frame) ram = Function.update (memoriesOf ds σ ram) d
      (overwrite (memoriesOf ds σ ram d) virt (alignup size 4096) fun i =>
        (frame (i / 4096)).map fun f => ram (f + i % 4096)) := by
  have haligned := hu.aligned
  have hbelow := hu.below
  have hsize := hu.alignup_eq.1
  funext c v
  by_cases hcd : c = d
  · subst hcd
    rw [Function.update_self]
    by_cases hin : virt ≤ v ∧ v < virt + alignup size 4096
    · rw [overwrite_of_mem hin.1 hin.2, memoriesOf_apply hd (by omega), Translations.set,
        Function.update_self, overwrite_of_mem (by omega) (by omega),
        show v / 4096 - virt / 4096 = (v - virt) / 4096 by omega,
        show v % 4096 = (v - virt) % 4096 by omega]
    · rw [overwrite_of_notMem (by omega)]
      unfold memoriesOf
      split_ifs
      · rw [Translations.set, Function.update_self, overwrite_of_notMem (by omega)]
      · rfl
  · rw [Function.update_of_ne hcd]
    unfold memoriesOf Translations.set
    rw [Function.update_of_ne hcd]

/-- A range that was mapped in part. -/
theorem memoriesOf_fill (hd : d ∈ ds) {size virt : ℕ} (hu : UserRange size virt) (a : ℕ) :
    memoriesOf ds (σ.fill d size virt a) ram = Function.update (memoriesOf ds σ ram) d
      (overwrite (memoriesOf ds σ ram d) virt (alignup size 4096) fun i =>
        some ((memoriesOf ds σ ram d (virt + i)).getD (ram (a + i / 4096 * 4096 + i % 4096)))) := by
  have haligned := hu.aligned
  have hbelow := hu.below
  unfold Translations.fill
  rw [memoriesOf_set hd hu]
  congr 1
  funext v
  by_cases hin : virt ≤ v ∧ v < virt + alignup size 4096
  · rw [overwrite_of_mem hin.1 hin.2, overwrite_of_mem hin.1 hin.2, Nat.add_sub_cancel' hin.1,
      memoriesOf_apply hd (by omega), show virt / 4096 + (v - virt) / 4096 = v / 4096 by omega,
      show (v - virt) % 4096 = v % 4096 by omega]
    cases σ d (v / 4096) with
    | none => rfl
    | some f => rfl
  · rw [overwrite_of_notMem (by omega), overwrite_of_notMem (by omega)]

/-- A byte that is stored is stored in one memory only. -/
theorem PrivateFrames.memoriesOf_store (h : PrivateFrames k ds σ rv) (hd : d ∈ ds) {virt a : ℕ}
    (hv : virt < kernelVirtualBase) (ha : k.paging.translate virt d = some a) (b : UInt8) :
    memoriesOf ds σ (Function.update k.ram a b) = Function.update (memoriesOf ds σ k.ram) d
      (Function.update (memoriesOf ds σ k.ram d) virt (some b)) := by
  have hother : ∀ c ∈ ds, ∀ w < kernelVirtualBase, (c ≠ d ∨ w ≠ virt) →
      ((σ c (w / 4096)).map fun f => Function.update k.ram a b (f + w % 4096)) =
        (σ c (w / 4096)).map fun f => k.ram (f + w % 4096) := by
    intro c hc w hw hne
    cases hf : σ c (w / 4096) with
    | none => rfl
    | some f =>
      have hfa : f + w % 4096 ≠ a := by
        rintro rfl
        have hw' : k.paging.translate w c = some (f + w % 4096) := by
          rw [h.spaces.translate_eq hc hw, hf]
          rfl
        obtain ⟨rfl, rfl⟩ := h.byte_unique hc hd hw hv hw' ha
        exact hne.elim (fun h => h rfl) fun h => h rfl
      rw [Option.map_some, Option.map_some, Function.update_of_ne hfa]
  funext c w
  by_cases hcw : c = d ∧ w = virt
  · obtain ⟨rfl, rfl⟩ := hcw
    rw [Function.update_self, Function.update_self, memoriesOf_apply hd hv]
    rw [h.spaces.translate_eq hd hv, Option.map_eq_some_iff] at ha
    obtain ⟨f, hf, rfl⟩ := ha
    rw [hf, Option.map_some, Function.update_self]
  · have hright : Function.update (memoriesOf ds σ k.ram) d
        (Function.update (memoriesOf ds σ k.ram d) virt (some b)) c w = memoriesOf ds σ k.ram c w := by
      by_cases hcd : c = d
      · subst hcd
        rw [Function.update_self, Function.update_of_ne fun hw => hcw ⟨rfl, hw⟩]
      · rw [Function.update_of_ne hcd]
    rw [hright]
    unfold memoriesOf
    split_ifs with hin
    · exact hother c hin.1 w hin.2 (by tauto)
    · rfl

end Memories

/-! ## The invariant -/

/-- The frames of user memory are private, for some translations. -/
def FramesPrivate (s : MemoryState) : Prop :=
  s.2.1.Nodup ∧ ∃ σ, PrivateFrames s.1 s.2.1 σ s.2.2

section Invariant
variable {k k' : Kernel} {ds : List ℕ} {σ : Translations} {rv : List (ℕ × ℕ)} {d : ℕ}

/-- Pages that are not mapped any more. -/
theorem PrivateFrames.unset (h : PrivateFrames k ds σ rv) {size virt : ℕ}
    (h' : Represents k' ds (σ.set d size virt fun _ => none)) (hphys : k'.phys = k.phys)
    (hheap : k'.heap = k.heap) :
    PrivateFrames k' ds (σ.set d size virt fun _ => none) rv := by
  have hold : ∀ c p f, σ.set d size virt (fun _ => none) c p = some f → σ c p = some f := by
    intro c p f hf
    unfold Translations.set at hf
    by_cases hcd : c = d
    · subst hcd
      rw [Function.update_self] at hf
      by_cases hin : virt / 4096 ≤ p ∧ p < virt / 4096 + pageCount size
      · rw [overwrite_of_mem hin.1 hin.2] at hf
        cases hf
      · rwa [overwrite_of_notMem (by omega)] at hf
    · rwa [Function.update_of_ne hcd] at hf
  obtain ⟨rs, hi⟩ := h.blocks
  refine ⟨h', ⟨rs, hi.congr (hheap ▸ h.sound) hphys fun r hr => ?_⟩, fun c hc p f hf => ?_, ?_⟩
  · rw [hheap]
    exact hi.phys.live r (by simpa using hr)
  · exact h.owned c hc p f (hold c p f hf)
  · intro v hv c hc e he p q f g hf hg
    exact h.placed v hv c hc e he p q f g (hold c p f hf) (hold e q g hg)

/-- A segment with a block of its own: no page shows the block when it is freed. -/
theorem PrivateFrames.freeSegment (h : PrivateFrames k ds σ rv) (hd : d ∈ ds) {size virt n : ℕ}
    (hu : UserRange size virt) (hn : (getPhysical virt d k.paging, n) ∈ rv)
    (hle : n ≤ alignup size 4096) (hr : freeSegment size virt d k = .ok k') :
    PrivateFrames k' ds (σ.set d size virt fun _ => none)
      (rv.erase (getPhysical virt d k.paging, n)) ∧ k'.ram = k.ram := by
  obtain ⟨g, hg, hfree⟩ := bind_eq_ok.mp hr
  have hunset := h.unset ((SpaceStep.unmapFlexible hd hu hg).represents h.spaces) rfl rfl
  obtain ⟨rs, hi⟩ := hunset.blocks
  obtain ⟨hlow, hpos, -⟩ := hi.held _ hn
  -- the first page shows the start of the block
  have hbelow := hu.below
  have haligned := hu.aligned
  have hfirst : σ d (virt / 4096) = some (getPhysical virt d k.paging) := by
    have hphys := h.spaces.getPhysical_eq hd (v := virt) (by omega)
    cases hf : σ d (virt / 4096) with
    | none =>
      rw [hf, Option.elim_none] at hphys
      dsimp only at hlow
      omega
    | some f => rw [hphys, hf, Option.elim_some, haligned, Nat.add_zero]
  generalize getPhysical virt d k.paging = a at *
  have ha4 := h.spaces.aligned d hd _ a hfirst
  rw [aligndown, ha4, Nat.sub_zero] at hfree
  dsimp only at hlow hpos
  obtain ⟨rs', hi', -, -⟩ := @RunInv.free noStale [] ReservedType (fun _ _ => True) _ k' rv rs a n hi
    (fun t ht => ht.ne_free) hn trivial hfree
  obtain ⟨r, hfind, htag⟩ := hi.phys.freeBlock_returns (by omega) hfree
  obtain ⟨k₁, -, -, -, -, -, -, -, -, hrun, -, hframe⟩ :=
    hi.phys.freeBlock_spec (by omega) hfind htag
  rw [hrun] at hfree
  injection hfree with hfree
  subst hfree
  have hpages := hu.alignup_eq.1
  refine ⟨⟨hunset.spaces.of_paging hi'.phys.heap (by rw [hframe.frame]), ⟨rs', hi'⟩, ?_, ?_⟩, ?_⟩
  · intro c hc p f hf
    obtain ⟨v, hv, hlo, hhi⟩ := hunset.owned c hc p f hf
    by_cases hva : v = (a, n)
    · -- another page of the block would be one of the segment
      subst hva
      dsimp only at hlo hhi
      have hold : σ c p = some f ∨ c = d ∧ virt / 4096 ≤ p ∧ p < virt / 4096 + pageCount size := by
        by_cases hcd : c = d ∧ virt / 4096 ≤ p ∧ p < virt / 4096 + pageCount size
        · exact .inr hcd
        · rw [← (SpaceStep.unmapFlexible hd hu hg).translations_eq h.spaces hc hcd]
          exact .inl hf
      rcases hold with hold | ⟨rfl, hp, hp'⟩
      · obtain ⟨rfl, heq⟩ := h.placed _ hn d hd c hc _ p a f hfirst hold le_rfl (by dsimp only; omega)
          hlo (by dsimp only; omega)
        rw [Translations.set, Function.update_self, overwrite_of_mem (by omega) (by omega)] at hf
        cases hf
      · rw [Translations.set, Function.update_self, overwrite_of_mem hp hp'] at hf
        cases hf
    · exact ⟨v, (List.mem_erase_of_ne hva).mpr hv, hlo, hhi⟩
  · exact fun v hv => hunset.placed v (List.mem_of_mem_erase hv)
  · rw [hframe.frame]

/-- A directory that is given back. -/
theorem PrivateFrames.ptFree (h : PrivateFrames k ds σ rv) (hnodup : ds.Nodup) (hd : d ∈ ds) :
    PrivateFrames { k with paging := VkKernel.ptFree d k.paging } (ds.erase d) σ rv := by
  obtain ⟨i, hi, hdi, -⟩ := h.spaces.spaces.dirs d hd
  have hmem : ∀ c ∈ ds.erase d, c ≠ d ∧ c ∈ ds := fun c hc => hnodup.mem_erase_iff.mp hc
  have hslot : sub32 d kpheapVirtBase / kpheapBlockSize = i := by
    have hlt : slotAddr i < 2 ^ 32 := by
      unfold slotAddr kpheapVirtBase kpheapBlockSize
      omega
    rw [hdi, sub32_of_le hlt (Nat.le_add_right _ _)]
    unfold slotAddr kpheapBlockSize
    omega
  have hblocks : (VkKernel.ptFree d k.paging).kpheapBlocks =
      Function.update k.paging.kpheapBlocks i false := by rw [VkKernel.ptFree, hslot]
  have hown : ∀ a, userEntry (ds.erase d) a → userEntry ds a := by
    rintro a ⟨c, hc, j, hj, rfl⟩
    exact ⟨c, (hmem c hc).2, j, hj, rfl⟩
  -- the other directories are in other slots
  have hoff : ∀ a, userEntry (ds.erase d) a → OffSlot i a := by
    rintro a ⟨c, hc, j, hj, rfl⟩
    obtain ⟨i', -, rfl, -⟩ := h.spaces.spaces.dirs c (hmem c hc).2
    have hne : i' ≠ i := by
      rintro rfl
      exact (hmem _ hc).1 hdi.symm
    unfold OffSlot slotAddr kpheapBlockSize
    omega
  have ht := h.spaces.spaces.tables
  obtain ⟨rs, hblock⟩ := h.blocks
  refine ⟨⟨h.sound, ⟨fun c hc => ?_, fun a ha i' hi' hfree => ?_, fun a ha hne => ?_,
    fun a b j ha hb => ht.unshared a b j (hown a ha) (hown b hb), fun _ _ hk => hk⟩,
    fun c hc => h.spaces.aligned c (hmem c hc).2, fun c hc => h.spaces.entries c (hmem c hc).2⟩,
    ⟨rs, hblock.congr h.sound rfl fun r hr => hblock.phys.live r (by simpa using hr)⟩,
    fun c hc => h.owned c (hmem c hc).2,
    fun v hv c hc e he => h.placed v hv c (hmem c hc).2 e (hmem e he).2⟩
  · obtain ⟨i', hi', hci, hu⟩ := h.spaces.spaces.dirs c (hmem c hc).2
    have hne : i' ≠ i := by
      rintro rfl
      exact (hmem c hc).1 (hci.trans hdi.symm)
    refine ⟨i', hi', hci, ?_⟩
    dsimp only
    rw [hblocks, Function.update_of_ne hne]
    exact hu
  · dsimp only at hfree
    rw [hblocks, Function.update_apply] at hfree
    have ha' : userEntry (ds.erase d) a := ha.elim id False.elim
    split_ifs at hfree with heq
    · exact heq ▸ hoff a ha'
    · exact ht.apart a (.inl (hown a ha')) i' hi' hfree
  · obtain hlarge | ⟨i', hi', hu, hentry, haway⟩ := ht.table a (hown a ha) hne
    · exact .inl hlarge
    · refine .inr ⟨i', hi', ?_, hentry, fun b hb => haway b (hb.imp_left (hown b))⟩
      have hne' : i' ≠ i := by
        -- the slot of the directory has no table
        rintro rfl
        have hself := haway d (.inl ⟨d, hd, 0, by omega, rfl⟩)
        rw [hdi] at hself
        unfold OffSlot at hself
        omega
      dsimp only
      rw [hblocks, Function.update_of_ne hne']
      exact hu

/-- Only the members of the list of reservations matter. -/
theorem PrivateFrames.relist (h : PrivateFrames k ds σ rv) {rv' : List (ℕ × ℕ)} (hn : rv'.Nodup)
    (hm : ∀ v, v ∈ rv' ↔ v ∈ rv) : PrivateFrames k ds σ rv' := by
  obtain ⟨rs, hi⟩ := h.blocks
  refine ⟨h.spaces, ⟨rs, hi.phys, hn, fun v hv => hi.held v ((hm v).mp hv)⟩, fun d hd p f hf => ?_,
    fun v hv => h.placed v ((hm v).mp hv)⟩
  obtain ⟨v, hv, hin⟩ := h.owned d hd p f hf
  exact ⟨v, (hm v).mpr hv, hin⟩

section Copied
variable {g : Paging} {σ' : Translations} {rv' : List (ℕ × ℕ)} {pd tr cpd : ℕ}

/-- The reservations after a copy. -/
theorem CopiedUpTo.relist (h' : CopiedUpTo userPages pd tr cpd { k with paging := g } (tr :: ds)
    (Function.update σ tr fun _ => none) rv k' σ' rv') (hrv : rv.Nodup) :
    PrivateFrames k' (tr :: ds) σ' (copyBlocks k' tr ++ rv) := by
  have htranslate : ∀ p < userPages, k'.paging.translate (p * 4096) tr = σ' tr p := by
    intro p hp
    have hlt : p * 4096 < kernelVirtualBase := by
      unfold userPages at hp
      unfold kernelVirtualBase
      omega
    rw [h'.frames.spaces.translate_eq List.mem_cons_self hlt, Nat.mul_div_cancel _ (by norm_num),
      Nat.mul_mod_left]
    simp
  have hmem : ∀ v, v ∈ copyBlocks k' tr ↔ ∃ p < userPages, σ' tr p = some v.1 ∧ v.2 = 4096 := by
    intro v
    simp only [copyBlocks, List.mem_filterMap, List.mem_range, Option.map_eq_some_iff]
    constructor
    · rintro ⟨p, hp, a, ha, rfl⟩
      rw [htranslate p hp] at ha
      exact ⟨p, hp, ha, rfl⟩
    · rintro ⟨p, hp, hpv, hv⟩
      refine ⟨p, hp, v.1, (htranslate p hp).trans hpv, Prod.ext rfl hv.symm⟩
  refine h'.frames.relist (List.nodup_append.mpr ⟨?_, hrv, fun v hv w hw hvw => ?_⟩) fun v => ?_
  · -- different pages show different frames
    refine List.pairwise_filterMap.mpr (List.nodup_range.imp_of_mem fun {p q} hp hq hpq => ?_)
    intro v hv w hw hvw
    rw [htranslate p (List.mem_range.mp hp), Option.map_eq_some_iff] at hv
    rw [htranslate q (List.mem_range.mp hq), Option.map_eq_some_iff] at hw
    obtain ⟨a, ha, rfl⟩ := hv
    obtain ⟨b, hb, rfl⟩ := hw
    have hab : a = b := congrArg Prod.fst hvw
    exact hpq (h'.frames.unique List.mem_cons_self List.mem_cons_self ha (hab ▸ hb)).2
  · subst hvw
    obtain ⟨p, hp, hpv, hv⟩ := (hmem v).mp hv
    have hfresh := h'.fresh p v.1 hpv v hw
    omega
  · rw [List.mem_append, hmem, h'.members]
    exact or_comm

/-- The bytes after a copy. -/
theorem CopiedUpTo.memoriesOf_eq (h' : CopiedUpTo userPages pd tr cpd { k with paging := g }
    (tr :: ds) (Function.update σ tr fun _ => none) rv k' σ' rv') (h : PrivateFrames k ds σ rv)
    (hpd : pd ∈ ds) (hnew : tr ∉ ds) :
    memoriesOf (tr :: ds) σ' k'.ram =
      Function.update (memoriesOf ds σ k.ram) tr (memoriesOf ds σ k.ram pd) := by
  have hne : pd ≠ tr := fun heq => hnew (heq ▸ hpd)
  funext c v
  by_cases hct : c = tr
  · subst hct
    rw [Function.update_self]
    by_cases hv : v < kernelVirtualBase
    · rw [memoriesOf_apply List.mem_cons_self hv, memoriesOf_apply hpd hv]
      cases hf : σ pd (v / 4096) with
      | none =>
        rw [h'.absent _ (page_lt hv) (by rw [Function.update_of_ne hne]; exact hf)]
        rfl
      | some f =>
        obtain ⟨a, ha, hbytes⟩ := h'.copied _ (page_lt hv) f
          (by rw [Function.update_of_ne hne]; exact hf)
        rw [ha, Option.map_some, Option.map_some, hbytes _ (Nat.mod_lt v (by norm_num))]
    · unfold memoriesOf
      rw [if_neg fun hin => hv hin.2, if_neg fun hin => hv hin.2]
  · rw [Function.update_of_ne hct]
    unfold memoriesOf
    by_cases hin : c ∈ ds ∧ v < kernelVirtualBase
    · rw [if_pos ⟨List.mem_cons_of_mem _ hin.1, hin.2⟩, if_pos hin, h'.others c hct,
        Function.update_of_ne hct]
      cases hf : σ c (v / 4096) with
      | none => rfl
      | some f =>
        obtain ⟨w, hw, hlo, hhi⟩ := h.owned c hin.1 _ f hf
        have hlt := Nat.mod_lt v (show 4096 > 0 by norm_num)
        rw [Option.map_some, Option.map_some, h'.bytes w hw _ (by omega) (by omega)]
    · rw [if_neg hin, if_neg fun hin' => hin ⟨?_, hin'.2⟩]
      exact (List.mem_cons.mp hin'.1).resolve_left hct

end Copied

/-- One step keeps the frames private, and is the same step on independent memories. -/
theorem MemoryStep.private {c : MemoryCall} {s s' : MemoryState} (hs : MemoryStep c s s')
    (h : FramesPrivate s) :
    FramesPrivate s' ∧ PrivateStep c (userMemories s) (userMemories s') := by
  obtain ⟨hn, σ, h⟩ := h
  cases hs with
  | @getKernelPdClone k ds rv d g hr =>
    obtain ⟨hnew, h'⟩ := h.clone hr
    refine ⟨⟨List.nodup_cons.mpr ⟨hnew, hn⟩, _, h'⟩, ?_⟩
    rw [userMemories_eq h, userMemories_eq h', memoriesOf_clone]
    exact .getKernelPdClone hnew
  | @mapMemory k k₁ k' ds rv n size virt d a hd hu h0 hres hr =>
    obtain ⟨a', k₂, hres', hnew, h', hk'⟩ := h.mapMemory hd hu h0 hr
    rw [hres] at hres'
    injection hres' with hres'
    rw [Prod.mk.injEq] at hres'
    obtain ⟨rfl, rfl⟩ := hres'
    refine ⟨⟨hn, _, h'⟩, ?_⟩
    have hram : k'.ram = k.ram := by
      rw [hk']
      exact hnew.ram
    rw [userMemories_eq h, userMemories_eq h', memoriesOf_set hd hu, hram]
    exact .mapMemory (fun i => k.ram (a + i / 4096 * 4096 + i % 4096)) hd
  | @mapMemoryIfNotMapped k k₁ k' ds rv n size virt d a hd hu h0 hres hr =>
    obtain ⟨a', k₂, hres', hnew, h', hk'⟩ := h.mapMemoryIfNotMapped hd hu h0 hr
    rw [hres] at hres'
    injection hres' with hres'
    rw [Prod.mk.injEq] at hres'
    obtain ⟨rfl, rfl⟩ := hres'
    refine ⟨⟨hn, _, h'⟩, ?_⟩
    have hram : k'.ram = k.ram := by
      rw [hk']
      exact hnew.ram
    rw [userMemories_eq h, userMemories_eq h', memoriesOf_fill hd hu, hram]
    exact .mapMemoryIfNotMapped (fun i => k.ram (a + i / 4096 * 4096 + i % 4096)) hd
  | @unmapMemoryIfMapped k ds rv size virt d g hd hu hr =>
    have h' := h.unset ((SpaceStep.unmapMemoryIfMapped hd hu hr).represents h.spaces) rfl rfl
    refine ⟨⟨hn, _, h'⟩, ?_⟩
    rw [userMemories_eq h, userMemories_eq h', memoriesOf_set hd hu]
    exact .unmapMemoryIfMapped hd
  | @freeSegment k k' ds rv size virt d n hd hu hmem hle hr =>
    obtain ⟨h', hram⟩ := h.freeSegment hd hu hmem hle hr
    refine ⟨⟨hn, _, h'⟩, ?_⟩
    rw [userMemories_eq h, userMemories_eq h', memoriesOf_set hd hu, hram]
    exact .freeSegment hd
  | @copyAdressSpace k k' ds rv fuel pd tr hpd hr hend =>
    obtain ⟨hnew, g, σ', rv', hcopy⟩ := h.copyAdressSpace hpd hr hend
    obtain ⟨rs, hi⟩ := h.blocks
    have h' := hcopy.relist hi.nodup
    refine ⟨⟨List.nodup_cons.mpr ⟨hnew, hn⟩, _, h'⟩, ?_⟩
    rw [userMemories_eq h, userMemories_eq h', hcopy.memoriesOf_eq h hpd hnew]
    exact .copyAdressSpace hpd hnew
  | @ptFree k ds rv d hd =>
    have h' := h.ptFree hn hd
    refine ⟨⟨hn.erase d, _, h'⟩, ?_⟩
    rw [userMemories_eq h, userMemories_eq h', memoriesOf_erase hn]
    exact .ptFree hd
  | @store k ds rv virt a b hd hv ha =>
    have h' : PrivateFrames { k with ram := Function.update k.ram a b } ds σ rv :=
      h.congr h.sound rfl (d := k.paging.currentPageDirectory) rfl
        fun rs hi r hr => hi.phys.live r (by simpa using hr)
    refine ⟨⟨hn, _, h'⟩, ?_⟩
    rw [userMemories_eq h, userMemories_eq h', h.memoriesOf_store hd hv ha]
    refine .store hd ?_
    rw [memoriesOf_apply hd hv]
    rw [h.spaces.translate_eq hd hv, Option.map_eq_some_iff] at ha
    obtain ⟨f, hf, -⟩ := ha
    rw [hf]
    rfl
  | @pdSwitch k ds rv d =>
    have h' := h.switchTo d
    refine ⟨⟨hn, _, h'⟩, ?_⟩
    rw [userMemories_eq h, userMemories_eq h']
    exact .pdSwitch
  | @other k k' ds rv hstep hg hp hram hl =>
    have h' : PrivateFrames k' ds σ rv := by
      obtain ⟨bs, hheap⟩ := h.sound
      exact h.congr (hstep.inv hheap) hp (d := k.paging.currentPageDirectory) (by rw [hg]; rfl)
        fun rs hi r hr => hl _ _ (by simpa using hi.phys.listing) r hr
    refine ⟨⟨hn, _, h'⟩, ?_⟩
    rw [userMemories_eq h, userMemories_eq h', hram]
    exact .other

end Invariant

/-! ## Whole runs -/

theorem InitialList.privateFrames {k₀ : Kernel} {rs₀ : List PRegion} (h₀ : InitialList k₀ rs₀) :
    PrivateFrames k₀ [] (fun _ _ => none) [] := by
  refine ⟨⟨h₀.heap.inv, ⟨by simp, ?_⟩, by simp, by simp⟩, ⟨rs₀, h₀.runInv _⟩, by simp, by simp⟩
  refine ⟨?_, ?_, ?_, ?_⟩ <;> simp [userEntry]

theorem MemoryRun.private {k₀ : Kernel} {rs₀ : List PRegion} (h₀ : InitialList k₀ rs₀)
    {s : MemoryState} (hrun : MemoryRun k₀ s) :
    FramesPrivate s ∧ Relation.ReflTransGen (fun m m' => ∃ c, PrivateStep c m m')
      (userMemories (k₀, [], [])) (userMemories s) := by
  induction hrun with
  | refl => exact ⟨⟨List.nodup_nil, _, h₀.privateFrames⟩, .refl⟩
  | tail _ hstep ih =>
    obtain ⟨c, hc⟩ := hstep
    obtain ⟨hpriv, hstep'⟩ := hc.private ih.1
    exact ⟨hpriv, ih.2.tail ⟨c, hstep'⟩⟩

/-- In every run, a byte of physical memory is user memory at one address of one process at most,
and lies in a block that is reserved; and the run is one of independent memories, which start
empty. -/
theorem userMemory_private {k₀ k : Kernel} {rs₀ : List PRegion} {ds : List ℕ} {rv : List (ℕ × ℕ)}
    (h₀ : InitialList k₀ rs₀) (hrun : MemoryRun k₀ (k, ds, rv)) :
    (∀ d ∈ ds, ∀ e ∈ ds, ∀ v < kernelVirtualBase, ∀ w < kernelVirtualBase, ∀ a,
      k.paging.translate v d = some a → k.paging.translate w e = some a → d = e ∧ v = w) ∧
    (∀ d ∈ ds, ∀ v < kernelVirtualBase, ∀ a, k.paging.translate v d = some a →
      ∃ b ∈ rv, b.1 ≤ a ∧ a < b.1 + b.2) ∧
    Relation.ReflTransGen (fun m m' => ∃ c, PrivateStep c m m') ([], fun _ _ => none)
      (userMemories (k, ds, rv)) := by
  obtain ⟨⟨-, σ, h⟩, hmem⟩ := hrun.private h₀
  refine ⟨fun d hd e he v hv w hw a hva hwa => h.byte_unique hd he hv hw hva hwa,
    fun d hd v hv a ha => ?_, ?_⟩
  · rw [h.spaces.translate_eq hd hv, Option.map_eq_some_iff] at ha
    obtain ⟨f, hf, rfl⟩ := ha
    obtain ⟨b, hb, hlo, hhi⟩ := h.owned d hd _ f hf
    have hlt := Nat.mod_lt v (show 4096 > 0 by norm_num)
    exact ⟨b, hb, by omega, by omega⟩
  · have hstart : userMemories (k₀, [], []) = ([], fun _ _ => none) := by
      refine Prod.ext rfl (funext fun d => funext fun v => ?_)
      simp [userMemories]
    rwa [hstart] at hmem

/-! ## Copies -/

/-- How many pages of user memory a directory maps. -/
def mappedPages (k : Kernel) (d : ℕ) : ℕ := pagesFrom (fun p => k.paging.translate (p * 4096) d) 0

/-- The directory `tr` is a copy of `pd` in frames of its own, and all others are as before. -/
structure CopyOf (pd tr : ℕ) (k k' : Kernel) (ds : List ℕ) (rv : List (ℕ × ℕ)) : Prop where
  new : tr ∉ ds
  bytes : ∀ v < kernelVirtualBase, k'.userByte tr v = k.userByte pd v
  apart : ∀ v < kernelVirtualBase, ∀ a, k'.paging.translate v tr = some a →
    ∀ b ∈ rv, a < b.1 ∨ b.1 + b.2 ≤ a
  others : ∀ d ∈ ds, ∀ v < kernelVirtualBase,
    k'.paging.translate v d = k.paging.translate v d ∧ k'.userByte d v = k.userByte d v
  current : k'.paging.currentPageDirectory = k.paging.currentPageDirectory

section Copies
variable {k k' : Kernel} {ds : List ℕ} {σ : Translations} {rv : List (ℕ × ℕ)} {d pd tr fuel : ℕ}

theorem PrivateFrames.userByte_eq (h : PrivateFrames k ds σ rv) (hd : d ∈ ds) {v : ℕ}
    (hv : v < kernelVirtualBase) : k.userByte d v = memoriesOf ds σ k.ram d v := by
  rw [memoriesOf_apply hd hv, Kernel.userByte, h.spaces.translate_eq hd hv, Option.map_map]
  rfl

theorem PrivateFrames.mappedPages_eq (h : PrivateFrames k ds σ rv) (hd : d ∈ ds) :
    mappedPages k d = pagesFrom (σ d) 0 := by
  unfold mappedPages pagesFrom
  congr 1
  refine Finset.filter_congr fun p hp => ?_
  have hlt : p * 4096 < kernelVirtualBase := by
    have := (Finset.mem_Ico.mp hp).2
    unfold userPages at this
    unfold kernelVirtualBase
    omega
  dsimp only
  rw [h.spaces.translate_eq hd hlt, Option.isSome_map, Nat.mul_div_cancel _ (by norm_num)]

theorem PrivateFrames.copyOf (h : PrivateFrames k ds σ rv) (hpd : pd ∈ ds)
    (hr : VkKernel.copyAdressSpace fuel pd k = .ok (tr, k'))
    (hend : k'.heap.baseEnd = k.heap.baseEnd) : CopyOf pd tr k k' ds rv := by
  obtain ⟨hnew, g, σ', rv', h'⟩ := h.copyAdressSpace hpd hr hend
  have hmem := h'.memoriesOf_eq h hpd hnew
  refine ⟨hnew, fun v hv => ?_, fun v hv a ha b hb => ?_, fun c hc v hv => ?_, h'.current⟩
  · rw [h'.frames.userByte_eq List.mem_cons_self hv, h.userByte_eq hpd hv, hmem,
      Function.update_self]
  · rw [h'.frames.spaces.translate_eq List.mem_cons_self hv, Option.map_eq_some_iff] at ha
    obtain ⟨f, hf, rfl⟩ := ha
    have := h'.fresh _ f hf b hb
    have := Nat.mod_lt v (show 4096 > 0 by norm_num)
    omega
  · have hct : c ≠ tr := fun heq => hnew (heq ▸ hc)
    have hc' := List.mem_cons_of_mem tr hc
    constructor
    · rw [h'.frames.spaces.translate_eq hc' hv, h.spaces.translate_eq hc hv, h'.others c hct,
        Function.update_of_ne hct]
    · rw [h'.frames.userByte_eq hc' hv, h.userByte_eq hc hv, hmem, Function.update_of_ne hct]

end Copies

theorem enoughFor_oneBlockKernel {n : ℕ} (hn : n ≤ 900) : EnoughFor n oneBlockKernel := by
  refine ⟨⟨[freeRegion], initialList_oneBlockKernel.listing, ⟨freeRegion, by simp, ?_⟩, ?_⟩,
    room_oneBlockKernel.mono (by omega), ?_⟩
  · rw [available_iff]
    exact ⟨by decide, rfl, by unfold freeRegion; dsimp only; omega⟩
  · simp [freeRegion]
  · have hfree : freeSlots oneBlockKernel.paging = 1024 := by
      simp [freeSlots, oneBlockKernel, installedKernel]
    omega

/-- A process with one page. -/
theorem exists_onePage : ∃ k d rv, MemoryRun oneBlockKernel (k, [d], rv) ∧
    k.paging.translate 0x8048123 d ≠ none ∧ mappedPages k d = 1 ∧ EnoughFor 1 k ∧
    1 < freeSlots k.paging := by
  obtain ⟨g, hclone, hblocks⟩ := getKernelPdClone_first (g := oneBlockKernel.paging) rfl
  let d := slotAddr 0
  let k₁ : Kernel := { oneBlockKernel with paging := g }
  obtain ⟨-, h₁⟩ := initialList_oneBlockKernel.privateFrames.clone hclone
  have hcount := freeSlots_update (by norm_num) rfl hblocks
  obtain ⟨-, -, hslots⟩ := enoughFor_oneBlockKernel (n := 900) le_rfl
  have he₁ : EnoughFor (2 + 1) k₁ := by
    obtain ⟨hfree, hheap, -⟩ := enoughFor_oneBlockKernel (n := 2 + 1) (by norm_num)
    refine ⟨hfree, hheap, ?_⟩
    change 3 ≤ freeSlots g
    omega
  -- the page
  have hp : 0x8048 < userPages := by decide
  obtain ⟨k₂, hmap, hroom, hfree₂, hslots₂⟩ := h₁.mapMemory_returns List.mem_cons_self hp
    (by rw [Function.update_self]) he₁
  obtain ⟨a, k₀, hres, -, h₂, -⟩ := h₁.mapMemory List.mem_cons_self (userRange_page hp)
    (by norm_num) (hmap 0)
  have hrun : MemoryRun oneBlockKernel (k₂, [d], [(a, alignup 4096 4096)]) :=
    (Relation.ReflTransGen.single ⟨_, .getKernelPdClone hclone⟩).tail
      ⟨_, .mapMemory List.mem_cons_self (userRange_page hp) (by norm_num) hres (hmap 0)⟩
  rw [Translations.set_page, Nat.zero_mul, Nat.add_zero] at h₂
  have he₂ : EnoughFor 2 k₂ := ⟨hfree₂, hroom.mono (by norm_num), hslots₂⟩
  refine ⟨k₂, d, _, hrun, ?_, ?_, he₂.mono (by norm_num), hslots₂⟩
  · rw [h₂.spaces.translate_eq List.mem_cons_self (by decide), Function.update_self]
    simp
  · rw [h₂.mappedPages_eq List.mem_cons_self, Function.update_self, pagesFrom, Finset.card_eq_one]
    refine ⟨0x8048, ?_⟩
    ext q
    simp only [Finset.mem_filter, Finset.mem_Ico, Finset.mem_singleton, Function.update_apply]
    constructor
    · rintro ⟨-, hq⟩
      by_contra hne
      simp [hne] at hq
    · rintro rfl
      exact ⟨⟨Nat.zero_le _, hp⟩, by rw [if_pos rfl]; rfl⟩

/-- The page and its copy are at the same address in different frames. -/
theorem userMemory_private_onePage : ∃ k d tr rv a b, MemoryRun oneBlockKernel (k, [tr, d], rv) ∧
    k.paging.translate 0x8048123 d = some a ∧ k.paging.translate 0x8048123 tr = some b ∧ a ≠ b := by
  obtain ⟨k, d, rv, hrun, hmap, hcount, he, hslots⟩ := exists_onePage
  obtain ⟨⟨-, σ, h⟩, -⟩ := hrun.private initialList_oneBlockKernel
  have hd : d ∈ [d] := List.mem_cons_self
  have hcount' := (h.mappedPages_eq hd).symm.trans hcount
  obtain ⟨tr, k', hr, hend⟩ := h.copyAdressSpace_returns hd (by rw [hcount']; exact he)
    (by rw [hcount']; exact hslots) 0
  have hcopy := h.copyOf hd hr hend
  have hrun' := Relation.ReflTransGen.tail hrun ⟨_, .copyAdressSpace hd hr hend⟩
  obtain ⟨hunique, -⟩ := userMemory_private initialList_oneBlockKernel hrun'
  -- both are mapped
  obtain ⟨a, ha⟩ := Option.ne_none_iff_exists'.mp hmap
  have hlt : 0x8048123 < kernelVirtualBase := by decide
  have ha' := ((hcopy.others d hd _ hlt).1).trans ha
  have hbyte := hcopy.bytes _ hlt
  rw [Kernel.userByte, Kernel.userByte, ha, Option.map_some, Option.map_eq_some_iff] at hbyte
  obtain ⟨b, hb, -⟩ := hbyte
  refine ⟨k', d, tr, _, a, b, hrun', ha', hb, ?_⟩
  rintro rfl
  have hsame := (hunique d (List.mem_cons_of_mem _ hd) tr List.mem_cons_self _ hlt _ hlt a ha' hb).1
  exact hcopy.new (hsame ▸ hd)

end VkKernel
