import VkKernel.DirectoryRuns
import VkKernel.UserMemory

/-!
# Stores into user memory

What the kernel does to the memories of the processes between two calls: it allocates and frees
blocks of the heap, takes pages for a range that need not be aligned, and stores bytes behind the
current directory. Each of these goes on with the run, and says which bytes of which memory change.
-/

namespace VkKernel
open ByteMemory BlockLayout RegionList LinkedList Outcome IntervalUpdate

/-- The bytes `b 0`, `b 1`, … at `dst` in user memory. -/
def storeBytes (dst : ℕ) (b : ℕ → UInt8) : ℕ → Kernel → Result Kernel
  | 0, k => .ok k
  | n + 1, k => do
    let k ← storeBytes dst b n k
    match k.paging.translate (dst + n) k.paging.currentPageDirectory with
    | none => fatalKernelError "Page fault" "Unknown"
    | some a => .ok { k with ram := Function.update k.ram a (b n) }

/-- `memset` of `n` bytes of user memory. -/
def memsetUser (dst : ℕ) (c : UInt8) (n : ℕ) (k : Kernel) : Result Kernel :=
  storeBytes dst (fun _ => c) n k

section Stores
variable {k k' : Kernel} {dst n : ℕ} {b : ℕ → UInt8}

theorem storeBytes_frame (hr : storeBytes dst b n k = .ok k') : k' = { k with ram := k'.ram } := by
  induction n generalizing k' with
  | zero =>
    cases hr
    rfl
  | succ n ih =>
    obtain ⟨k₁, hk₁, hr⟩ := bind_eq_ok.mp hr
    split at hr
    · cases hr
    · injection hr with hr
      rw [← hr, ih hk₁]

theorem storeBytes_returns
    (h : ∀ i < n, (k.paging.translate (dst + i) k.paging.currentPageDirectory).isSome) :
    ∃ k', storeBytes dst b n k = .ok k' := by
  induction n with
  | zero => exact ⟨k, rfl⟩
  | succ n ih =>
    obtain ⟨k₁, hk₁⟩ := ih fun i hi => h i (by omega)
    have hg : k₁.paging = k.paging := by rw [storeBytes_frame hk₁]
    obtain ⟨a, ha⟩ := Option.isSome_iff_exists.mp (h n (by omega))
    rw [← hg] at ha
    rw [storeBytes, hk₁, ok_bind, ha]
    exact ⟨_, rfl⟩

theorem memcpyToUser_eq_storeBytes (dst src n : ℕ) (k : Kernel) :
    memcpyToUser dst src n k = storeBytes dst (fun i => k.heap.mem (src + i)) n k := by
  induction n with
  | zero => rfl
  | succ n ih =>
    rw [memcpyToUser, storeBytes, ih]
    cases hk₁ : storeBytes dst (fun i => k.heap.mem (src + i)) n k with
    | error e => rfl
    | ok k₁ =>
      have hbyte : k₁.heap.mem (src + n) = k.heap.mem (src + n) := by rw [storeBytes_frame hk₁]
      rw [ok_bind, ok_bind]
      cases k₁.paging.translate (dst + n) k₁.paging.currentPageDirectory with
      | none => rfl
      | some a =>
        exact congrArg (fun c => Except.ok { k₁ with ram := Function.update k₁.ram a c }) hbyte

end Stores

/-! ## Ranges that are not aligned -/

/-- The range that is mapped is a range of pages. -/
theorem rangeSize_align (size virt : ℕ) : aligndown (aligndown virt 4096) 4096 = aligndown virt 4096 ∧
    rangeSize (rangeSize size virt) (aligndown virt 4096) = rangeSize size virt := by
  have hvirt : aligndown (aligndown virt 4096) 4096 = aligndown virt 4096 := by
    unfold aligndown
    omega
  obtain ⟨hmod, hlt⟩ := rangeSize_page size virt
  refine ⟨hvirt, ?_⟩
  rw [rangeSize, hvirt, Nat.sub_self, Nat.add_zero, u32_of_lt hlt,
    alignup_of_dvd (Nat.dvd_of_mod_eq_zero hmod)]

theorem mapMemory_align (a : Alloc) (size virt pd : ℕ) (k : Kernel) :
    mapMemory a size virt pd k = mapMemory a (rangeSize size virt) (aligndown virt 4096) pd k := by
  obtain ⟨hvirt, hsize⟩ := rangeSize_align size virt
  unfold mapMemory
  rw [hvirt, hsize]

theorem mapMemoryIfNotMapped_align (a : Alloc) (size virt pd : ℕ) (k : Kernel) :
    mapMemoryIfNotMapped a size virt pd k =
      mapMemoryIfNotMapped a (rangeSize size virt) (aligndown virt 4096) pd k := by
  obtain ⟨hvirt, hsize⟩ := rangeSize_align size virt
  unfold mapMemoryIfNotMapped
  rw [hvirt, hsize]

/-- The address lies in one of the pages that `map_memory` maps. -/
def InRange (size virt v : ℕ) : Prop :=
  aligndown virt 4096 ≤ v ∧ v < aligndown virt 4096 + rangeSize size virt

/-- The pages of a range of user memory. -/
theorem userRange_segment {size virt : ℕ} (hpos : 0 < size) (h : virt + size ≤ 0xC0000000)
    (hsmall : rangeSize size virt ≤ 0x400000) :
    UserRange (rangeSize size virt) (aligndown virt 4096) ∧ 0 < rangeSize size virt ∧
      (∀ x < size, InRange size virt (virt + x)) ∧
      ∀ v, InRange size virt v → v < kernelVirtualBase := by
  have hmod := Nat.mod_lt virt (show 0 < 4096 by norm_num)
  have hdown : aligndown virt 4096 = virt - virt % 4096 := rfl
  have hle := Nat.mod_le virt 4096
  have hround : alignup (rangeSize size virt) 4096 = rangeSize size virt :=
    alignup_of_dvd (Nat.dvd_of_mod_eq_zero (rangeSize_page size virt).1)
  have hsum : size + (virt - aligndown virt 4096) = size + virt % 4096 := by omega
  have hsize : rangeSize size virt = (size + virt % 4096 + 4096 - 1) / 4096 * 4096 := by
    rw [rangeSize, hsum, u32_of_lt (by omega), alignup_eq (by norm_num) (by omega)]
  unfold InRange kernelVirtualBase
  refine ⟨⟨?_, hsmall, ?_⟩, ?_, fun x hx => ?_, fun v hv => ?_⟩
  · omega
  · rw [hround]
    unfold kernelVirtualBase
    omega
  · omega
  · omega
  · omega

section Ranges
variable {k k' : Kernel} {ds : List ℕ} {σ : Translations} {rv : List (ℕ × ℕ)} {d n size virt : ℕ}

/-- The pages that `map_memory` maps were not mapped. -/
theorem mapMemory_unmapped (h : PrivateFrames k ds σ rv) (hd : d ∈ ds) (hu : UserRange size virt)
    (hr : mapMemory (kmalloc n) size virt d k = .ok k') {p : ℕ} (hp : virt / 4096 ≤ p)
    (hp' : p < virt / 4096 + pageCount size) : σ d p = none := by
  obtain ⟨⟨a, k₁⟩, hres, hr⟩ := bind_eq_ok.mp hr
  obtain ⟨bs, hheap⟩ := h.sound
  have hg := (hheap.reserveBlock_paging hres).1
  obtain ⟨g, hloop, -⟩ := bind_eq_ok.mp hr
  rw [hu.rangeSize_eq, hu.aligndown_eq, hu.forRange_eq, hg] at hloop
  -- after `m` pages, these were free and the others are as before
  let P : ℕ → Paging → Prop := fun m g₁ => Spaces False (fun _ => False) ds g₁ ∧
    (∀ x < userPages, x < virt / 4096 ∨ virt / 4096 + m ≤ x → g₁.pageEntry d x = k.paging.pageEntry d x) ∧
    ∀ i < m, k.paging.pageEntry d (virt / 4096 + i) = 0
  have hrule : Holds (stepLoop 4096 (fun add => mapPage (u32 (a + add)) (u32 (virt + add)) d)
      (pageCount size) 0 k.paging) (P (pageCount size)) fun _ => True := by
    refine stepLoop_rule P (fun i hi g₁ h₁ => ?_) ⟨h.spaces.spaces, fun _ _ _ => rfl, by simp⟩
    obtain ⟨hs, hsame, hfree⟩ := h₁
    obtain ⟨hlt, hv⟩ := hu.lt hi
    have hpage : (virt + i * 4096) / 4096 = virt / 4096 + i := by
      have := hu.aligned
      omega
    rw [Nat.zero_add, hv]
    cases hmap : mapPage (u32 (a + i * 4096)) (virt + i * 4096) d g₁ with
    | error e => trivial
    | ok g₂ =>
      obtain ⟨-, hs₂, -, hset⟩ := hs.mapPage hd hlt hmap
      have hzero : g₁.pageEntry d (virt / 4096 + i) = 0 := by
        by_contra hne
        have hmapped : isMapped (virt + i * 4096) d g₁ = true := by
          rw [hs.isMapped_eq hd hlt, hpage]
          exact decide_eq_true hne
        exact mapPage_of_isMapped hmapped ⟨g₂, hmap⟩
      have hlast : virt / 4096 + i < userPages := by
        rw [← hpage]
        exact page_lt hlt
      refine ⟨hs₂, fun x hx hout => ?_, fun j hj => ?_⟩
      · rw [hset d hd x hx, if_pos rfl, hpage, overwrite_of_notMem (by omega)]
        exact hsame x hx (by omega)
      · rcases Nat.lt_succ_iff_lt_or_eq.mp hj with hj | rfl
        · exact hfree j hj
        · rw [← hsame _ hlast (by omega)]
          exact hzero
  obtain ⟨-, -, hzero⟩ := hrule.of_ok hloop
  have hin := hzero (p - virt / 4096) (by omega)
  rw [Nat.add_sub_cancel' hp] at hin
  have hlt : p < userPages := by
    have := hu.below
    have := hu.alignup_eq.1
    unfold kernelVirtualBase at *
    unfold userPages
    omega
  rw [h.spaces.entries d hd p hlt] at hin
  by_contra hsome
  exact (entryOf_ne_zero_iff (pageFlags_pos _ _) _).mpr (Option.isSome_iff_ne_none.mpr hsome) hin

end Ranges

/-! ## Blocks of the heap -/

/-- A block of the heap that is no node of the list of physical blocks. -/
structure ClientBlock (k : Kernel) (p : ℕ) : Prop where
  live : p ∈ k.heap.live
  notNode : ∀ rs, Listing noStale k.phys rs → ∀ r ∈ rs, r.key ≠ p

section Blocks
variable {k k' : Kernel} {ds : List ℕ} {σ : Translations} {rv : List (ℕ × ℕ)} {n p q : ℕ}

theorem ClientBlock.congr (hc : ClientBlock k p) (hh : k'.heap = k.heap) (hp : k'.phys = k.phys) :
    ClientBlock k' p := by
  refine ⟨hh ▸ hc.live, ?_⟩
  rw [hp]
  exact hc.notNode

theorem ClientBlock.mapMemory (hc : ClientBlock k p) (h : PrivateFrames k ds σ rv)
    {size virt d : ℕ} (hr : mapMemory (kmalloc n) size virt d k = .ok k') :
    ClientBlock k' p ∧ KeepsAt k.heap k'.heap p := by
  obtain ⟨⟨a, k₁⟩, hres, hr⟩ := bind_eq_ok.mp hr
  obtain ⟨g, -, hr⟩ := bind_eq_ok.mp hr
  cases hr
  obtain ⟨rs, hi⟩ := h.blocks
  obtain ⟨xs, r, ys, node, rfl, -, -, hi', -, hkept, hlive, -⟩ := hi.phys.reserveBlock_spec hres
  obtain ⟨hp, hkeeps⟩ := hkept.keeps p hc.live
  have hnode : node ≠ p := by
    rintro rfl
    obtain ⟨bs, hheap⟩ := hkept.inv
    have hnodup := hheap.nodup
    rw [hlive] at hnodup
    exact (List.nodup_cons.mp hnodup).1 hc.live
  have hold := hc.notNode (xs ++ r :: ys) (by simpa using hi.phys.listing)
  refine ⟨⟨hp, fun rs' hl s hs => ?_⟩, hkeeps⟩
  have hl' := hi'.listing
  rw [List.append_nil] at hl'
  rw [hl.unique hl'] at hs
  simp only [List.mem_append, List.mem_cons] at hs
  rcases hs with hs | rfl | rfl | hs
  · exact hold s (by simp [hs])
  · exact hold r (by simp)
  · exact hnode
  · exact hold s (by simp [hs])

end Blocks

/-! ## The end of the heap -/

section Merge
variable {h h' : Heap} {n p : ℕ}

theorem mergeInto_baseEnd {current next : ℕ} {returned : Bool}
    (hr : mergeInto current n next h = .ok (returned, h')) : h'.baseEnd = h.baseEnd := by
  induction n generalizing next h with
  | zero => cases hr
  | succ n ih =>
    rw [mergeInto] at hr
    dsimp only at hr
    split_ifs at hr
    · cases hr
      rfl
    · cases hr
    · cases hr
      rfl
    · have hend := ih hr
      exact hend
    · cases hr
      rfl

theorem mergeFrom_baseEnd {current : ℕ} (hr : mergeFrom n current h = .ok h') :
    h'.baseEnd = h.baseEnd := by
  induction n generalizing current h with
  | zero => cases hr
  | succ n ih =>
    rw [mergeFrom] at hr
    dsimp only at hr
    split_ifs at hr
    · cases hr
    · exact ih hr
    · cases hr
      rfl
    · obtain ⟨⟨returned, h₁⟩, hinto, hr⟩ := bind_eq_ok.mp hr
      have hend := mergeInto_baseEnd hinto
      dsimp only at hr
      split_ifs at hr
      · cases hr
        exact hend
      · exact (ih hr).trans hend
    · cases hr
      rfl

/-- Freeing leaves the end of the heap in place. -/
theorem Kernel.kfree_baseEnd {k k' : Kernel} (hr : k.kfree p = .ok k') :
    k'.heap.baseEnd = k.heap.baseEnd := by
  obtain ⟨h₁, hfree, hr⟩ := bind_eq_ok.mp hr
  cases hr
  unfold VkKernel.kfree at hfree
  dsimp only at hfree
  split_ifs at hfree
  · cases hfree
  · have hend := mergeFrom_baseEnd hfree
    exact hend

end Merge

/-! ## Steps of a run -/

/-- What an allocation that does not grow the heap does. -/
structure NewClient (n p : ℕ) (k k' : Kernel) : Prop where
  only : k' = { k with heap := k'.heap }
  client : ClientBlock k' p
  enough : n ≤ k'.heap.size (p - 8)
  others : ∀ q, ClientBlock k q → ClientBlock k' q ∧ q ≠ p ∧ KeepsAt k.heap k'.heap q

section Steps
variable {k₀ k k' : Kernel} {rs₀ : List PRegion} {ds : List ℕ} {rv : List (ℕ × ℕ)}
  {n p d : ℕ} (h₀ : InitialList k₀ rs₀) (hrun : MemoryRun k₀ (k, ds, rv))
include h₀ hrun

theorem MemoryRun.frames : ∃ σ, PrivateFrames k ds σ rv := (hrun.private h₀).1.2

/-- Work on the heap that keeps the nodes of the block list. -/
theorem MemoryRun.heapStep (hs : HeapStep k k') (hk' : k' = { k with heap := k'.heap })
    (hl : ∀ rs, Listing noStale k.phys rs → ∀ r ∈ rs, r.key ∈ k.heap.live → r.key ∈ k'.heap.live) :
    MemoryRun k₀ (k', ds, rv) := by
  obtain ⟨σ, h⟩ := hrun.frames h₀
  obtain ⟨rs₁, hi⟩ := h.blocks
  have hlisting : Listing noStale k.phys rs₁ := by simpa using hi.phys.listing
  refine hrun.tail ⟨_, .other hs (by rw [hk']) (by rw [hk']) (by rw [hk']) fun stale rs hrs r hr => ?_⟩
  obtain ⟨q, hq⟩ := hlisting.linked
  have hweak : Listing stale k.phys rs₁ :=
    ⟨⟨q, hq.mono fun x hx => hx.elim⟩, hlisting.nodup, hlisting.data⟩
  rw [hrs.unique hweak] at hr
  exact hl rs₁ hlisting r hr (hi.phys.live r (by simpa using hr))

theorem MemoryRun.kmalloc (hn : n ≤ 0xFFFFFFFC) {fuel : ℕ} (hm : VkKernel.kmalloc fuel n k = .ok (p, k'))
    (hend : k'.heap.baseEnd = k.heap.baseEnd) :
    MemoryRun k₀ (k', ds, rv) ∧ NewClient n p k k' := by
  obtain ⟨σ, h⟩ := hrun.frames h₀
  have hnew := h.sound.kmalloc hn hm
  have hk' := (h.sound.kmalloc_grown hn hm).2 hend
  have hphys : k'.phys = k.phys := by rw [hk']
  obtain ⟨rs₁, hi⟩ := h.blocks
  have hlisting : Listing noStale k.phys rs₁ := by simpa using hi.phys.listing
  refine ⟨hrun.heapStep h₀ (.kmalloc hn hm) hk' fun _ _ r _ hr => (hnew.keeps _ hr).1, hk',
    ⟨hnew.live, fun rs hl r hr => ?_⟩, hnew.enough, fun q hq => ?_⟩
  · rw [hphys] at hl
    rw [hl.unique hlisting] at hr
    rintro rfl
    exact hnew.fresh (hi.phys.live r (by simpa using hr))
  · refine ⟨⟨(hnew.keeps q hq.live).1, ?_⟩, ?_, (hnew.keeps q hq.live).2⟩
    · rw [hphys]
      exact hq.notNode
    · rintro rfl
      exact hnew.fresh hq.live

theorem MemoryRun.kfree_returns (hp : p ∈ k.heap.live) : ∃ k', k.kfree p = .ok k' := by
  obtain ⟨σ, h⟩ := hrun.frames h₀
  obtain ⟨bs, hi⟩ := h.sound
  obtain ⟨h', hfree, -⟩ := hi.kfree_ok hp
  rw [Kernel.kfree, hfree]
  exact ⟨_, rfl⟩

/-- Freeing a block leaves the other ones alone. -/
theorem MemoryRun.kfree (hp : ClientBlock k p) (hr : k.kfree p = .ok k') :
    MemoryRun k₀ (k', ds, rv) ∧ k' = { k with heap := k'.heap } ∧
      k'.heap.baseEnd = k.heap.baseEnd ∧ ∀ q, ClientBlock k q → q ≠ p → ClientBlock k' q := by
  obtain ⟨σ, h⟩ := hrun.frames h₀
  obtain ⟨bs, hi⟩ := h.sound
  obtain ⟨hi', hend, hlive, -, hk'⟩ := (hi.kfree_holds hp.live).of_ok hr
  refine ⟨hrun.heapStep h₀ (.kfree hp.live hr) hk' fun rs hl r hr' hlr => ?_, hk', hend,
    fun q hq hqp => ⟨?_, ?_⟩⟩
  · rw [hlive]
    exact (List.mem_erase_of_ne (hp.notNode rs hl r hr')).mpr hlr
  · rw [hlive]
    exact (List.mem_erase_of_ne hqp).mpr hq.live
  · have hphys : k'.phys = k.phys := by rw [hk']
    rw [hphys]
    exact hq.notNode

/-- Bytes that are stored into a block. -/
theorem MemoryRun.store (hp : p ∈ k.heap.live) (b : ℕ → UInt8) {n : ℕ}
    (hn : n ≤ k.heap.size (p - 8)) :
    MemoryRun k₀ ({ k with heap := { k.heap with mem := overwrite k.heap.mem p n b } }, ds, rv) := by
  obtain ⟨σ, h⟩ := hrun.frames h₀
  induction n with
  | zero => rwa [overwrite_zero]
  | succ n ih =>
    have hstored := h.sound.store hp (m := overwrite k.heap.mem p n b) fun x hx =>
      overwrite_of_notMem (by omega)
    rw [overwrite_succ_eq_update]
    refine MemoryRun.heapStep h₀ (ih (by omega)) (.write hp (Nat.le_add_right _ n) ?_) rfl
      fun _ _ _ _ hr => hr
    dsimp only
    rw [hstored.size]
    omega

/-- `map_memory` takes pages that are not mapped, and leaves all other bytes alone. -/
theorem MemoryRun.mapMemory {size virt fuel : ℕ} (hd : d ∈ ds)
    (hu : UserRange (rangeSize size virt) (aligndown virt 4096)) (hpos : 0 < rangeSize size virt)
    (hr : VkKernel.mapMemory (VkKernel.kmalloc fuel) size virt d k = .ok k') :
    (∃ rv', MemoryRun k₀ (k', ds, rv')) ∧
      (∀ v, InRange size virt v → k.userByte d v = none ∧ (k'.userByte d v).isSome) ∧
      ∀ e ∈ ds, ∀ v < kernelVirtualBase, (e = d → ¬InRange size virt v) →
        k'.userByte e v = k.userByte e v := by
  obtain ⟨σ, h⟩ := hrun.frames h₀
  rw [mapMemory_align] at hr
  obtain ⟨a, k₁, hres, hnew, h', hk'⟩ := h.mapMemory hd hu hpos hr
  have hround : alignup (rangeSize size virt) 4096 = rangeSize size virt :=
    alignup_of_dvd (Nat.dvd_of_mod_eq_zero (rangeSize_page size virt).1)
  have hbelow := hu.below
  have hpages := hu.alignup_eq.1
  have haligned := hu.aligned
  rw [hround] at hbelow hpages
  have hram : k'.ram = k.ram := by
    rw [hk']
    exact hnew.ram
  refine ⟨⟨_, hrun.tail ⟨_, .mapMemory hd hu hpos hres hr⟩⟩, fun v hv => ?_, fun e he v hv hout => ?_⟩
  · obtain ⟨hlo, hhi⟩ := hv
    have hnone := mapMemory_unmapped h hd hu hr (p := v / 4096) (by omega) (by omega)
    rw [h'.userByte_eq hd (by omega), h.userByte_eq hd (by omega), memoriesOf_set hd hu,
      Function.update_self, overwrite_of_mem hlo (by omega), memoriesOf_apply hd (by omega), hnone]
    exact ⟨rfl, rfl⟩
  · rw [h'.userByte_eq he hv, h.userByte_eq he hv, memoriesOf_set hd hu, hram, hround]
    by_cases hed : e = d
    · subst hed
      rw [Function.update_self, overwrite_of_notMem]
      have := hout rfl
      unfold InRange at this
      omega
    · rw [Function.update_of_ne hed]

/-- Bytes that are stored into the memory of the current process. -/
theorem MemoryRun.storeBytes (hd : k.paging.currentPageDirectory = d) (hds : d ∈ ds)
    {dst : ℕ} {b : ℕ → UInt8} (hn : dst + n ≤ kernelVirtualBase)
    (hr : VkKernel.storeBytes dst b n k = .ok k') :
    MemoryRun k₀ (k', ds, rv) ∧ (∀ i < n, k'.userByte d (dst + i) = some (b i)) ∧
      ∀ e ∈ ds, ∀ v < kernelVirtualBase, (e = d → v < dst ∨ dst + n ≤ v) →
        k'.userByte e v = k.userByte e v := by
  subst hd
  induction n generalizing k' with
  | zero =>
    cases hr
    exact ⟨hrun, by simp, fun _ _ _ _ _ => rfl⟩
  | succ n ih =>
    obtain ⟨k₁, hk₁, hr⟩ := bind_eq_ok.mp hr
    obtain ⟨hrun₁, hbytes, hrest⟩ := ih (by omega) hk₁
    have hcur : k₁.paging.currentPageDirectory = k.paging.currentPageDirectory := by
      rw [storeBytes_frame hk₁]
    have hlt : dst + n < kernelVirtualBase := by omega
    split at hr
    · cases hr
    · rename_i a ha
      injection hr with hr
      obtain ⟨σ, h₁⟩ := hrun₁.frames h₀
      have hrun' : MemoryRun k₀ (k', ds, rv) := by
        rw [← hr]
        exact hrun₁.tail ⟨_, .store (hcur ▸ hds) hlt ha⟩
      rw [hcur] at ha
      have hnew : ∀ e ∈ ds, ∀ v < kernelVirtualBase, k'.userByte e v =
          if e = k.paging.currentPageDirectory ∧ v = dst + n then some (b n) else k₁.userByte e v := by
        intro e he v hv
        have hstore := h₁.memoriesOf_store hds hlt ha (b n)
        have hs : k'.userByte e v = memoriesOf ds σ (Function.update k₁.ram a (b n)) e v := by
          rw [memoriesOf_apply he hv, Kernel.userByte, ← hr, h₁.spaces.translate_eq he hv, Option.map_map]
          rfl
        rw [hs, hstore, h₁.userByte_eq he hv]
        by_cases hed : e = k.paging.currentPageDirectory
        · subst hed
          rw [Function.update_self, Function.update_apply]
          simp
        · rw [Function.update_of_ne hed, if_neg fun hc => hed hc.1]
      refine ⟨hrun', fun i hi => ?_, fun e he v hv hout => ?_⟩
      · rw [hnew _ hds _ (by omega)]
        rcases Nat.lt_succ_iff_lt_or_eq.mp hi with hi | rfl
        · rw [if_neg (by omega)]
          exact hbytes i hi
        · rw [if_pos ⟨rfl, rfl⟩]
      · rw [hnew e he v hv, if_neg, hrest e he v hv fun heq => by have := hout heq; omega]
        rintro ⟨heq, rfl⟩
        have := hout heq
        omega

end Steps

end VkKernel
