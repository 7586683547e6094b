import VkKernel.Krealloc

/-!
# Calls of `kmalloc` that do not return

To grow the heap, `kheap_expand` reserves physical memory for every page directory, and each
reservation allocates a `p_block_t`. If the heap has no room for it, this allocation grows the
heap in turn, from the same state: it searches the same physical block, and asks for the same
`p_block_t` again.
-/

namespace VkKernel
open BlockLayout Outcome

/-- The scan of `kmalloc`. An allocation that would grow the heap does not return. -/
def scanHeap : Alloc := fun size k => do
  match ← kmallocScan k.heap (alignup size 4) loopFuel kheapBaseStart with
  | some (p, h) => .ok (p, { k with heap := h })
  | none => .error .outOfFuel

/-- The page directories that `kheap_expand` maps new memory in. -/
def expandDirectories (k : Kernel) : List ℕ :=
  k.paging.kernelPageDirectory :: (k.processes.drop 1).filterMap (·.map Process.pageDirectory)

/-- The mappings of `kheap_expand`, one after the other. -/
def mapHeapEnd (a : Alloc) : List ℕ → Kernel → Result Kernel
  | [], k => .ok k
  | pd :: pds, k => mapMemory a 0x400000 k.heap.baseEnd pd k >>= mapHeapEnd a pds

/-- The search of `reserve_block` for memory at the end of the heap. -/
def searchBlock (k : Kernel) : Result (Option ℕ) :=
  k.phys.walk (PBlock.available (alignup (rangeSize 0x400000 k.heap.baseEnd) 4096)) loopFuel
    k.phys.firstBlock

/-- The search finds a physical block, and the heap has no room for a `p_block_t`; or the search
itself does not end, since the list of blocks does not. -/
def Starved (k : Kernel) : Prop :=
  match searchBlock k with
  | .ok none => False
  | .ok (some _) => k.heap.NoRoom sizeofPBlock
  | .error _ => True

/-- `kheap_expand` comes to a reservation that is starved. -/
def ExpandStarves (k : Kernel) : Prop :=
  k.heap.baseEnd < freeKvmStart ∧ ∃ i < (expandDirectories k).length, ∃ k',
    mapHeapEnd scanHeap ((expandDirectories k).take i) k = .ok k' ∧ Starved k'

/-- While no block has `n` bytes, the heap grows, and one of these growths starves. -/
inductive GrowthStarves (n : ℕ) : Kernel → Prop
  | now {k : Kernel} : k.heap.NoRoom n → ExpandStarves k → GrowthStarves n k
  | later {k k' : Kernel} : k.heap.NoRoom n → kheapExpand scanHeap k = .ok k' → GrowthStarves n k' →
      GrowthStarves n k

/-! ## Reservations -/

theorem walk_error {m : PhysMem} {test : PBlock → Bool} {fuel curr : ℕ} {e : Stop}
    (h : m.walk test fuel curr = .error e) : e = .outOfFuel := by
  induction fuel generalizing curr with
  | zero =>
    injection h with h
    exact h.symm
  | succ fuel ih =>
    rw [PhysMem.walk] at h
    split_ifs at h
    exact ih h

theorem HeapInv.noRoom_iff {h : Heap} {bs : List Block} (hi : HeapInv h bs) {n : ℕ} :
    h.NoRoom n ↔ bs.find? (Block.fits n) = none := by
  constructor
  · intro hno
    rw [List.find?_eq_none]
    intro b hb hfit
    obtain ⟨hu, hle⟩ := Block.fits_iff.mp hfit
    have hlt := hno (b.addr, b.size, 0) (by
      rw [hi.blocks_eq, List.mem_map]
      exact ⟨b, hb, by rw [hu]; rfl⟩) rfl
    exact absurd hlt (not_lt.mpr hle)
  · exact hi.noRoom

theorem scanHeap_eq {size : ℕ} {k : Kernel} {bs : List Block} (hi : HeapInv k.heap bs) :
    scanHeap size k = match bs.find? (Block.fits (alignup size 4)) with
      | some b => .ok (b.addr + 8, { k with heap := takeBlock k.heap b.addr (alignup size 4) })
      | none => .error .outOfFuel := by
  unfold scanHeap
  rw [kmallocScan_eq hi.tiles hi.headers hi.length_lt hi.end_lt]
  cases bs.find? (Block.fits (alignup size 4)) with
  | some b => rfl
  | none => rfl

theorem alignup_sizeofPBlock : alignup sizeofPBlock 4 = sizeofPBlock := alignup_of_dvd (by decide)

/-- A mapping at the end of the heap: the search, the allocation, and the page tables. -/
theorem mapMemory_eq (a : Alloc) (pd : ℕ) (k : Kernel) :
    mapMemory a 0x400000 k.heap.baseEnd pd k = searchBlock k >>= fun found =>
      match found with
      | none =>
        fatalKernelError "Trying to reserve more physical memory than available" "RESERVE_BLOCK"
      | some curr => a sizeofPBlock k >>= fun r =>
        forRange
          (fun add => mapPageTable (u32 ((r.2.phys.node curr).baseAddr + add))
            (u32 (aligndown k.heap.baseEnd 4096 + add)) pd)
          (fun add => mapPage (u32 ((r.2.phys.node curr).baseAddr + add))
            (u32 (aligndown k.heap.baseEnd 4096 + add)) pd)
          (rangeSize 0x400000 k.heap.baseEnd) (aligndown k.heap.baseEnd 4096) r.2.paging >>= fun g =>
        .ok { r.2 with
          phys := r.2.phys.splitAt curr r.1 (alignup (rangeSize 0x400000 k.heap.baseEnd) 4096)
            (blockTypeFor pd k.paging)
          paging := g } := by
  unfold mapMemory reserveBlock searchBlock
  dsimp only
  rw [bind_assoc]
  congr 1
  funext found
  cases found with
  | none => rfl
  | some curr =>
    dsimp only
    rw [bind_assoc]
    rfl

/-- A reservation that starves asks for the same `p_block_t` for ever. -/
theorem kmalloc_starved {k : Kernel} {bs : List Block} (hi : HeapInv k.heap bs)
    (hlt : k.heap.baseEnd < freeKvmStart) (hs : Starved k) {size : ℕ}
    (hno : k.heap.NoRoom (alignup size 4)) (n : ℕ) : kmalloc n size k = .error .outOfFuel := by
  induction n generalizing size with
  | zero => rfl
  | succ n ih =>
    rw [kmalloc_succ hi, hi.noRoom_iff.mp hno]
    dsimp only
    rw [kheapExpand, if_neg (not_le.mpr hlt), mapMemory_eq]
    unfold Starved at hs
    cases hsearch : searchBlock k with
    | error e =>
      rw [walk_error hsearch]
      rfl
    | ok found =>
      rw [hsearch] at hs
      cases found with
      | none => exact hs.elim
      | some curr =>
        have hagain := ih (alignup_sizeofPBlock.symm ▸ hs)
        rw [ok_bind]
        dsimp only
        rw [hagain]
        rfl

theorem mapMemory_kmalloc {k : Kernel} {bs : List Block} (hi : HeapInv k.heap bs)
    (hlt : k.heap.baseEnd < freeKvmStart) (n pd : ℕ) :
    mapMemory (kmalloc (n + 1)) 0x400000 k.heap.baseEnd pd k =
      mapMemory scanHeap 0x400000 k.heap.baseEnd pd k := by
  rw [mapMemory_eq, mapMemory_eq]
  cases hsearch : searchBlock k with
  | error e => rfl
  | ok found =>
    cases found with
    | none => rfl
    | some curr =>
      have hsame : kmalloc (n + 1) sizeofPBlock k = scanHeap sizeofPBlock k := by
        rw [scanHeap_eq hi]
        cases hfind : bs.find? (Block.fits (alignup sizeofPBlock 4)) with
        | some b =>
          rw [kmalloc_succ hi, hfind]
        | none =>
          have hno := hi.noRoom_iff.mpr hfind
          apply kmalloc_starved hi hlt ?_ hno
          unfold Starved
          rw [hsearch]
          rw [alignup_sizeofPBlock] at hno
          exact hno
      rw [ok_bind, ok_bind]
      dsimp only
      rw [hsame]

/-- Without a way to grow the heap, a mapping does not return exactly if its reservation starves. -/
theorem mapMemory_scanHeap_iff {k : Kernel} {bs : List Block} (hi : HeapInv k.heap bs) (pd : ℕ) :
    mapMemory scanHeap 0x400000 k.heap.baseEnd pd k = .error .outOfFuel ↔ Starved k := by
  rw [mapMemory_eq]
  unfold Starved
  cases hsearch : searchBlock k with
  | error e =>
    rw [walk_error hsearch]
    exact ⟨fun _ => trivial, fun _ => rfl⟩
  | ok found =>
    cases found with
    | none =>
      constructor
      · intro h
        cases h
      · exact False.elim
    | some curr =>
      rw [ok_bind]
      dsimp only
      rw [scanHeap_eq hi, alignup_sizeofPBlock, hi.noRoom_iff]
      cases hfind : bs.find? (Block.fits sizeofPBlock) with
      | none => exact ⟨fun _ => rfl, fun _ => rfl⟩
      | some b =>
        refine ⟨fun h => ?_, fun h => by cases h⟩
        dsimp only at h
        rw [ok_bind] at h
        dsimp only at h
        have hpages := forRange_holds
          (fun add => mapPageTable_holds (u32 ((k.phys.node curr).baseAddr + add))
            (u32 (aligndown k.heap.baseEnd 4096 + add)) pd)
          (fun add => mapPage_holds (u32 ((k.phys.node curr).baseAddr + add))
            (u32 (aligndown k.heap.baseEnd 4096 + add)) pd)
          (rangeSize 0x400000 k.heap.baseEnd) (aligndown k.heap.baseEnd 4096) k.paging
        revert h
        cases hg : forRange _ _ (rangeSize 0x400000 k.heap.baseEnd) (aligndown k.heap.baseEnd 4096)
          k.paging with
        | ok g => exact fun h => by cases h
        | error e =>
          intro h
          injection h with h
          exact absurd h (hpages.of_error hg).ne_outOfFuel

/-! ## One growth -/

theorem smallAlloc_scanHeap : SmallAlloc scanHeap := by
  intro k bs hi
  rw [scanHeap_eq hi]
  cases hfind : bs.find? (Block.fits (alignup sizeofPBlock 4)) with
  | none => exact clean_outOfFuel
  | some b => exact ⟨hi.takeBlock_keeps hfind (alignup_four (by decide)).1, takeBlock_baseEnd⟩

theorem allocFrame_scanHeap : AllocFrame scanHeap := by
  intro size k p k' h
  obtain ⟨c, -, h⟩ := bind_eq_ok.mp h
  cases c with
  | none => cases h
  | some r =>
    injection h with h
    rw [Prod.mk.injEq] at h
    rw [← h.2]
    exact ⟨.refl _ _, rfl⟩

theorem mapInProcesses_eq (a : Alloc) (ps : List (Option Process)) (k : Kernel) :
    mapInProcesses a ps k = mapHeapEnd a (ps.filterMap (·.map Process.pageDirectory)) k := by
  induction ps generalizing k with
  | nil => rfl
  | cons p ps ih =>
    cases p with
    | none => exact ih k
    | some p =>
      have hcons : (some p :: ps).filterMap (·.map Process.pageDirectory) =
          p.pageDirectory :: ps.filterMap (·.map Process.pageDirectory) := rfl
      rw [mapInProcesses, hcons, mapHeapEnd]
      have hrest : (fun k => mapInProcesses a ps k) =
          mapHeapEnd a (ps.filterMap (·.map Process.pageDirectory)) := funext ih
      rw [← hrest]

theorem mapHeapEnd_cons (a : Alloc) (pd : ℕ) (pds : List ℕ) (k : Kernel) :
    mapHeapEnd a (pd :: pds) k = mapMemory a 0x400000 k.heap.baseEnd pd k >>= mapHeapEnd a pds := rfl

theorem kheapExpand_eq {a : Alloc} (ha : AllocFrame a) {k : Kernel} (hlt : k.heap.baseEnd < freeKvmStart) :
    kheapExpand a k = mapHeapEnd a (expandDirectories k) k >>= fun k =>
      addBaseBlock k.heap >>= fun h => .ok { k with heap := h } := by
  rw [kheapExpand, if_neg (not_le.mpr hlt)]
  unfold expandDirectories
  rw [mapHeapEnd_cons, bind_assoc]
  cases hm : mapMemory a 0x400000 k.heap.baseEnd k.paging.kernelPageDirectory k with
  | error e => rfl
  | ok k1 =>
    rw [ok_bind, ok_bind, mapInProcesses_eq, (ha.mapMemory hm).processes]

theorem mapHeapEnd_kmalloc {k : Kernel} {bs : List Block} (hi : HeapInv k.heap bs)
    (hlt : k.heap.baseEnd < freeKvmStart) (n : ℕ) (pds : List ℕ) :
    mapHeapEnd (kmalloc (n + 1)) pds k = mapHeapEnd scanHeap pds k := by
  induction pds generalizing k bs with
  | nil => rfl
  | cons pd pds ih =>
    rw [mapHeapEnd_cons, mapHeapEnd_cons, mapMemory_kmalloc hi hlt]
    cases hm : mapMemory scanHeap 0x400000 k.heap.baseEnd pd k with
    | error e => rfl
    | ok k1 =>
      obtain ⟨⟨⟨bs1, hi1⟩, -⟩, hend⟩ := (mapMemory_kept smallAlloc_scanHeap hi).of_ok hm
      exact ih hi1 (hend.trans_lt hlt)

theorem mapHeapEnd_kept {k k' : Kernel} {bs : List Block} (hi : HeapInv k.heap bs) {pds : List ℕ}
    (h : mapHeapEnd scanHeap pds k = .ok k') :
    (∃ bs', HeapInv k'.heap bs') ∧ k'.heap.baseEnd = k.heap.baseEnd := by
  induction pds generalizing k bs with
  | nil =>
    injection h with h
    exact h ▸ ⟨⟨bs, hi⟩, rfl⟩
  | cons pd pds ih =>
    obtain ⟨k1, hm, h⟩ := bind_eq_ok.mp h
    obtain ⟨⟨⟨bs1, hi1⟩, -⟩, hend⟩ := (mapMemory_kept smallAlloc_scanHeap hi).of_ok hm
    obtain ⟨hi', hend'⟩ := ih hi1 h
    exact ⟨hi', hend'.trans hend⟩

theorem mapHeapEnd_scanHeap_iff {k : Kernel} {bs : List Block} (hi : HeapInv k.heap bs) (pds : List ℕ) :
    mapHeapEnd scanHeap pds k = .error .outOfFuel ↔ ∃ i < pds.length, ∃ k',
      mapHeapEnd scanHeap (pds.take i) k = .ok k' ∧ Starved k' := by
  induction pds generalizing k bs with
  | nil =>
    constructor
    · intro h
      cases h
    · rintro ⟨i, hi, -⟩
      exact absurd hi (Nat.not_lt_zero i)
  | cons pd pds ih =>
    rw [mapHeapEnd_cons]
    have hfirst := mapMemory_scanHeap_iff hi pd
    cases hm : mapMemory scanHeap 0x400000 k.heap.baseEnd pd k with
    | error e =>
      rw [hm] at hfirst
      constructor
      · intro h
        exact ⟨0, Nat.succ_pos _, k, rfl, hfirst.mp h⟩
      · rintro ⟨i, -, k', hrun, hs⟩
        cases i with
        | zero =>
          injection hrun with hrun
          rw [hrun] at hfirst
          exact hfirst.mpr hs
        | succ i =>
          rw [List.take_succ_cons, mapHeapEnd_cons, hm] at hrun
          cases hrun
    | ok k1 =>
      obtain ⟨⟨⟨bs1, hi1⟩, -⟩, -⟩ := (mapMemory_kept smallAlloc_scanHeap hi).of_ok hm
      rw [ok_bind, ih hi1]
      constructor
      · rintro ⟨i, hlt, k', hrun, hs⟩
        refine ⟨i + 1, Nat.succ_lt_succ hlt, k', ?_, hs⟩
        rw [List.take_succ_cons, mapHeapEnd_cons, hm, ok_bind, hrun]
      · rintro ⟨i, hlt, k', hrun, hs⟩
        cases i with
        | zero =>
          -- the first reservation has completed
          injection hrun with hrun
          rw [← hrun, ← hfirst, hm] at hs
          cases hs
        | succ i =>
          rw [List.take_succ_cons, mapHeapEnd_cons, hm, ok_bind] at hrun
          exact ⟨i, Nat.lt_of_succ_lt_succ hlt, k', hrun, hs⟩

/-- A re-entrant `kmalloc` either finds room, or does not return. -/
theorem kheapExpand_kmalloc {k : Kernel} {bs : List Block} (hi : HeapInv k.heap bs) (n : ℕ) :
    kheapExpand (kmalloc (n + 1)) k = kheapExpand scanHeap k := by
  by_cases hlt : k.heap.baseEnd < freeKvmStart
  · rw [kheapExpand_eq (allocFrame_kmalloc _) hlt, kheapExpand_eq allocFrame_scanHeap hlt,
      mapHeapEnd_kmalloc hi hlt]
  · rw [kheapExpand, if_pos (not_lt.mp hlt), kheapExpand, if_pos (not_lt.mp hlt)]

theorem kheapExpand_scanHeap_iff {k : Kernel} {bs : List Block} (hi : HeapInv k.heap bs) :
    kheapExpand scanHeap k = .error .outOfFuel ↔ ExpandStarves k := by
  unfold ExpandStarves
  by_cases hlt : k.heap.baseEnd < freeKvmStart
  · rw [kheapExpand_eq allocFrame_scanHeap hlt, ← mapHeapEnd_scanHeap_iff hi]
    cases hm : mapHeapEnd scanHeap (expandDirectories k) k with
    | error e => simp [hlt, bind, Except.bind]
    | ok k1 =>
      obtain ⟨⟨bs1, hi1⟩, hend⟩ := mapHeapEnd_kept hi hm
      obtain ⟨h', hadd, -⟩ := hi1.addBaseBlock_ok (hend.trans_lt hlt)
      rw [ok_bind, hadd, ok_bind]
      simp
  · rw [kheapExpand, if_pos (not_lt.mp hlt)]
    simp [hlt, fatalKernelError]

/-! ## All calls -/

/-- With some bound on the recursion, the call returns or stops in `fatal_kernel_error`. -/
def Terminates (size : ℕ) (k : Kernel) : Prop := ∃ fuel, kmalloc fuel size k ≠ .error .outOfFuel

/-- Without fuel no reservation completes. -/
theorem mapMemory_zero {k : Kernel} (hs : searchBlock k ≠ .ok none) (pd : ℕ) :
    mapMemory (kmalloc 0) 0x400000 k.heap.baseEnd pd k = .error .outOfFuel := by
  rw [mapMemory_eq]
  cases hsearch : searchBlock k with
  | error e =>
    rw [walk_error hsearch]
    rfl
  | ok found =>
    cases found with
    | none => exact absurd hsearch hs
    | some curr => rfl

theorem kheapExpand_zero {k : Kernel} (hlt : k.heap.baseEnd < freeKvmStart)
    (hs : searchBlock k ≠ .ok none) : kheapExpand (kmalloc 0) k = .error .outOfFuel := by
  rw [kheapExpand, if_neg (not_le.mpr hlt), mapMemory_zero hs]
  rfl

/-- A mapping that completes has found a block. -/
theorem searchBlock_of_mapMemory {a : Alloc} {pd : ℕ} {k k' : Kernel}
    (h : mapMemory a 0x400000 k.heap.baseEnd pd k = .ok k') : searchBlock k ≠ .ok none := by
  intro hsearch
  rw [mapMemory_eq, hsearch] at h
  cases h

theorem ExpandStarves.searchBlock_ne {k : Kernel} (h : ExpandStarves k) : searchBlock k ≠ .ok none := by
  obtain ⟨-, i, -, k', hrun, hs⟩ := h
  cases i with
  | zero =>
    injection hrun with hrun
    rw [← hrun] at hs
    unfold Starved at hs
    intro hsearch
    rw [hsearch] at hs
    exact hs
  | succ i =>
    rw [expandDirectories, List.take_succ_cons, mapHeapEnd_cons] at hrun
    obtain ⟨k1, hm, -⟩ := bind_eq_ok.mp hrun
    exact searchBlock_of_mapMemory hm

theorem kheapExpand_ok {k k' : Kernel} {bs : List Block} (hi : HeapInv k.heap bs)
    (h : kheapExpand scanHeap k = .ok k') : k.heap.baseEnd < freeKvmStart ∧ searchBlock k ≠ .ok none ∧
      (∃ bs', HeapInv k'.heap bs') ∧ k'.heap.baseEnd = k.heap.baseEnd + 0x400000 := by
  have hlt : k.heap.baseEnd < freeKvmStart := by
    by_contra hfull
    rw [kheapExpand, if_pos (not_lt.mp hfull)] at h
    cases h
  obtain ⟨⟨hi', -⟩, hend⟩ := (kheapExpand_kept smallAlloc_scanHeap hi).of_ok h
  refine ⟨hlt, ?_, hi', hend⟩
  rw [kheapExpand_eq allocFrame_scanHeap hlt, expandDirectories, mapHeapEnd_cons, bind_assoc] at h
  obtain ⟨k1, hm, -⟩ := bind_eq_ok.mp h
  exact searchBlock_of_mapMemory hm

/-- One call, when no block has room. -/
theorem kmalloc_grow {k : Kernel} {bs : List Block} (hi : HeapInv k.heap bs) {size : ℕ}
    (hno : k.heap.NoRoom (alignup size 4)) (n : ℕ) :
    kmalloc (n + 1) size k = kheapExpand (kmalloc n) k >>= kmalloc n (alignup size 4) := by
  rw [kmalloc_succ hi, hi.noRoom_iff.mp hno]

theorem GrowthStarves.outOfFuel {n : ℕ} {k : Kernel} (h : GrowthStarves n k) (h4 : alignup n 4 = n)
    {bs : List Block} (hi : HeapInv k.heap bs) {size : ℕ} (hs : alignup size 4 = n) (fuel : ℕ) :
    kmalloc fuel size k = .error .outOfFuel := by
  induction h generalizing bs size fuel with
  | @now k hno hstarves =>
    rcases fuel with _ | _ | fuel
    · rfl
    · rw [kmalloc_grow hi (hs ▸ hno), kheapExpand_zero hstarves.1 hstarves.searchBlock_ne]
      rfl
    · rw [kmalloc_grow hi (hs ▸ hno), kheapExpand_kmalloc hi, (kheapExpand_scanHeap_iff hi).mpr hstarves]
      rfl
  | @later k k' hno hgrow _ ih =>
    obtain ⟨hlt, hsearch, ⟨bs', hi'⟩, -⟩ := kheapExpand_ok hi hgrow
    rcases fuel with _ | _ | fuel
    · rfl
    · rw [kmalloc_grow hi (hs ▸ hno), kheapExpand_zero hlt hsearch]
      rfl
    · rw [kmalloc_grow hi (hs ▸ hno), kheapExpand_kmalloc hi, hgrow, ok_bind]
      exact ih hi' (by rw [hs, h4]) (fuel + 1)

/-- The heap ends below `FREE_KVM_START` as long as it grows. -/
theorem terminates_of_not_starves {size : ℕ} (h4 : 4 ∣ alignup size 4) (d : ℕ) {k : Kernel} {bs : List Block}
    (hi : HeapInv k.heap bs) (hd : freeKvmStart - k.heap.baseEnd ≤ d)
    (hs : ¬GrowthStarves (alignup size 4) k) : Terminates size k := by
  induction d using Nat.strong_induction_on generalizing size k bs with
  | _ d ih =>
    by_cases hno : k.heap.NoRoom (alignup size 4)
    · cases hgrow : kheapExpand scanHeap k with
      | error e =>
        refine ⟨2, ?_⟩
        rw [kmalloc_grow hi hno, kheapExpand_kmalloc hi, hgrow]
        intro h
        injection h with h
        rw [h, kheapExpand_scanHeap_iff hi] at hgrow
        exact hs (.now hno hgrow)
      | ok k1 =>
        obtain ⟨hlt, -, ⟨bs1, hi1⟩, hend⟩ := kheapExpand_ok hi hgrow
        have hs1 : ¬GrowthStarves (alignup (alignup size 4) 4) k1 := by
          rw [alignup_of_dvd h4]
          exact fun h => hs (.later hno hgrow h)
        have h4' : 4 ∣ alignup (alignup size 4) 4 := by
          rw [alignup_of_dvd h4]
          exact h4
        obtain ⟨fuel, hfuel⟩ := ih (freeKvmStart - k1.heap.baseEnd) (by omega) h4' hi1 le_rfl hs1
        cases fuel with
        | zero => exact absurd rfl hfuel
        | succ fuel =>
          refine ⟨fuel + 2, ?_⟩
          rw [kmalloc_grow hi hno, kheapExpand_kmalloc hi, hgrow, ok_bind]
          exact hfuel
    · refine ⟨1, ?_⟩
      rw [kmalloc_succ hi]
      cases hfind : bs.find? (Block.fits (alignup size 4)) with
      | none => exact absurd (hi.noRoom_iff.mpr hfind) hno
      | some b => exact fun h => by cases h

/-- A call of `kmalloc` ends exactly if no growth of the heap that it needs comes to a
reservation that is starved. -/
theorem kmalloc_terminates_iff {k : Kernel} (hr : HeapReachable k) {size : ℕ} (hs : size ≤ 0xFFFFFFFC) :
    Terminates size k ↔ ¬GrowthStarves (alignup size 4) k := by
  obtain ⟨bs, hi⟩ := hr.inv
  have h4 := (alignup_four hs).1
  constructor
  · rintro ⟨fuel, hfuel⟩ hstarves
    exact hfuel (hstarves.outOfFuel (alignup_of_dvd h4) hi rfl fuel)
  · exact terminates_of_not_starves h4 _ hi le_rfl

/-! ## A heap without room -/

/-- The kernel with one free block of physical memory, after the rest of its heap has been
allocated. -/
def fullKernel : Kernel :=
  { oneBlockKernel with heap := takeBlock oneBlockKernel.heap (kheapBaseStart + 28) 0x3FFFDC }

theorem heapReachable_fullKernel : HeapReachable fullKernel := by
  have hsize : alignup 0x3FFFDC 4 = 0x3FFFDC := alignup_of_dvd (by decide)
  have hi : HeapInv oneBlockKernel.heap
      [⟨kheapBaseStart, 20, true⟩, ⟨kheapBaseStart + 28, 0x3FFFDC, false⟩] :=
    (HeapInv.takeBlock_inv [] 20 (heapInv_kheapInstall _) rfl (by decide) (by decide)).1
  have hrest : kmalloc 1 0x3FFFDC oneBlockKernel = .ok (kheapBaseStart + 28 + 8, fullKernel) := by
    rw [kmalloc_succ hi, hsize]
    rfl
  exact initialList_oneBlockKernel.heap.tail (.kmalloc (by decide) hrest)

theorem noRoom_fullKernel (n : ℕ) : fullKernel.heap.NoRoom n := by
  have hi : HeapInv oneBlockKernel.heap ([⟨kheapBaseStart, 20, true⟩] ++
      ⟨kheapBaseStart + 28, 0x3FFFDC, false⟩ :: []) :=
    (HeapInv.takeBlock_inv [] 20 (heapInv_kheapInstall _) rfl (by decide) (by decide)).1
  have hfull := (HeapInv.takeBlock_inv _ 0x3FFFDC hi rfl le_rfl (by decide)).1
  apply HeapInv.noRoom hfull
  rw [List.find?_eq_none]
  intro b hb hfit
  obtain ⟨hu, -⟩ := Block.fits_iff.mp hfit
  simp [carve] at hb
  rcases hb with rfl | rfl
  · cases hu
  · cases hu

theorem searchBlock_fullKernel : searchBlock fullKernel = .ok (some (kheapBaseStart + 8)) := by
  have hend : fullKernel.heap.baseEnd = 0xC0C00000 := by
    change (takeBlock (takeBlock installedKernel.heap kheapBaseStart 20) (kheapBaseStart + 28) 0x3FFFDC).baseEnd = _
    rw [takeBlock_baseEnd, takeBlock_baseEnd]
    rfl
  have hsize : alignup (rangeSize 0x400000 fullKernel.heap.baseEnd) 4096 = 0x400000 := by
    have hrange : rangeSize 0x400000 0xC0C00000 = 0x400000 := alignup_of_dvd (by decide)
    rw [hend, hrange, alignup_of_dvd (by decide)]
  have hfound : PBlock.available 0x400000 (fullKernel.phys.node (kheapBaseStart + 8)) = true := by
    unfold fullKernel oneBlockKernel
    dsimp only
    rw [Function.update_self]
    rfl
  obtain ⟨fuel, hfuel⟩ : ∃ fuel, loopFuel = fuel + 1 := ⟨2 ^ 32 - 1, by unfold loopFuel; norm_num⟩
  unfold searchBlock
  rw [hsize, hfuel, PhysMem.walk]
  change (if kheapBaseStart + 8 = 0 then Except.ok none
    else if PBlock.available 0x400000 (fullKernel.phys.node (kheapBaseStart + 8)) = true then
      .ok (some (kheapBaseStart + 8)) else _) = _
  rw [if_neg (by decide), if_pos hfound]

/-- There is free physical memory, but a call of `kmalloc` goes on for ever. -/
theorem kmalloc_runs_for_ever : HeapReachable fullKernel ∧
    searchBlock fullKernel = .ok (some (kheapBaseStart + 8)) ∧ ∀ fuel, kmalloc fuel 1 fullKernel = .error .outOfFuel := by
  have hstarved : Starved fullKernel := by
    unfold Starved
    rw [searchBlock_fullKernel]
    exact noRoom_fullKernel _
  obtain ⟨bs, hi⟩ := heapReachable_fullKernel.inv
  have hend : fullKernel.heap.baseEnd < freeKvmStart := by
    change (takeBlock (takeBlock installedKernel.heap kheapBaseStart 20) (kheapBaseStart + 28) 0x3FFFDC).baseEnd < _
    rw [takeBlock_baseEnd, takeBlock_baseEnd]
    decide
  exact ⟨heapReachable_fullKernel, searchBlock_fullKernel,
    kmalloc_starved hi hend hstarved (noRoom_fullKernel _)⟩

/-- A first allocation of 20 bytes. -/
theorem kmalloc_terminates_first : Terminates 20 installedKernel := by
  apply (kmalloc_terminates_iff heapReachable_installedKernel (by decide)).mpr
  have hroom : ¬installedKernel.heap.NoRoom (alignup 20 4) := by
    intro hno
    have hfind := (heapInv_kheapInstall _).noRoom_iff.mp hno
    rw [List.find?_eq_none] at hfind
    exact hfind _ List.mem_cons_self (Block.fits_iff.mpr ⟨rfl, by decide⟩)
  intro h
  cases h with
  | now hno _ => exact hroom hno
  | later hno _ _ => exact hroom hno

end VkKernel
