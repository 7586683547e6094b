import VkKernel.KheapLayout
import VkKernel.Kmalloc

/-!
# What `kmalloc` guarantees

The allocations that growing the heap makes on the way are small, and a small
allocation that returns was served from the heap as it stood: had it needed to
grow the heap, its own growth would have asked for the same small allocation
again. So the heap never grows twice inside one growth.
-/

namespace VkKernel
open ByteMemory BlockLayout Outcome

/-- Stops other than the report of a corrupted heap. -/
def Stop.Clean (e : Stop) : Prop := ∀ context, e ≠ .fatal unknownBlockErrmsg context

theorem clean_outOfFuel : Stop.outOfFuel.Clean := fun _ h => by cases h

theorem clean_fatal {message context : String} (h : message ≠ unknownBlockErrmsg) :
    (Stop.fatal message context).Clean := by
  intro context' h'
  injection h' with hm
  exact h hm

/-- A call of `fatal_kernel_error`, except for the report of a corrupted heap. -/
def Stop.Reported (e : Stop) : Prop :=
  ∃ message context, message ≠ unknownBlockErrmsg ∧ e = .fatal message context

theorem reported_fatal {message context : String} (h : message ≠ unknownBlockErrmsg) :
    (Stop.fatal message context).Reported := ⟨message, context, h, rfl⟩

theorem Stop.Reported.clean {e : Stop} (h : e.Reported) : e.Clean := by
  obtain ⟨message, context, hne, rfl⟩ := h
  exact clean_fatal hne

theorem Stop.Reported.ne_outOfFuel {e : Stop} (h : e.Reported) : e ≠ .outOfFuel := by
  obtain ⟨message, context, -, rfl⟩ := h
  exact fun h => by cases h

theorem alignup_four {n : ℕ} (h : n ≤ 0xFFFFFFFC) :
    4 ∣ alignup n 4 ∧ n ≤ alignup n 4 ∧ alignup n 4 ≤ 0xFFFFFFFC := by
  have hle : (n + 4 - 1) / 4 * 4 ≤ 0xFFFFFFFC := by omega
  rw [alignup_eq (by norm_num) (by omega)]
  exact ⟨Nat.dvd_mul_left _ _, by omega, hle⟩

/-! ## The other parts of the memory manager leave the heap alone -/

theorem walk_holds (m : PhysMem) (test : PBlock → Bool) (fuel curr : ℕ) :
    Holds (m.walk test fuel curr) (fun _ => True) Stop.Clean := by
  induction fuel generalizing curr with
  | zero => exact clean_outOfFuel
  | succ fuel ih =>
    rw [PhysMem.walk]
    split_ifs
    · trivial
    · trivial
    · exact ih _

theorem ptAllocFrom_holds (g : Paging) (n : ℕ) :
    Holds (ptAllocFrom g n) (fun _ => True) Stop.Reported := by
  induction n with
  | zero => exact reported_fatal (by decide)
  | succ n ih =>
    rw [ptAllocFrom]
    dsimp only
    split_ifs
    · trivial
    · exact ih

theorem pageTableFor_holds (virt pd : ℕ) (g : Paging) :
    Holds (pageTableFor virt pd g) (fun _ => True) Stop.Reported := by
  unfold pageTableFor
  dsimp only
  split_ifs
  · rw [holds_bind]
    exact (ptAllocFrom_holds g 1024).mono (fun _ _ => trivial) (fun e h => h)
  · exact reported_fatal (by decide)
  · trivial

theorem mapPage_holds (phys virt pd : ℕ) (g : Paging) :
    Holds (mapPage phys virt pd g) (fun _ => True) Stop.Reported := by
  unfold mapPage
  split_ifs
  · exact reported_fatal (by decide)
  · exact reported_fatal (by decide)
  · rw [holds_bind]
    refine (pageTableFor_holds virt pd g).mono (fun r _ => ?_) (fun e h => h)
    dsimp only
    split_ifs
    · exact reported_fatal (by decide)
    · trivial

theorem mapPageTable_holds (phys virt pd : ℕ) (g : Paging) :
    Holds (mapPageTable phys virt pd g) (fun _ => True) Stop.Reported := by
  unfold mapPageTable
  split_ifs
  · exact reported_fatal (by decide)
  · exact reported_fatal (by decide)
  · exact reported_fatal (by decide)
  · trivial
  · rw [holds_bind]
    exact (ptAllocFrom_holds g 1024).mono (fun _ _ => trivial) (fun e h => h)

theorem stepLoop_holds {step : ℕ} {f : ℕ → Paging → Result Paging}
    (hf : ∀ add g, Holds (f add g) (fun _ => True) Stop.Reported) (n add : ℕ) (g : Paging) :
    Holds (stepLoop step f n add g) (fun _ => True) Stop.Reported := by
  induction n generalizing add g with
  | zero => trivial
  | succ n ih =>
    rw [stepLoop, holds_bind]
    exact (hf add g).mono (fun g' _ => ih _ g') (fun e h => h)

theorem forRange_holds {large small : ℕ → Paging → Result Paging}
    (hl : ∀ add g, Holds (large add g) (fun _ => True) Stop.Reported)
    (hs : ∀ add g, Holds (small add g) (fun _ => True) Stop.Reported) (size virt : ℕ) (g : Paging) :
    Holds (forRange large small size virt g) (fun _ => True) Stop.Reported := by
  unfold forRange
  dsimp only
  rw [holds_bind]
  exact (stepLoop_holds hl _ _ g).mono (fun g' _ => stepLoop_holds hs _ _ g') (fun e h => h)

/-- Reserving physical memory makes one heap allocation. -/
theorem reserveBlock_holds {a : Alloc} {size type : ℕ} {k : Kernel} {Q : Heap → Prop}
    (h : Holds (a sizeofPBlock k) (fun r => Q r.2.heap) Stop.Clean) :
    Holds (reserveBlock a size type k) (fun r => Q r.2.heap) Stop.Clean := by
  unfold reserveBlock
  rw [holds_bind]
  refine (walk_holds _ _ _ _).mono (fun c _ => ?_) (fun e h => h)
  cases c with
  | none => exact clean_fatal (by decide)
  | some curr =>
    dsimp only
    rw [holds_bind]
    exact h.mono (fun r hr => hr) (fun e h => h)

theorem mapMemory_holds {a : Alloc} {size virt pd : ℕ} {k : Kernel} {Q : Heap → Prop}
    (h : Holds (a sizeofPBlock k) (fun r => Q r.2.heap) Stop.Clean) :
    Holds (mapMemory a size virt pd k) (fun k' => Q k'.heap) Stop.Clean := by
  unfold mapMemory
  dsimp only
  rw [holds_bind]
  refine (reserveBlock_holds h).mono (fun r hr => ?_) (fun e h => h)
  rw [holds_bind]
  exact (forRange_holds (fun _ _ => mapPageTable_holds _ _ _ _) (fun _ _ => mapPage_holds _ _ _ _)
    _ _ _).mono (fun g _ => hr) (fun e h => h.clean)

/-- A reservation that succeeds has made its allocation. -/
theorem reserveBlock_alloc {a : Alloc} {size type : ℕ} {k : Kernel} {r : ℕ × Kernel}
    (h : reserveBlock a size type k = .ok r) : ∃ s, a sizeofPBlock k = .ok s := by
  obtain ⟨c, -, h⟩ := bind_eq_ok.mp h
  cases c with
  | none => cases h
  | some curr =>
    obtain ⟨s, hs, -⟩ := bind_eq_ok.mp h
    exact ⟨s, hs⟩

theorem mapMemory_alloc {a : Alloc} {size virt pd : ℕ} {k k' : Kernel}
    (h : mapMemory a size virt pd k = .ok k') : ∃ s, a sizeofPBlock k = .ok s := by
  obtain ⟨r, hr, -⟩ := bind_eq_ok.mp h
  exact reserveBlock_alloc hr

/-! ## Small allocations -/

theorem kmalloc_succ {n size : ℕ} {k : Kernel} {bs : List Block} (hi : HeapInv k.heap bs) :
    kmalloc (n + 1) size k =
      match bs.find? (Block.fits (alignup size 4)) with
      | some b => .ok (b.addr + 8, { k with heap := takeBlock k.heap b.addr (alignup size 4) })
      | none => kheapExpand (kmalloc n) k >>= kmalloc n (alignup size 4) := by
  rw [kmalloc, kmallocScan_eq hi.tiles hi.headers hi.length_lt hi.end_lt]
  cases bs.find? (Block.fits (alignup size 4)) with
  | some b => rfl
  | none => rfl

/-- A small allocation that returns was served without growing the heap. -/
theorem kmalloc_small {n size : ℕ} {k : Kernel} {bs : List Block} {r : ℕ × Kernel}
    (hi : HeapInv k.heap bs) (hs : alignup size 4 ≤ sizeofPBlock) (h : kmalloc n size k = .ok r) :
    ∃ b, bs.find? (Block.fits (alignup size 4)) = some b ∧
      r = (b.addr + 8, { k with heap := takeBlock k.heap b.addr (alignup size 4) }) := by
  induction n generalizing size r with
  | zero => cases h
  | succ n ih =>
    rw [kmalloc_succ hi] at h
    cases hf : bs.find? (Block.fits (alignup size 4)) with
    | some b =>
      rw [hf] at h
      injection h with h
      exact ⟨b, rfl, h.symm⟩
    | none =>
      -- growing the heap would first make a small allocation in the same heap
      rw [hf] at h
      obtain ⟨k1, hk1, -⟩ := bind_eq_ok.mp h
      unfold kheapExpand at hk1
      split_ifs at hk1
      · cases hk1
      · obtain ⟨k2, hk2, -⟩ := bind_eq_ok.mp hk1
        obtain ⟨s, hs'⟩ := mapMemory_alloc hk2
        have h20 : alignup sizeofPBlock 4 = sizeofPBlock := alignup_of_dvd (by decide)
        obtain ⟨b, hb, -⟩ := ih h20.le hs'
        rw [h20] at hb
        have hfit := Block.fits_iff.mp (List.find?_some hb)
        have hno := List.find?_eq_none.mp hf b (List.mem_of_find?_eq_some hb)
        exact absurd (Block.fits_iff.mpr ⟨hfit.1, hs.trans hfit.2⟩) hno

/-! ## One allocation -/

/-- The heap after a call that keeps every live allocation. -/
structure Kept (h h' : Heap) : Prop where
  inv : ∃ bs, HeapInv h' bs
  keeps : Keeps h h'

theorem Kept.trans {h1 h2 h3 : Heap} (h : Keeps h1 h2) (h' : Kept h2 h3) : Kept h1 h3 :=
  ⟨h'.inv, h.trans h'.keeps⟩

theorem HeapInv.takeBlock_keeps {h : Heap} {bs : List Block} {b : Block} {n : ℕ}
    (hi : HeapInv h bs) (hb : bs.find? (Block.fits n) = some b) (h4 : 4 ∣ n) :
    Kept h (takeBlock h b.addr n) := by
  obtain ⟨hfit, xs, ys, rfl, -⟩ := List.find?_eq_some_iff_append.mp hb
  obtain ⟨hu, hn⟩ := Block.fits_iff.mp hfit
  obtain ⟨hi', hkeep⟩ := HeapInv.takeBlock_inv _ _ hi hu hn h4
  refine ⟨⟨_, hi'⟩, hi.keeps ?_ ?_⟩
  · intro c hc hcu x hx hx'
    have hne : c ≠ b := by
      intro h
      rw [h, hu] at hcu
      cases hcu
    have := hi.tiles.apart hc (by simp) hne
    exact hkeep x (by omega)
  · intro p hp
    rw [takeBlock_live]
    exact List.mem_cons_of_mem _ hp

/-- A re-entrant allocation, seen from the growth that makes it. -/
def SmallAlloc (a : Alloc) : Prop :=
  ∀ k bs, HeapInv k.heap bs → Holds (a sizeofPBlock k)
    (fun r => Kept k.heap r.2.heap ∧ r.2.heap.baseEnd = k.heap.baseEnd) Stop.Clean

theorem mapMemory_kept {a : Alloc} (ha : SmallAlloc a) {size virt pd : ℕ} {k : Kernel}
    {bs : List Block} (hi : HeapInv k.heap bs) :
    Holds (mapMemory a size virt pd k)
      (fun k' => Kept k.heap k'.heap ∧ k'.heap.baseEnd = k.heap.baseEnd) Stop.Clean :=
  mapMemory_holds (Q := fun h' => Kept k.heap h' ∧ h'.baseEnd = k.heap.baseEnd) (ha k bs hi)

theorem mapInProcesses_kept {a : Alloc} (ha : SmallAlloc a) (ps : List (Option Process))
    {k : Kernel} {bs : List Block} (hi : HeapInv k.heap bs) :
    Holds (mapInProcesses a ps k)
      (fun k' => Kept k.heap k'.heap ∧ k'.heap.baseEnd = k.heap.baseEnd) Stop.Clean := by
  induction ps generalizing k bs with
  | nil => exact ⟨⟨⟨bs, hi⟩, Keeps.refl _⟩, rfl⟩
  | cons p ps ih =>
    cases p with
    | none => exact ih hi
    | some p =>
      rw [mapInProcesses, holds_bind]
      refine (mapMemory_kept ha hi).mono (fun k1 h1 => ?_) (fun e h => h)
      obtain ⟨⟨⟨bs1, hi1⟩, hk1⟩, he1⟩ := h1
      exact (ih hi1).mono (fun k2 h2 => ⟨h2.1.trans hk1, h2.2.trans he1⟩) (fun e h => h)

theorem HeapInv.addBaseBlock_kept {h : Heap} {bs : List Block} (hi : HeapInv h bs)
    (hlt : h.baseEnd < freeKvmStart) :
    Holds (addBaseBlock h) (fun h' => Kept h h' ∧ h'.baseEnd = h.baseEnd + 0x400000)
      Stop.Clean := by
  obtain ⟨h', hr, hi', he, hl, hs⟩ := hi.addBaseBlock_ok hlt
  rw [hr, holds_ok]
  exact ⟨⟨⟨_, hi'⟩, hi.keeps hs fun p hp => by rw [hl]; exact hp⟩, he⟩

theorem kheapExpand_kept {a : Alloc} (ha : SmallAlloc a) {k : Kernel} {bs : List Block}
    (hi : HeapInv k.heap bs) :
    Holds (kheapExpand a k)
      (fun k' => Kept k.heap k'.heap ∧ k'.heap.baseEnd = k.heap.baseEnd + 0x400000)
      Stop.Clean := by
  unfold kheapExpand
  split_ifs with hfull
  · exact clean_fatal (by decide)
  · rw [holds_bind]
    refine (mapMemory_kept ha hi).mono (fun k1 h1 => ?_) (fun e h => h)
    obtain ⟨⟨⟨bs1, hi1⟩, hk1⟩, he1⟩ := h1
    rw [holds_bind]
    refine (mapInProcesses_kept ha _ hi1).mono (fun k2 h2 => ?_) (fun e h => h)
    have hlt : k2.heap.baseEnd < freeKvmStart := by
      rw [h2.2, he1]
      exact Nat.lt_of_not_ge hfull
    have hadd := h2.1.inv.elim fun bs2 hi2 => hi2.addBaseBlock_kept hlt
    rw [holds_bind]
    refine hadd.mono (fun h3 hh => ?_) (fun e h => h)
    obtain ⟨hk3, he3⟩ := hh
    refine ⟨hk3.trans (hk1.trans h2.1.keeps), ?_⟩
    rw [← he1, ← h2.2]
    exact he3

/-- No free block of the heap has `n` bytes. -/
def Heap.NoRoom (h : Heap) (n : ℕ) : Prop := ∀ b ∈ h.blocks, b.2.2 = 0 → b.2.1 < n

/-- `k1` is `k`, or was reached from `k` by growing the heap, each time because
no free block had room for `n` bytes. -/
inductive Expanded (n : ℕ) : Kernel → Kernel → Prop
  | refl (k : Kernel) : Expanded n k k
  | step {k k1 k2 : Kernel} {fuel : ℕ} : k.heap.NoRoom n → kheapExpand (kmalloc fuel) k = .ok k1 →
      k.heap.baseEnd < k1.heap.baseEnd → Expanded n k1 k2 → Expanded n k k2

theorem HeapInv.noRoom {h : Heap} {bs : List Block} (hi : HeapInv h bs) {n : ℕ}
    (hf : bs.find? (Block.fits n) = none) : h.NoRoom n := by
  intro c hc hfree
  rw [hi.blocks_eq, List.mem_map] at hc
  obtain ⟨b, hb, rfl⟩ := hc
  have hu : b.used = false := by
    cases hbu : b.used with
    | false => rfl
    | true => simp [hbu] at hfree
  by_contra hsize
  exact List.find?_eq_none.mp hf b hb (Block.fits_iff.mpr ⟨hu, by simpa using hsize⟩)

/-- What a call of `kmalloc` has done: the block at `p - 8` is the first free
block with room in the heap `k1`, and the call has reserved it there. -/
structure Allocated (size : ℕ) (k : Kernel) (p : ℕ) (k' : Kernel) : Prop where
  intro ::
  exists_block : ∃ k1 bs b, Expanded (alignup size 4) k k1 ∧ HeapInv k1.heap bs ∧
    Keeps k.heap k1.heap ∧ bs.find? (Block.fits (alignup size 4)) = some b ∧ p = b.addr + 8 ∧
    k' = { k1 with heap := takeBlock k1.heap b.addr (alignup size 4) }

theorem smallAlloc_of_clean {n : ℕ}
    (hclean : ∀ size k bs, HeapInv k.heap bs → size ≤ 0xFFFFFFFC →
      Holds (kmalloc n size k) (fun _ => True) Stop.Clean) : SmallAlloc (kmalloc n) := by
  intro k bs hi
  have h20 : alignup sizeofPBlock 4 = sizeofPBlock := alignup_of_dvd (by decide)
  cases hr : kmalloc n sizeofPBlock k with
  | error e => exact (hclean sizeofPBlock k bs hi (by decide)).of_error hr
  | ok r =>
    obtain ⟨b, hb, rfl⟩ := kmalloc_small hi h20.le hr
    exact ⟨hi.takeBlock_keeps hb (alignup_four (by decide)).1, takeBlock_baseEnd⟩

theorem kmalloc_holds {n size : ℕ} {k : Kernel} {bs : List Block} (hi : HeapInv k.heap bs)
    (hs : size ≤ 0xFFFFFFFC) :
    Holds (kmalloc n size k) (fun r => Allocated size k r.1 r.2) Stop.Clean := by
  induction n generalizing size k bs with
  | zero => exact clean_outOfFuel
  | succ n ih =>
    obtain ⟨h4, -, hle⟩ := alignup_four hs
    rw [kmalloc_succ hi]
    cases hf : bs.find? (Block.fits (alignup size 4)) with
    | some b => exact ⟨k, bs, b, .refl k, hi, Keeps.refl _, hf, rfl, rfl⟩
    | none =>
      have hsmall : SmallAlloc (kmalloc n) := smallAlloc_of_clean fun size k bs hi hs =>
        (ih hi hs).mono (fun _ _ => trivial) (fun e h => h)
      have hno := hi.noRoom hf
      dsimp only
      cases hr : kheapExpand (kmalloc n) k with
      | error e => exact (kheapExpand_kept hsmall hi).of_error hr
      | ok k1 =>
        obtain ⟨⟨⟨bs1, hi1⟩, hk1⟩, he1⟩ := (kheapExpand_kept hsmall hi).of_ok hr
        rw [ok_bind]
        refine (ih hi1 hle).mono (fun r hr' => ?_) (fun e h => h)
        obtain ⟨k2, bs2, b, hex, hi2, hk2, hfind, hp, hk'⟩ := hr'
        rw [alignup_of_dvd h4] at hex hfind hk'
        exact ⟨k2, bs2, b, .step hno hr (by omega) hex, hi2, hk1.trans hk2, hfind, hp, hk'⟩

theorem smallAlloc_kmalloc (n : ℕ) : SmallAlloc (kmalloc n) :=
  smallAlloc_of_clean fun _ _ _ hi hs =>
    (kmalloc_holds hi hs).mono (fun _ _ => trivial) (fun _ h => h)

/-- The block that an allocation returns, in the heap it leaves. -/
theorem Allocated.block {size p : ℕ} {k k' : Kernel} (h : Allocated size k p k')
    (hs : size ≤ 0xFFFFFFFC) : ∃ bs b, HeapInv k'.heap bs ∧ b ∈ bs ∧ b.used ∧ p = b.addr + 8 ∧
      alignup size 4 ≤ b.size := by
  obtain ⟨k1, bs, b, -, hi, -, hf, rfl, rfl⟩ := h
  obtain ⟨hfit, xs, ys, rfl, -⟩ := List.find?_eq_some_iff_append.mp hf
  obtain ⟨hu, hn⟩ := Block.fits_iff.mp hfit
  obtain ⟨c, hc, hcu, hca, hcs⟩ := exists_carve_used hn
  refine ⟨_, c, (HeapInv.takeBlock_inv _ _ hi hu hn (alignup_four hs).1).1, ?_, hcu, by rw [hca], hcs⟩
  exact List.mem_append_left _ (List.mem_append_right _ hc)

theorem Allocated.kept {size p : ℕ} {k k' : Kernel} (h : Allocated size k p k')
    (hs : size ≤ 0xFFFFFFFC) : Kept k.heap k'.heap := by
  obtain ⟨k1, bs, b, -, hi, hk, hf, -, rfl⟩ := h
  exact (hi.takeBlock_keeps hf (alignup_four hs).1).trans hk

end VkKernel
