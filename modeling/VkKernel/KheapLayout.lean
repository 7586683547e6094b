import VkKernel.Kheap
import VkKernel.Lib.BlockLayout

/-!
# The heap bytes represent a block layout

Each operation of the kernel heap is one operation on the layout of blocks that
its header bytes describe: taking a block is carving, freeing is releasing, and
the merge loops are coalescing. Beside the new layout, every lemma says which
bytes may change: only bytes of free blocks.
-/

namespace VkKernel
open ByteMemory BlockLayout Outcome

/-- The header of `b` is in memory. -/
structure HeaderAt (m : Mem) (b : Block) : Prop where
  size : loadLE m b.addr 4 = b.size
  magic : loadLE m (b.addr + 4) 2 = blockHeaderMagic
  status : loadLE m (b.addr + 6) 2 = if b.used then 1 else 0

theorem HeaderAt.congr {m m' : Mem} {b : Block} (h : HeaderAt m b)
    (he : ∀ x, b.addr ≤ x → x < b.addr + 8 → m' x = m x) : HeaderAt m' b where
  size := by rw [loadLE_congr fun x hx hx' => he x (by omega) (by omega)]; exact h.size
  magic := by rw [loadLE_congr fun x hx hx' => he x (by omega) (by omega)]; exact h.magic
  status := by rw [loadLE_congr fun x hx hx' => he x (by omega) (by omega)]; exact h.status

/-- The three header fields written one after the other, in any memory. -/
theorem headerAt_store {m : Mem} {b : Block} (hs : b.size < 2 ^ 32) :
    HeaderAt (storeLE (storeLE (storeLE m (b.addr + 4) 2 blockHeaderMagic) b.addr 4 b.size)
      (b.addr + 6) 2 (if b.used then 1 else 0)) b where
  size := by
    rw [loadLE_storeLE_of_disjoint (by omega), loadLE_storeLE_of_lt (by norm_num; omega)]
  magic := by
    rw [loadLE_storeLE_of_disjoint (by omega), loadLE_storeLE_of_disjoint (by omega),
      loadLE_storeLE_of_lt (by norm_num [blockHeaderMagic])]
  status := loadLE_storeLE_of_lt (by split_ifs <;> norm_num)

theorem HeaderAt.setSize {m : Mem} {b : Block} {n : ℕ} (h : HeaderAt m b) (hn : n < 2 ^ 32) :
    HeaderAt (storeLE m b.addr 4 n) ⟨b.addr, n, b.used⟩ where
  size := loadLE_storeLE_of_lt (by norm_num; omega)
  magic := by rw [loadLE_storeLE_of_disjoint (by dsimp only; omega)]; exact h.magic
  status := by rw [loadLE_storeLE_of_disjoint (by dsimp only; omega)]; exact h.status

theorem HeaderAt.setStatus {m : Mem} {b : Block} {u : Bool} (h : HeaderAt m b) :
    HeaderAt (storeLE m (b.addr + 6) 2 (if u then 1 else 0)) ⟨b.addr, b.size, u⟩ where
  size := by rw [loadLE_storeLE_of_disjoint (by dsimp only; omega)]; exact h.size
  magic := by rw [loadLE_storeLE_of_disjoint (by dsimp only; omega)]; exact h.magic
  status := loadLE_storeLE_of_lt (by split_ifs <;> norm_num)

/-! ## The merge loops -/

theorem mergeInto_spec {fuel : ℕ} {b : Block} {bs : List Block} {h : Heap}
    (ht : Tiles 8 (b.stop 8) bs h.baseEnd) (hb : HeaderAt h.mem b) (hu : b.used = false)
    (hbs : ∀ c ∈ bs, HeaderAt h.mem c) (hne : bs ≠ []) (hf : bs.length ≤ fuel)
    (hend : h.baseEnd < 2 ^ 32) :
    ∃ h', mergeInto b.addr fuel (b.stop 8) h = .ok ((absorb 8 b bs).2.isEmpty, h') ∧
      h'.baseEnd = h.baseEnd ∧ h'.live = h.live ∧ HeaderAt h'.mem (absorb 8 b bs).1 ∧
      ∀ x, x < b.addr ∨ b.addr + 4 ≤ x → h'.mem x = h.mem x := by
  induction fuel generalizing b bs h with
  | zero => exact absurd (List.length_eq_zero_iff.mp (by omega)) hne
  | succ fuel ih =>
    obtain ⟨c, cs, rfl⟩ := List.exists_cons_of_ne_nil hne
    obtain ⟨hca, htc⟩ := ht
    have hc : HeaderAt h.mem c := hbs c List.mem_cons_self
    have hcb := htc.le
    simp only [Block.stop] at hca hcb
    have hstat : h.status (b.stop 8) = if c.used then 1 else 0 := by
      rw [Heap.status, Block.stop, ← hca]; exact hc.status
    rw [mergeInto, hstat, absorb]
    by_cases hcu : c.used
    · simp only [hcu, ↓reduceIte, one_ne_zero, List.isEmpty_cons]
      exact ⟨h, rfl, rfl, rfl, hb, fun _ _ => rfl⟩
    · -- `c` is free: its size and header are added to `b`
      have hcu' : c.used = false := by simpa using hcu
      have hmag : h.magic (b.stop 8) = blockHeaderMagic := by
        rw [Heap.magic, Block.stop, ← hca]; exact hc.magic
      have hlt : ¬ b.stop 8 ≥ h.baseEnd := by simp only [Block.stop]; omega
      let d : Block := ⟨b.addr, b.size + 8 + c.size, false⟩
      have hsum : u32 (h.size b.addr + (h.size (b.stop 8) + sizeofBlockHeader)) = d.size := by
        rw [Heap.size, hb.size, Heap.size, Block.stop, ← hca, hc.size, sizeofBlockHeader, u32_of_lt]
        · simp only [d]; omega
        · omega
      obtain ⟨h1, hh1⟩ : ∃ h1, h1 = h.setSize b.addr d.size := ⟨_, rfl⟩
      have hend1 : h1.baseEnd = h.baseEnd := by rw [hh1, Heap.setSize]
      have hlive1 : h1.live = h.live := by rw [hh1, Heap.setSize]
      have hd : HeaderAt h1.mem d := by
        have hs := hb.setSize (n := d.size) (by simp only [d]; omega)
        rw [hu] at hs
        rw [hh1]
        exact hs
      have hkeep : ∀ x, x < b.addr ∨ b.addr + 4 ≤ x → h1.mem x = h.mem x := by
        intro x hx
        rw [hh1]
        exact storeLE_apply_of_lt hx
      have hrest : ∀ e ∈ cs, HeaderAt h1.mem e := by
        intro e he
        have hle := (htc.bounds.2 e he).1
        refine (hbs e (List.mem_cons_of_mem _ he)).congr fun x hx _ => hkeep x ?_
        simp only [Block.stop] at hle
        omega
      have hnext : u32 (b.stop 8 + (h1.size (b.stop 8) + sizeofBlockHeader)) = d.stop 8 := by
        have hsz : h1.size (b.stop 8) = c.size := by
          rw [Heap.size, loadLE_congr fun x hx _ => hkeep x (by simp only [Block.stop] at hx; omega),
            Block.stop, ← hca]
          exact hc.size
        rw [hsz, sizeofBlockHeader, u32_of_lt]
        · simp only [Block.stop, d]; omega
        · simp only [Block.stop]; omega
      have hstop : d.stop 8 = c.stop 8 := by simp only [Block.stop, d]; omega
      simp only [hcu', Bool.false_eq_true, ↓reduceIte, hlt, hmag, ne_eq, not_true_eq_false, hsum,
        ← hh1, hnext]
      cases cs with
      | nil =>
        have he : c.stop 8 = h.baseEnd := htc
        rw [if_pos (by rw [hstop, he, hend1])]
        exact ⟨h1, rfl, hend1, hlive1, hd, hkeep⟩
      | cons e es =>
        have hlt' : ¬ d.stop 8 ≥ h1.baseEnd := by
          have h2 := htc.2.le
          have h3 := htc.1
          rw [hstop, hend1]
          simp only [Block.stop] at h2 h3 ⊢
          omega
        rw [if_neg hlt']
        obtain ⟨h', hr, he, hl, hh, hm⟩ := ih (b := d) (h := h1)
          (by rw [hstop, hend1]; exact htc) hd rfl hrest (by simp) (by simpa using hf)
          (hend1 ▸ hend)
        refine ⟨h', hr, he.trans hend1, hl.trans hlive1, hh, fun x hx => ?_⟩
        rw [hm x hx, hkeep x hx]

theorem mergeFrom_spec {fuel a : ℕ} {bs : List Block} {h : Heap}
    (ht : Tiles 8 a bs h.baseEnd) (hbs : ∀ b ∈ bs, HeaderAt h.mem b) (hf : bs.length < fuel)
    (hend : h.baseEnd < 2 ^ 32) :
    ∃ h', mergeFrom fuel a h = .ok h' ∧ h'.baseEnd = h.baseEnd ∧ h'.live = h.live ∧
      (∀ b ∈ coalesce 8 bs, HeaderAt h'.mem b) ∧
      ∀ x, (∀ b ∈ bs, b.used = false → x < b.addr ∨ b.addr + 8 ≤ x) → h'.mem x = h.mem x := by
  induction fuel generalizing a bs h with
  | zero => omega
  | succ fuel ih =>
    cases bs with
    | nil =>
      have he : a = h.baseEnd := ht
      rw [mergeFrom, if_neg (by omega)]
      exact ⟨h, rfl, rfl, rfl, by simp, fun _ _ => rfl⟩
    | cons b bs =>
      obtain ⟨rfl, htb⟩ := ht
      have hb : HeaderAt h.mem b := hbs b List.mem_cons_self
      have hrest : ∀ c ∈ bs, HeaderAt h.mem c := fun c hc => hbs c (List.mem_cons_of_mem _ hc)
      have hstop : b.stop 8 ≤ h.baseEnd := htb.le
      have hlt : b.addr < h.baseEnd := by simp only [Block.stop] at hstop; omega
      have hmag : ¬ h.magic b.addr ≠ blockHeaderMagic := by
        rw [Heap.magic, hb.magic]; exact not_not.mpr rfl
      have hstat : h.status b.addr = if b.used then 1 else 0 := hb.status
      have hnext : u32 (b.addr + (h.size b.addr + sizeofBlockHeader)) = b.stop 8 := by
        rw [Heap.size, hb.size, sizeofBlockHeader, u32_of_lt]
        · simp only [Block.stop]; omega
        · simp only [Block.stop] at hstop; omega
      rw [mergeFrom, if_pos hlt, if_neg hmag, hstat]
      by_cases hu : b.used
      · -- a reserved block is skipped
        rw [if_pos (by simp [hu]), hnext]
        obtain ⟨h', hr, he, hl, hh, hm⟩ := ih htb hrest (by simpa using hf) hend
        refine ⟨h', hr, he, hl, ?_, fun x hx => hm x fun c hc => hx c (List.mem_cons_of_mem _ hc)⟩
        rw [coalesce_cons, glue_of_used hu]
        intro c hc
        rcases List.mem_cons.mp hc with rfl | hc
        · refine hb.congr fun x hx hx' => hm x fun d hd _ => .inl ?_
          have := (htb.bounds.2 d hd).1
          simp only [Block.stop] at this
          omega
        · exact hh c hc
      · have hu' : b.used = false := by simpa using hu
        rw [if_neg (by simp [hu'])]
        have hnext' : u32 (b.addr + h.size b.addr + sizeofBlockHeader) = b.stop 8 := by
          rw [← hnext, Nat.add_assoc]
        simp only [hnext']
        cases bs with
        | nil =>
          have he : b.stop 8 = h.baseEnd := htb
          rw [if_pos he.ge]
          exact ⟨h, rfl, rfl, rfl, by simpa [glue] using hb, fun _ _ => rfl⟩
        | cons c cs =>
          have hlt' : ¬ b.stop 8 ≥ h.baseEnd := by
            have h1 := htb.1
            have h2 := htb.2.le
            simp only [Block.stop] at h1 h2 ⊢
            omega
          have hlen : (c :: cs).length ≤ loopFuel := by
            have := htb.bounds.1
            unfold loopFuel
            omega
          obtain ⟨h1, hr, he, hl, hh, hm⟩ := mergeInto_spec htb hb hu' hrest (by simp) hlen hend
          rw [if_neg hlt', hr]
          have hsuf : (absorb 8 b (c :: cs)).2 <:+ c :: cs := absorb_suffix _ _
          have htd : Tiles 8 b.addr ((absorb 8 b (c :: cs)).1 :: (absorb 8 b (c :: cs)).2) h.baseEnd :=
            tiles_absorb ⟨rfl, htb⟩
          have hda : (absorb 8 b (c :: cs)).1.addr = b.addr := absorb_addr _ _
          have hdu : (absorb 8 b (c :: cs)).1.used = false := absorb_free hu' _
          rw [coalesce_absorb hu']
          generalize (absorb 8 b (c :: cs)).1 = d at *
          generalize (absorb 8 b (c :: cs)).2 = ds at *
          have hds : ∀ e ∈ ds, HeaderAt h1.mem e := by
            intro e he'
            have hmem := hsuf.subset he'
            have hle := (htb.bounds.2 e hmem).1
            refine (hrest e hmem).congr fun x hx _ => hm x ?_
            simp only [Block.stop] at hle
            omega
          have hfree : ∀ x, (∀ e ∈ b :: c :: cs, e.used = false → x < e.addr ∨ e.addr + 8 ≤ x) →
              h1.mem x = h.mem x := by
            intro x hx
            have := hx b List.mem_cons_self hu'
            exact hm x (by omega)
          cases ds with
          | nil =>
            refine ⟨h1, rfl, he, hl, ?_, hfree⟩
            simpa using hh
          | cons e es =>
            have hnd : u32 (b.addr + (h1.size b.addr + sizeofBlockHeader)) = d.stop 8 := by
              have := htd.2.le
              rw [Heap.size, ← hda, hh.size, sizeofBlockHeader, u32_of_lt]
              · simp only [Block.stop]; omega
              · simp only [Block.stop] at this; omega
            simp only [ok_bind, List.isEmpty_cons, Bool.false_eq_true, ↓reduceIte, hnd]
            obtain ⟨h2, hr2, he2, hl2, hh2, hm2⟩ := ih (h := h1) (he ▸ htd.2) hds
              (by have := hsuf.length_le; simp only [List.length_cons] at *; omega) (he ▸ hend)
            refine ⟨h2, hr2, he2.trans he, hl2.trans hl, ?_, ?_⟩
            · intro f hf'
              rcases List.mem_cons.mp hf' with rfl | hf'
              · refine hh.congr fun x hx hx' => hm2 x fun g hg _ => .inl ?_
                have := (htd.2.bounds.2 g hg).1
                simp only [Block.stop] at this
                omega
              · exact hh2 f hf'
            · intro x hx
              rw [hm2 x fun g hg hgu => hx g (List.mem_cons_of_mem _ (hsuf.subset hg)) hgu]
              exact hfree x hx

/-! ## The heap invariant -/

/-- The bytes of `h` describe the layout `bs`, and the reserved blocks are the
live allocations. -/
structure Laid (h : Heap) (bs : List Block) : Prop where
  tiles : Tiles 8 kheapBaseStart bs h.baseEnd
  headers : ∀ b ∈ bs, HeaderAt h.mem b
  aligned : ∀ b ∈ bs, 4 ∣ b.size
  live : ∀ p, p ∈ h.live ↔ ∃ b ∈ bs, b.used ∧ p = b.addr + 8
  nodup : h.live.Nodup
  start_lt : kheapBaseStart < h.baseEnd
  bound : h.baseEnd ≤ freeKvmStart + 0x400000

structure HeapInv (h : Heap) (bs : List Block) : Prop extends Laid h bs where
  canonical : Canonical bs

/-- No byte of a reserved block differs, the header included. -/
def SameUsed (bs : List Block) (h h' : Heap) : Prop :=
  ∀ b ∈ bs, b.used → ∀ x, b.addr ≤ x → x < b.stop 8 → h'.mem x = h.mem x

theorem Laid.end_lt {h : Heap} {bs : List Block} (hl : Laid h bs) : h.baseEnd < 2 ^ 32 := by
  have := hl.bound
  unfold freeKvmStart at this
  omega

theorem Laid.length_lt {h : Heap} {bs : List Block} (hl : Laid h bs) : bs.length < loopFuel := by
  have h1 := hl.tiles.bounds.1
  have h2 := hl.end_lt
  unfold loopFuel
  omega

theorem Laid.mergeFreeBlocks_ok {h : Heap} {bs : List Block} (hl : Laid h bs) :
    ∃ h', mergeFreeBlocks h = .ok h' ∧ HeapInv h' (coalesce 8 bs) ∧
      h'.baseEnd = h.baseEnd ∧ h'.live = h.live ∧ SameUsed bs h h' := by
  obtain ⟨h', hr, he, hlv, hh, hm⟩ := mergeFrom_spec hl.tiles hl.headers hl.length_lt hl.end_lt
  refine ⟨h', hr, ⟨⟨?_, hh, ?_, ?_, ?_, ?_, ?_⟩, canonical_coalesce bs⟩, he, hlv, ?_⟩
  · rw [he]; exact tiles_coalesce hl.tiles
  · exact dvd_size_coalesce (by norm_num) hl.aligned
  · intro p
    rw [hlv, hl.live]
    constructor
    · rintro ⟨b, hb, hu, hp⟩; exact ⟨b, (mem_coalesce_of_used hu).mpr hb, hu, hp⟩
    · rintro ⟨b, hb, hu, hp⟩; exact ⟨b, (mem_coalesce_of_used hu).mp hb, hu, hp⟩
  · rw [hlv]; exact hl.nodup
  · rw [he]; exact hl.start_lt
  · rw [he]; exact hl.bound
  · intro b hb hu x hx hx'
    refine hm x fun c hc hcu => ?_
    have hne : b ≠ c := by
      intro h
      rw [h, hcu] at hu
      cases hu
    have := hl.tiles.apart hb hc hne
    simp only [Block.stop] at this hx'
    omega

/-! ## Reserving a block -/

theorem kmallocScan_eq {h : Heap} {n fuel a : ℕ} {bs : List Block}
    (ht : Tiles 8 a bs h.baseEnd) (hbs : ∀ b ∈ bs, HeaderAt h.mem b) (hf : bs.length < fuel)
    (hend : h.baseEnd < 2 ^ 32) :
    kmallocScan h n fuel a =
      .ok ((bs.find? (Block.fits n)).map fun b => (b.addr + 8, takeBlock h b.addr n)) := by
  induction fuel generalizing a bs with
  | zero => omega
  | succ fuel ih =>
    cases bs with
    | nil =>
      have he : a = h.baseEnd := ht
      rw [kmallocScan, if_neg (by omega)]
      rfl
    | cons b bs =>
      obtain ⟨rfl, htb⟩ := ht
      have hb : HeaderAt h.mem b := hbs b List.mem_cons_self
      have hstop : b.stop 8 ≤ h.baseEnd := htb.le
      simp only [Block.stop] at hstop
      have hmag : ¬ h.magic b.addr ≠ blockHeaderMagic := by
        rw [Heap.magic, hb.magic]; exact not_not.mpr rfl
      have hfit : (h.status b.addr = 0 ∧ h.size b.addr ≥ n) ↔ b.fits n = true := by
        rw [Heap.status, hb.status, Heap.size, hb.size, Block.fits_iff]
        cases b.used <;> simp
      rw [kmallocScan, if_pos (by omega), if_neg hmag, List.find?_cons]
      by_cases hfits : b.fits n = true
      · rw [if_pos (hfit.mpr hfits), hfits, sizeofBlockHeader, u32_of_lt (by omega)]
        rfl
      · have hnext : u32 (b.addr + (h.size b.addr + sizeofBlockHeader)) = b.stop 8 := by
          rw [Heap.size, hb.size, sizeofBlockHeader, u32_of_lt (by omega)]
          simp only [Block.stop]; omega
        rw [if_neg (fun hc => hfits (hfit.mp hc)), hnext]
        have hfits' : b.fits n = false := Bool.eq_false_iff.mpr hfits
        rw [hfits']
        exact ih htb (fun c hc => hbs c (List.mem_cons_of_mem _ hc)) (by simpa using hf)

theorem takeBlock_live {h : Heap} {i n : ℕ} :
    (takeBlock h i n).live = u32 (i + 8) :: h.live := by
  unfold takeBlock
  dsimp only
  split_ifs <;> rfl

theorem takeBlock_baseEnd {h : Heap} {i n : ℕ} : (takeBlock h i n).baseEnd = h.baseEnd := by
  unfold takeBlock
  dsimp only
  split_ifs <;> rfl

/-- Both outcomes of the split test, as the carved blocks. -/
theorem takeBlock_headers {h : Heap} {b : Block} {n : ℕ} (hb : HeaderAt h.mem b)
    (hn : n ≤ b.size) (hstop : b.stop 8 < 2 ^ 32) :
    (∀ c ∈ carve 8 b n, HeaderAt (takeBlock h b.addr n).mem c) ∧
      ∀ x, x < b.addr ∨ b.stop 8 ≤ x → (takeBlock h b.addr n).mem x = h.mem x := by
  have hs : h.size b.addr = b.size := hb.size
  simp only [Block.stop] at hstop ⊢
  unfold takeBlock carve
  rw [hs, sizeofBlockHeader]
  dsimp only
  split_ifs with hsplit
  · have hr := hb.setSize (n := n) (by omega)
    have hnew : u32 (b.addr + 8 + (h.setSize b.addr n).size b.addr) = b.addr + 8 + n := by
      rw [Heap.size, Heap.setSize, loadLE_storeLE_of_lt (by norm_num; omega), u32_of_lt (by omega)]
    rw [hnew]
    let c : Block := ⟨b.addr + 8 + n, b.size - n - 8, false⟩
    let m1 := storeLE h.mem b.addr 4 n
    let m2 := storeLE (storeLE (storeLE m1 (c.addr + 4) 2 blockHeaderMagic) c.addr 4 c.size)
      (c.addr + 6) 2 0
    have hkeep : ∀ x, x < b.addr + 8 + n ∨ b.addr + 8 + n + 8 ≤ x → m2 x = m1 x := by
      intro x hx
      simp only [m2, c]
      rw [storeLE_apply_of_lt (by omega), storeLE_apply_of_lt (by omega),
        storeLE_apply_of_lt (by omega)]
    have hb2 : HeaderAt m2 ⟨b.addr, n, b.used⟩ :=
      hr.congr fun x _ hx => hkeep x (by dsimp only at hx; omega)
    have hc2 : HeaderAt m2 c := headerAt_store (b := c) (by dsimp only [c]; omega)
    refine ⟨?_, ?_⟩
    · intro d hd
      rcases List.mem_cons.mp hd with rfl | hd
      · exact hb2.setStatus (u := true)
      · rw [List.mem_singleton.mp hd]
        refine hc2.congr fun x hx _ => storeLE_apply_of_lt ?_
        dsimp only [c] at hx
        omega
    · intro x hx
      change storeLE m2 (b.addr + 6) 2 1 x = h.mem x
      rw [storeLE_apply_of_lt (by omega), hkeep x (by omega)]
      exact storeLE_apply_of_lt (by omega)
  · refine ⟨?_, fun x hx => storeLE_apply_of_lt (by omega)⟩
    intro d hd
    rw [List.mem_singleton.mp hd]
    exact hb.setStatus (u := true)

theorem mem_carve_used {b c : Block} {n : ℕ} :
    (c ∈ carve 8 b n ∧ c.used) → c.addr = b.addr := by
  unfold carve
  split_ifs
  · simp only [List.mem_cons, List.not_mem_nil, or_false]
    rintro ⟨rfl | rfl, hu⟩
    · rfl
    · cases hu
  · simp only [List.mem_cons, List.not_mem_nil, or_false]
    rintro ⟨rfl, _⟩
    rfl

theorem exists_carve_used {b : Block} {n : ℕ} (hn : n ≤ b.size) :
    ∃ c ∈ carve 8 b n, c.used ∧ c.addr = b.addr ∧ n ≤ c.size := by
  unfold carve
  split_ifs
  · exact ⟨⟨b.addr, n, true⟩, by simp, rfl, rfl, le_rfl⟩
  · exact ⟨⟨b.addr, b.size, true⟩, by simp, rfl, rfl, hn⟩

theorem HeapInv.takeBlock_inv {h : Heap} (xs : List Block) {ys : List Block} {b : Block} (n : ℕ)
    (hi : HeapInv h (xs ++ b :: ys)) (hb : b.used = false) (hn : n ≤ b.size) (h4 : 4 ∣ n) :
    HeapInv (takeBlock h b.addr n) (xs ++ carve 8 b n ++ ys) ∧
      (∀ x, x < b.addr ∨ b.stop 8 ≤ x → (takeBlock h b.addr n).mem x = h.mem x) := by
  have hmem : b ∈ xs ++ b :: ys := by simp
  have hstop : b.stop 8 < 2 ^ 32 := ((hi.tiles.bounds.2 b hmem).2).trans_lt hi.end_lt
  obtain ⟨hcarve, hkeep⟩ := takeBlock_headers (hi.headers b hmem) hn hstop
  have hother : ∀ c, c ∈ xs ++ ys → c ∈ xs ++ b :: ys ∧
      (c.addr + 8 ≤ b.addr ∨ b.stop 8 ≤ c.addr) := by
    intro c hc
    obtain ⟨m, h1, h2, h3⟩ := tiles_append.mp hi.tiles
    rcases List.mem_append.mp hc with hc | hc
    · refine ⟨List.mem_append_left _ hc, .inl ?_⟩
      have := (h1.bounds.2 c hc).2
      simp only [Block.stop] at this
      omega
    · exact ⟨by simp [hc], .inr (h3.bounds.2 c hc).1⟩
  have hp8 : u32 (b.addr + 8) = b.addr + 8 := u32_of_lt (by simp only [Block.stop] at hstop; omega)
  refine ⟨⟨⟨?_, ?_, ?_, ?_, ?_, ?_, ?_⟩, canonical_carve hb hi.canonical⟩, hkeep⟩
  · rw [takeBlock_baseEnd]; exact tiles_carve hi.tiles
  · intro c hc
    rw [List.append_assoc, List.mem_append, List.mem_append] at hc
    have hc' : c ∈ carve 8 b n ∨ c ∈ xs ++ ys := by
      rw [List.mem_append]; tauto
    rcases hc' with hc | hc
    · exact hcarve c hc
    · obtain ⟨hm, hd⟩ := hother c hc
      refine (hi.headers c hm).congr fun x _ _ => hkeep x ?_
      omega
  · intro c hc
    rw [List.append_assoc, List.mem_append, List.mem_append] at hc
    have hbs : 4 ∣ b.size := hi.aligned b hmem
    rcases hc with hc | hc | hc
    · exact hi.aligned c (by simp [hc])
    · unfold carve at hc
      split_ifs at hc
      · simp only [List.mem_cons, List.not_mem_nil, or_false] at hc
        rcases hc with rfl | rfl
        · exact h4
        · dsimp only; omega
      · rw [List.mem_singleton.mp hc]; exact hbs
    · exact hi.aligned c (by simp [hc])
  · intro p
    rw [takeBlock_live, hp8, List.mem_cons, hi.live]
    constructor
    · rintro (rfl | ⟨c, hc, hu, rfl⟩)
      · obtain ⟨c, hc, hu, ha, -⟩ := exists_carve_used hn
        exact ⟨c, by simp [hc], hu, by rw [ha]⟩
      · have hne : c ≠ b := by
          rintro rfl
          rw [hb] at hu
          cases hu
        refine ⟨c, ?_, hu, rfl⟩
        simp only [List.mem_append, List.mem_cons, hne, false_or] at hc ⊢
        tauto
    · rintro ⟨c, hc, hu, rfl⟩
      rw [List.append_assoc, List.mem_append, List.mem_append] at hc
      rcases hc with hc | hc | hc
      · exact .inr ⟨c, by simp [hc], hu, rfl⟩
      · left; rw [mem_carve_used ⟨hc, hu⟩]
      · exact .inr ⟨c, by simp [hc], hu, rfl⟩
  · rw [takeBlock_live, hp8, List.nodup_cons]
    refine ⟨fun hm => ?_, hi.nodup⟩
    obtain ⟨c, hc, hu, hca⟩ := (hi.live _).mp hm
    have := hi.tiles.eq_of_addr_eq (by norm_num) hc hmem (by omega)
    rw [this, hb] at hu
    cases hu
  · rw [takeBlock_baseEnd]; exact hi.start_lt
  · rw [takeBlock_baseEnd]; exact hi.bound

/-! ## Freeing a block -/

/-- `kfree` up to the merge: the status of one reserved block is cleared. -/
theorem HeapInv.clearStatus {h : Heap} {bs : List Block} (hi : HeapInv h bs) {b : Block}
    (hb : b ∈ bs) :
    Laid { h.setStatus b.addr 0 with live := h.live.erase (b.addr + 8) } (release [b.addr] bs) := by
  have hrel : ∀ c ∈ bs, c.release [b.addr] = if c = b then { b with used := false } else c := by
    intro c hc
    unfold Block.release
    by_cases hca : c.addr = b.addr
    · rw [hi.tiles.eq_of_addr_eq (by norm_num) hc hb hca]
      simp
    · rw [if_neg (by simpa using hca), if_neg (fun h => hca (by rw [h]))]
  have hmemr : ∀ c, c ∈ release [b.addr] bs ↔ c = { b with used := false } ∨ c ∈ bs ∧ c ≠ b := by
    intro c
    unfold release
    rw [List.mem_map]
    constructor
    · rintro ⟨d, hd, rfl⟩
      rw [hrel d hd]
      split_ifs with hdb
      · exact .inl rfl
      · exact .inr ⟨hd, hdb⟩
    · rintro (rfl | ⟨hc, hne⟩)
      · exact ⟨b, hb, by rw [hrel b hb, if_pos rfl]⟩
      · exact ⟨c, hc, by rw [hrel c hc, if_neg hne]⟩
  refine ⟨tiles_release hi.tiles _, ?_, ?_, ?_, hi.nodup.erase _, hi.start_lt, hi.bound⟩
  · intro c hc
    rcases (hmemr c).mp hc with rfl | ⟨hc, hne⟩
    · exact (hi.headers b hb).setStatus (u := false)
    · refine (hi.headers c hc).congr fun x hx hx' => storeLE_apply_of_lt ?_
      have := hi.tiles.apart hc hb hne
      simp only [Block.stop] at this
      omega
  · intro c hc
    rcases (hmemr c).mp hc with rfl | ⟨hc, _⟩
    · exact hi.aligned b hb
    · exact hi.aligned c hc
  · intro p
    rw [hi.nodup.mem_erase_iff, hi.live]
    constructor
    · rintro ⟨hne, c, hc, hcu, rfl⟩
      exact ⟨c, (hmemr c).mpr (.inr ⟨hc, fun h => hne (by rw [h])⟩), hcu, rfl⟩
    · rintro ⟨c, hc, hcu, rfl⟩
      rcases (hmemr c).mp hc with rfl | ⟨hc, hne⟩
      · cases hcu
      · refine ⟨fun h => hne ?_, c, hc, hcu, rfl⟩
        exact hi.tiles.eq_of_addr_eq (by norm_num) hc hb (by omega)

theorem HeapInv.kfree_ok {h : Heap} {bs : List Block} (hi : HeapInv h bs) {p : ℕ} (hp : p ∈ h.live) :
    ∃ h', kfree p h = .ok h' ∧ HeapInv h' (coalesce 8 (release [p - 8] bs)) ∧
      h'.baseEnd = h.baseEnd ∧ h'.live = h.live.erase p ∧
      ∀ b ∈ bs, b.used → b.addr + 8 ≠ p → ∀ x, b.addr ≤ x → x < b.stop 8 → h'.mem x = h.mem x := by
  obtain ⟨b, hb, -, rfl⟩ := (hi.live p).mp hp
  obtain ⟨h', hr, hi', he, hl, hs⟩ := (hi.clearStatus hb).mergeFreeBlocks_ok
  have hmag : ¬ h.magic b.addr ≠ blockHeaderMagic := by
    rw [Heap.magic, (hi.headers b hb).magic]; exact not_not.mpr rfl
  refine ⟨h', ?_, hi', he, hl, ?_⟩
  · rw [kfree, sizeofBlockHeader, Nat.add_sub_cancel]
    dsimp only
    rw [if_neg hmag]
    exact hr
  · intro c hc hcu hne x hx hx'
    have hcb : c ≠ b := fun h => hne (by rw [h])
    have hmem : c ∈ release [b.addr] bs := by
      refine List.mem_map.mpr ⟨c, hc, ?_⟩
      unfold Block.release
      rw [if_neg]
      intro h
      exact hcb (hi.tiles.eq_of_addr_eq (by norm_num) hc hb (by simpa using h))
    rw [hs c hmem hcu x hx hx']
    apply storeLE_apply_of_lt
    have := hi.tiles.apart hc hb hcb
    simp only [Block.stop] at this hx'
    omega

/-! ## Writing into a payload -/

theorem HeapInv.write_inv {h : Heap} {bs : List Block} (hi : HeapInv h bs) {b : Block}
    (hb : b ∈ bs) {m : Mem} (hm : ∀ x, x < b.addr + 8 ∨ b.stop 8 ≤ x → m x = h.mem x) :
    HeapInv { h with mem := m } bs := by
  refine ⟨⟨hi.tiles, ?_, hi.aligned, hi.live, hi.nodup, hi.start_lt, hi.bound⟩, hi.canonical⟩
  intro c hc
  refine (hi.headers c hc).congr fun x hx hx' => hm x ?_
  by_cases hcb : c = b
  · rw [hcb] at hx'
    exact .inl hx'
  · have := hi.tiles.apart hc hb hcb
    simp only [Block.stop] at this ⊢
    omega

/-! ## Installing and growing -/

theorem HeapInv.addBaseBlock_ok {h : Heap} {bs : List Block} (hi : HeapInv h bs)
    (hlt : h.baseEnd < freeKvmStart) :
    ∃ h', addBaseBlock h = .ok h' ∧
      HeapInv h' (coalesce 8 (bs ++ [⟨h.baseEnd, 0x400000 - 8, false⟩])) ∧
      h'.baseEnd = h.baseEnd + 0x400000 ∧ h'.live = h.live ∧ SameUsed bs h h' := by
  unfold freeKvmStart at hlt
  let b : Block := ⟨h.baseEnd, 0x400000 - 8, false⟩
  let m := storeLE (storeLE (storeLE h.mem (b.addr + 4) 2 blockHeaderMagic) b.addr 4 b.size)
    (b.addr + 6) 2 0
  have hkeep : ∀ x, x < h.baseEnd → m x = h.mem x := by
    intro x hx
    simp only [m, b]
    rw [storeLE_apply_of_lt (by omega), storeLE_apply_of_lt (by omega),
      storeLE_apply_of_lt (by omega)]
  have hend : u32 (h.baseEnd + 0x400000) = h.baseEnd + 0x400000 := u32_of_lt (by omega)
  have hlaid : Laid { h with mem := m, baseEnd := u32 (h.baseEnd + 0x400000) } (bs ++ [b]) := by
    refine ⟨?_, ?_, ?_, ?_, hi.nodup, ?_, ?_⟩
    · refine tiles_append.mpr ⟨h.baseEnd, hi.tiles, rfl, ?_⟩
      have hb : b.stop 8 = h.baseEnd + 0x400000 := by
        change h.baseEnd + 8 + (0x400000 - 8) = h.baseEnd + 0x400000
        omega
      exact hb.trans hend.symm
    · intro c hc
      rcases List.mem_append.mp hc with hc | hc
      · refine (hi.headers c hc).congr fun x _ hx => hkeep x ?_
        have := (hi.tiles.bounds.2 c hc).2
        simp only [Block.stop] at this
        omega
      · rw [List.mem_singleton.mp hc]
        exact headerAt_store (b := b) (by dsimp only [b]; omega)
    · intro c hc
      rcases List.mem_append.mp hc with hc | hc
      · exact hi.aligned c hc
      · rw [List.mem_singleton.mp hc]
        norm_num [b]
    · intro p
      rw [hi.live]
      constructor
      · rintro ⟨c, hc, hu, rfl⟩; exact ⟨c, List.mem_append_left _ hc, hu, rfl⟩
      · rintro ⟨c, hc, hu, rfl⟩
        rcases List.mem_append.mp hc with hc | hc
        · exact ⟨c, hc, hu, rfl⟩
        · rw [List.mem_singleton.mp hc] at hu
          cases hu
    · have := hi.start_lt
      dsimp only
      omega
    · dsimp only
      rw [hend]
      unfold freeKvmStart
      omega
  obtain ⟨h', hr, hi', he, hl, hs⟩ := hlaid.mergeFreeBlocks_ok
  have hadd : addBaseBlock h =
      mergeFreeBlocks { h with mem := m, baseEnd := u32 (h.baseEnd + 0x400000) } := by
    rw [addBaseBlock, sizeofBlockHeader]
    rfl
  refine ⟨h', hadd.trans hr, hi', he.trans hend, hl, ?_⟩
  intro c hc hu x hx hx'
  rw [hs c (List.mem_append_left _ hc) hu x hx hx']
  exact hkeep x (lt_of_lt_of_le hx' (hi.tiles.bounds.2 c hc).2)

theorem heapInv_kheapInstall (h : Heap) :
    HeapInv (kheapInstall h) [⟨kheapBaseStart, kheapBaseSize - 8, false⟩] := by
  let b : Block := ⟨kheapBaseStart, kheapBaseSize - 8, false⟩
  have hend : (kheapInstall h).baseEnd = kheapBaseStart + kheapBaseSize := rfl
  have hlive : (kheapInstall h).live = [] := rfl
  refine ⟨⟨?_, ?_, ?_, ?_, ?_, ?_, ?_⟩, .singleton _⟩
  · rw [hend]
    norm_num [Tiles, Block.stop, kheapBaseStart, kheapBaseSize]
  · intro c hc
    rw [List.mem_singleton.mp hc]
    have hb := headerAt_store (m := fill h.mem kheapBaseStart kheapBaseSize 0) (b := b)
      (by norm_num [b, kheapBaseSize])
    have hs : kheapBaseStart + kheapBaseSize - (kheapBaseStart + sizeofBlockHeader) =
        kheapBaseSize - 8 := by norm_num [kheapBaseStart, kheapBaseSize, sizeofBlockHeader]
    simp only [kheapInstall, Heap.setMagic, Heap.setSize, Heap.setStatus, hs]
    exact hb
  · intro c hc
    rw [List.mem_singleton.mp hc]
    norm_num [kheapBaseSize]
  · intro p
    simp [hlive]
  · rw [hlive]; exact .nil
  · rw [hend]
    norm_num [kheapBaseSize]
  · rw [hend]
    norm_num [kheapBaseStart, kheapBaseSize, freeKvmStart]

/-! ## Reading the blocks back -/

/-- Address, size and status of the blocks met by following the headers. -/
def Heap.blocksFrom (h : Heap) : ℕ → ℕ → List (ℕ × ℕ × ℕ)
  | 0, _ => []
  | fuel + 1, i =>
    if i < h.baseEnd then
      (i, h.size i, h.status i) ::
        h.blocksFrom fuel (u32 (i + (h.size i + sizeofBlockHeader)))
    else []

def Heap.blocks (h : Heap) : List (ℕ × ℕ × ℕ) := h.blocksFrom loopFuel kheapBaseStart

theorem blocksFrom_eq {h : Heap} {fuel a : ℕ} {bs : List Block}
    (ht : Tiles 8 a bs h.baseEnd) (hbs : ∀ b ∈ bs, HeaderAt h.mem b) (hf : bs.length < fuel)
    (hend : h.baseEnd < 2 ^ 32) :
    h.blocksFrom fuel a = bs.map fun b => (b.addr, b.size, if b.used then 1 else 0) := by
  induction fuel generalizing a bs with
  | zero => omega
  | succ fuel ih =>
    cases bs with
    | nil =>
      have he : a = h.baseEnd := ht
      rw [Heap.blocksFrom, if_neg (by omega), List.map_nil]
    | cons b bs =>
      obtain ⟨rfl, htb⟩ := ht
      have hb : HeaderAt h.mem b := hbs b List.mem_cons_self
      have hstop : b.stop 8 ≤ h.baseEnd := htb.le
      have hsize : h.size b.addr = b.size := hb.size
      have hstatus : h.status b.addr = if b.used then 1 else 0 := hb.status
      have hnext : u32 (b.addr + (b.size + sizeofBlockHeader)) = b.stop 8 := by
        simp only [Block.stop] at hstop ⊢
        rw [sizeofBlockHeader, u32_of_lt (by omega)]
        omega
      rw [Heap.blocksFrom, if_pos (by simp only [Block.stop] at hstop; omega), hsize, hstatus,
        hnext, List.map_cons]
      rw [ih htb (fun c hc => hbs c (List.mem_cons_of_mem _ hc)) (by simpa using hf)]

theorem Laid.blocks_eq {h : Heap} {bs : List Block} (hl : Laid h bs) :
    h.blocks = bs.map fun b => (b.addr, b.size, if b.used then 1 else 0) :=
  blocksFrom_eq hl.tiles hl.headers hl.length_lt hl.end_lt

/-! ## What a live allocation keeps -/

/-- The allocation `p` keeps its size and its bytes from `h` to `h'`. -/
structure KeepsAt (h h' : Heap) (p : ℕ) : Prop where
  size : h'.size (p - 8) = h.size (p - 8)
  magic : h'.magic (p - 8) = h.magic (p - 8)
  payload : ∀ x, p ≤ x → x < p + h.size (p - 8) → h'.mem x = h.mem x

/-- Every allocation that is live in `h` is live in `h'` and keeps its size and
its bytes. -/
def Keeps (h h' : Heap) : Prop := ∀ p ∈ h.live, p ∈ h'.live ∧ KeepsAt h h' p

theorem KeepsAt.trans {h1 h2 h3 : Heap} {p : ℕ} (h : KeepsAt h1 h2 p) (h' : KeepsAt h2 h3 p) :
    KeepsAt h1 h3 p where
  size := h'.size.trans h.size
  magic := h'.magic.trans h.magic
  payload x hx hx' := (h'.payload x hx (by rw [h.size]; exact hx')).trans (h.payload x hx hx')

theorem Keeps.refl (h : Heap) : Keeps h h := fun _ hp => ⟨hp, rfl, rfl, fun _ _ _ => rfl⟩

theorem Keeps.trans {h1 h2 h3 : Heap} (h : Keeps h1 h2) (h' : Keeps h2 h3) : Keeps h1 h3 := by
  intro p hp
  obtain ⟨hp2, hk⟩ := h p hp
  obtain ⟨hp3, hk'⟩ := h' p hp2
  exact ⟨hp3, hk.trans hk'⟩

theorem HeapInv.size_eq {h : Heap} {bs : List Block} (hi : HeapInv h bs) {b : Block}
    (hb : b ∈ bs) : h.size (b.addr + 8 - 8) = b.size := (hi.headers b hb).size

theorem HeapInv.keepsAt {h h' : Heap} {bs : List Block} (hi : HeapInv h bs) {b : Block}
    (hb : b ∈ bs) (hs : ∀ x, b.addr ≤ x → x < b.stop 8 → h'.mem x = h.mem x) :
    KeepsAt h h' (b.addr + 8) where
  size := loadLE_congr fun x hx hx' => hs x (by omega) (by simp only [Block.stop]; omega)
  magic := loadLE_congr fun x hx hx' => hs x (by omega) (by simp only [Block.stop]; omega)
  payload x hx hx' := by
    rw [hi.size_eq hb] at hx'
    exact hs x (by omega) (by simp only [Block.stop]; omega)

theorem HeapInv.keeps {h h' : Heap} {bs : List Block} (hi : HeapInv h bs) (hs : SameUsed bs h h')
    (hl : ∀ p ∈ h.live, p ∈ h'.live) : Keeps h h' := by
  intro p hp
  obtain ⟨b, hb, hu, rfl⟩ := (hi.live p).mp hp
  exact ⟨hl _ hp, hi.keepsAt hb (hs b hb hu)⟩

end VkKernel
