import VkKernel.Ext2Alloc

/-!
# Runs of block allocations

Bit `k` of the block bitmap of group `i` stands for the block
`superblock_number + i*blocks_per_blockgroup + k`. What an allocation returns
and which byte a release clears decide whether the bitmaps follow the blocks.
-/

namespace VkKernel.Ext2
open ByteMemory PackedStruct IntervalUpdate Bitmap Trace

/-- The number of blocks of group `i`. -/
def Fs.groupBlocks (fs : Fs) (i : ℕ) : ℕ :=
  min fs.blocksPerBlockgroup
    (Superblock.blocks.get fs.superblock - fs.superblockNumber - i * fs.blocksPerBlockgroup)

/-- Bit `k` of group `i` stands for the block `b`. -/
structure IsBlock (fs : Fs) (i k b : ℕ) : Prop where
  group : i < fs.blockgroupCount
  bit : k < fs.groupBlocks i
  eq : b = fs.superblockNumber + i * fs.blocksPerBlockgroup + k

theorem IsBlock.lt {fs : Fs} {i k b : ℕ} (h : IsBlock fs i k b) : b < 2 ^ 32 := by
  have hb := Superblock.blocks.get_lt fs.superblock
  have hk := h.bit
  have heq := h.eq
  unfold Fs.groupBlocks at hk
  change _ < 2 ^ 32 at hb
  omega

theorem IsBlock.unique {fs : Fs} {i k i' k' b : ℕ} (h : IsBlock fs i k b)
    (h' : IsBlock fs i' k' b) : i = i' ∧ k = k' := by
  have hk : k < fs.blocksPerBlockgroup := lt_of_lt_of_le h.bit (min_le_left _ _)
  have hk' : k' < fs.blocksPerBlockgroup := lt_of_lt_of_le h'.bit (min_le_left _ _)
  have heq : k + fs.blocksPerBlockgroup * i = k' + fs.blocksPerBlockgroup * i' := by
    have h1 := h.eq
    have h2 := h'.eq
    rw [Nat.mul_comm fs.blocksPerBlockgroup, Nat.mul_comm fs.blocksPerBlockgroup]
    omega
  have hdiv : i = i' := by
    have := congrArg (· / fs.blocksPerBlockgroup) heq
    simp only [Nat.add_mul_div_left _ _ (show 0 < fs.blocksPerBlockgroup by omega),
      Nat.div_eq_of_lt hk, Nat.div_eq_of_lt hk', Nat.zero_add] at this
    exact this
  subst hdiv
  exact ⟨rfl, by omega⟩

/-- A volume whose block bitmaps lie at `addr`. The bits behind the blocks of a
group are set. -/
structure BlockVolume (fs : Fs) (addr : ℕ → ℕ) (disk : Mem) : Prop where
  geometry : Geometry fs addr
  maps : MapsAt fs blockUsage addr disk
  blocks_pos : 0 < fs.blocksPerBlockgroup
  blocks_le : fs.blocksPerBlockgroup ≤ 8 * fs.blockSize
  padding : ∀ i k, i < fs.blockgroupCount → fs.groupBlocks i ≤ k → k < 8 * fs.blockSize →
    mapBit addr disk i k = true

/-- The volume, the disk, and the blocks in use: those that have been in use from
the start or returned by an allocation, and not been freed since. -/
structure BlockState where
  fs : Fs
  disk : Mem
  used : ℕ → Bool

inductive BlockOp
  | alloc
  | free (block : ℕ)

namespace BlockState
variable (B : BlockLayer) (addr : ℕ → ℕ)

/-- Only blocks in use are freed. -/
def step (s : BlockState) : BlockOp → Option BlockState
  | .alloc =>
    let r := blockAlloc B s.fs s.disk
    some ⟨r.2.1, r.2.2, if r.1 = 0 then s.used else Function.update s.used r.1 true⟩
  | .free block =>
    if s.used block then
      some ⟨s.fs, blockFree B s.fs s.disk block, Function.update s.used block false⟩
    else none

/-- Every block in use has its bit set. -/
structure Good (s : BlockState) : Prop where
  volume : BlockVolume s.fs addr s.disk
  used : ∀ b, s.used b = true → ∃ i k, IsBlock s.fs i k b ∧ mapBit addr s.disk i k = true

/-- What is expected of a step from `s` to `t`: a block that is returned has not
been in use, its bit is set, and the bit of a block that is freed is cleared; no
other bit changes. -/
def StepExact (s : BlockState) (t : BlockState) : BlockOp → Prop
  | .alloc => ∀ b, (blockAlloc B s.fs s.disk).1 = b → b ≠ 0 → s.used b = false ∧
      ∃ i k, IsBlock s.fs i k b ∧ Flips s.fs addr s.disk t.disk i k true
  | .free b => ∃ i k, IsBlock s.fs i k b ∧ Flips s.fs addr s.disk t.disk i k false

/-- The group of the first clear bit has its inode table at `superblock_number`
(or the block number wraps to 0); the byte that is computed for a block to be
freed is the byte of its bit, and the other bits of this byte are clear. -/
def Careful (s : BlockState) : BlockOp → Prop
  | .alloc => ∀ i k, FirstFree blockUsage s.fs s.disk 0 i k →
      s.fs.starting s.disk i = s.fs.superblockNumber ∨
        u32 (i * s.fs.blocksPerBlockgroup + s.fs.starting s.disk i + k) = 0
  | .free b => ∀ i k, IsBlock s.fs i k b →
      s.fs.mapAddr blockUsage s.disk (b / s.fs.blocksPerBlockgroup) +
          b % s.fs.blocksPerBlockgroup / 8 = addr i + k / 8 ∧
        ∀ k', k' ≠ k → k' / 8 = k / 8 → mapBit addr s.disk i k' = false

end BlockState

section Steps
variable {B : BlockLayer} {addr : ℕ → ℕ} {fs : Fs} {disk : Mem}

theorem BlockVolume.bit_lt (h : BlockVolume fs addr disk) {i k : ℕ} (hi : i < fs.blockgroupCount)
    (hk : k < 8 * fs.blockSize) (hclear : mapBit addr disk i k = false) : k < fs.groupBlocks i := by
  by_contra hge
  have := h.padding i k hi (by omega) hk
  rw [this] at hclear
  cases hclear

theorem BlockVolume.noSentinel (h : BlockVolume fs addr disk) :
    NoSentinel blockUsage fs disk := by
  intro i k hi hk hclear
  rw [h.maps i hi] at hclear
  have hlt := h.bit_lt hi hk hclear
  have hb := Superblock.blocksPerBlockgroup.get_lt fs.superblock
  change fs.blocksPerBlockgroup < 2 ^ 32 at hb
  unfold Fs.groupBlocks at hlt
  omega

/-- The counters are not among the fields that the layout depends on. -/
theorem countDown_get (fs : Fs) (usage : Usage) {f : Field}
    (hf : f.offset + f.width ≤ 12 ∨ 20 ≤ f.offset) :
    f.get (fs.countDown usage).superblock = f.get fs.superblock := by
  apply Field.get_set_of_apart
  have h1 := usage.le_total
  have h2 := usage.total_le
  unfold Field.Apart
  omega

theorem countDown_groupBlocks (fs : Fs) (usage : Usage) :
    (fs.countDown usage).groupBlocks = fs.groupBlocks := by
  funext i
  unfold Fs.groupBlocks Fs.superblockNumber Fs.blocksPerBlockgroup
  rw [countDown_get fs usage (by decide), countDown_get fs usage (by decide),
    countDown_get fs usage (by decide)]

theorem countDown_blocksPerBlockgroup (fs : Fs) (usage : Usage) :
    (fs.countDown usage).blocksPerBlockgroup = fs.blocksPerBlockgroup :=
  countDown_get fs usage (by decide)

theorem isBlock_countDown (fs : Fs) (usage : Usage) (i k b : ℕ) :
    IsBlock (fs.countDown usage) i k b ↔ IsBlock fs i k b := by
  have hs : (fs.countDown usage).superblockNumber = fs.superblockNumber :=
    countDown_get fs usage (by decide)
  constructor
  · rintro ⟨h1, h2, h3⟩
    rw [countDown_groupBlocks] at h2
    rw [hs, countDown_blocksPerBlockgroup] at h3
    exact ⟨h1, h2, h3⟩
  · rintro ⟨h1, h2, h3⟩
    refine ⟨h1, ?_, ?_⟩
    · rw [countDown_groupBlocks]
      exact h2
    · rw [hs, countDown_blocksPerBlockgroup]
      exact h3

/-- An allocation finds no clear bit and does nothing, or it sets the first one. -/
theorem blockAlloc_cases (hB : B.Exact) (h : BlockVolume fs addr disk) :
    (blockAlloc B fs disk = (0, fs, disk) ∧ ∀ i k, ¬FirstFree blockUsage fs disk 0 i k) ∨
    ∃ i k disk', FirstFree blockUsage fs disk 0 i k ∧ k < fs.groupBlocks i ∧
      blockAlloc B fs disk =
        (u32 (i * fs.blocksPerBlockgroup + fs.starting disk i + k), fs.countDown blockUsage,
          disk') ∧
      BlockVolume (fs.countDown blockUsage) addr disk' ∧ Flips fs addr disk disk' i k true := by
  rcases allocLoop_cases (fun fs i starting bit =>
      u32 (u32 (i * fs.blocksPerBlockgroup + starting) + bit)) hB h.noSentinel fs.blockgroupCount 0
    (Nat.zero_add _) with ⟨heq, hfull⟩ | ⟨i, k, disk', hfree, heq, hall⟩
  · exact Or.inl ⟨heq, fun i k hf => hf.clear.not_full (hfull i (Nat.zero_le i) hf.lt)⟩
  · have hi := hfree.lt
    have hk := hfree.clear.lt
    have hclear : mapBit addr disk i k = false := by
      unfold mapBit
      rw [← h.maps i hi]
      exact hfree.clear.clear
    have hflips := hall.flips h.geometry h.maps hi hk hclear
    refine Or.inr ⟨i, k, disk', hfree, h.bit_lt hi hk hclear, ?_, ?_, hflips⟩
    · unfold blockAlloc
      rw [heq]
      unfold u32
      rw [Nat.mod_add_mod]
    · refine ⟨⟨h.geometry.apart, h.geometry.descriptors, h.geometry.superblock,
        h.geometry.superblock_descriptors⟩, hall.mapsAt h.geometry h.maps hi hk h.maps, ?_, ?_, ?_⟩
      · rw [countDown_blocksPerBlockgroup]
        exact h.blocks_pos
      · rw [countDown_blocksPerBlockgroup]
        exact h.blocks_le
      · intro j k' hj hge hk'
        rw [countDown_groupBlocks] at hge
        by_cases hsame : j = i ∧ k' = k
        · rw [hsame.1, hsame.2]
          exact hflips.after
        · rw [hflips.others j k' hj hk' (by omega)]
          exact h.padding j k' hj hge hk'

theorem blockFree_eq (hB : B.Exact) (hpos : 0 < fs.blocksPerBlockgroup)
    (hle : fs.blocksPerBlockgroup ≤ 8 * fs.blockSize) (disk : Mem) (b : ℕ) :
    blockFree B fs disk b =
      Function.update disk (fs.mapAddr blockUsage disk (b / fs.blocksPerBlockgroup) +
        b % fs.blocksPerBlockgroup / 8) 0 := by
  have hmod : b - b / fs.blocksPerBlockgroup * fs.blocksPerBlockgroup =
      b % fs.blocksPerBlockgroup := by
    have := Nat.div_add_mod b fs.blocksPerBlockgroup
    rw [Nat.mul_comm] at this
    omega
  have hlt := Nat.mod_lt b hpos
  unfold blockFree
  dsimp only
  rw [hmod, freeBit_eq hB _ (by omega)]

/-- Which block the first clear bit stands for, and which number is returned. -/
theorem isBlock_number_iff (fs : Fs) (disk : Mem) {i k : ℕ} (hi : i < fs.blockgroupCount)
    (hk : k < fs.groupBlocks i) :
    IsBlock fs i k (u32 (i * fs.blocksPerBlockgroup + fs.starting disk i + k)) ↔
      fs.starting disk i = fs.superblockNumber := by
  have hst : fs.starting disk i < 2 ^ 32 :=
    BlockGroupDescriptor.startingBlockAdress.get_lt _
  have hsb : fs.superblockNumber < 2 ^ 32 := Superblock.superblockNumber.get_lt _
  have hblock : IsBlock fs i k (fs.superblockNumber + i * fs.blocksPerBlockgroup + k) :=
    ⟨hi, hk, rfl⟩
  have hlt := hblock.lt
  constructor
  · intro h
    have heq := h.eq
    unfold u32 at heq
    omega
  · intro h
    refine ⟨hi, hk, ?_⟩
    rw [h, u32_of_lt (by omega)]
    omega

namespace BlockState
variable {s t : BlockState}

theorem allocExact_iff (hB : B.Exact) (hg : s.Good addr) (hstep : s.step B .alloc = some t) :
    StepExact B addr s t .alloc ↔ s.Careful addr .alloc := by
  obtain rfl := Option.some.inj hstep
  rcases blockAlloc_cases hB hg.volume with ⟨heq, hnone⟩ | ⟨i, k, disk', hfree, hk, heq, -, hflips⟩
  · constructor
    · exact fun _ i k hf => absurd hf (hnone i k)
    · intro _ b hb hne
      rw [heq] at hb
      exact absurd hb.symm hne
  · unfold StepExact Careful
    simp only [heq]
    have hi := hfree.lt
    have hnum := isBlock_number_iff s.fs s.disk hi hk
    constructor
    · intro h i' k' hfree'
      obtain rfl : i = i' := by
        rcases Nat.lt_trichotomy i i' with hlt | heq' | hlt
        · exact absurd (hfree'.full i (Nat.zero_le i) hlt) hfree.clear.not_full
        · exact heq'
        · exact absurd (hfree.full i' (Nat.zero_le i') hlt) hfree'.clear.not_full
      obtain rfl := hfree.clear.unique hfree'.clear
      by_cases h0 : u32 (i * s.fs.blocksPerBlockgroup + s.fs.starting s.disk i + k) = 0
      · exact Or.inr h0
      · left
        obtain ⟨-, j, l, hblock, hfl⟩ := h _ rfl h0
        -- the only bit that changes is the one that the search has found
        have hsame : j = i ∧ l = k := by
          by_contra hne
          have hl : l < s.fs.blocksPerBlockgroup := lt_of_lt_of_le hblock.bit (min_le_left _ _)
          have hle := hg.volume.blocks_le
          have h1 := hflips.others j l hblock.group (by omega) (by omega)
          rw [hfl.after, hfl.before] at h1
          cases h1
        rw [hsame.1, hsame.2] at hblock
        exact hnum.mp hblock
    · intro h b hb hne
      have hst := (h i k hfree).resolve_right (by rw [hb]; exact hne)
      have hblock := hnum.mpr hst
      rw [hb] at hblock
      refine ⟨?_, i, k, hblock, hflips⟩
      by_contra hused
      rw [Bool.not_eq_false] at hused
      obtain ⟨j, l, hblock', hset⟩ := hg.used b hused
      obtain ⟨rfl, rfl⟩ := hblock.unique hblock'
      have := hflips.before
      rw [hset] at this
      cases this

theorem step_free_eq {b : ℕ} (hstep : s.step B (.free b) = some t) :
    s.used b = true ∧
      t = ⟨s.fs, blockFree B s.fs s.disk b, Function.update s.used b false⟩ := by
  unfold step at hstep
  by_cases hused : s.used b = true
  · simp only [if_pos hused, Option.some.injEq] at hstep
    exact ⟨hused, hstep.symm⟩
  · simp only [if_neg hused] at hstep
    cases hstep

theorem freeExact_iff (hB : B.Exact) (hg : s.Good addr) {b : ℕ}
    (hstep : s.step B (.free b) = some t) :
    StepExact B addr s t (.free b) ↔ s.Careful addr (.free b) := by
  obtain ⟨hused, rfl⟩ := step_free_eq hstep
  obtain ⟨i, k, hblock, hset⟩ := hg.used b hused
  have hi := hblock.group
  have hk : k < s.fs.blocksPerBlockgroup := lt_of_lt_of_le hblock.bit (min_le_left _ _)
  have hle := hg.volume.blocks_le
  have hfree := blockFree_eq hB hg.volume.blocks_pos hle s.disk b
  unfold StepExact Careful
  dsimp only
  constructor
  · rintro ⟨i', k', hblock', hfl⟩ i'' k'' hblock''
    obtain ⟨rfl, rfl⟩ := hblock.unique hblock'
    obtain ⟨rfl, rfl⟩ := hblock.unique hblock''
    have hbyte : s.fs.mapAddr blockUsage s.disk (b / s.fs.blocksPerBlockgroup) +
        b % s.fs.blocksPerBlockgroup / 8 = addr i + k / 8 := by
      by_contra hne
      have hafter := hfl.after
      have hkeep : mapBit addr (blockFree B s.fs s.disk b) i k = mapBit addr s.disk i k := by
        rw [hfree]
        apply bit_congr
        exact Function.update_of_ne (fun h => hne h.symm) _ _
      rw [hkeep, hset] at hafter
      cases hafter
    refine ⟨hbyte, ?_⟩
    rw [hfree, hbyte] at hfl
    exact (flips_update_zero_iff hg.volume.geometry hi (by omega) hset).mp hfl
  · intro h
    obtain ⟨hbyte, hothers⟩ := h i k hblock
    refine ⟨i, k, hblock, ?_⟩
    rw [hfree, hbyte]
    exact (flips_update_zero_iff hg.volume.geometry hi (by omega) hset).mpr hothers

theorem stepExact_iff (hB : B.Exact) (hg : s.Good addr) {op : BlockOp}
    (hstep : s.step B op = some t) : StepExact B addr s t op ↔ s.Careful addr op := by
  cases op with
  | alloc => exact allocExact_iff hB hg hstep
  | free b => exact freeExact_iff hB hg hstep

/-- A bit that is flipped belongs to the block of the step. -/
theorem Good.alloc (hB : B.Exact) (hg : s.Good addr) (hcareful : s.Careful addr .alloc)
    (hstep : s.step B .alloc = some t) : t.Good addr := by
  have hexact := (allocExact_iff hB hg hstep).mpr hcareful
  obtain rfl := Option.some.inj hstep
  unfold StepExact at hexact
  rcases blockAlloc_cases hB hg.volume with ⟨heq, -⟩ | ⟨i, k, disk', -, -, heq, hvol, hflips⟩
  · rw [heq]
    exact hg
  · simp only [heq] at hexact ⊢
    refine ⟨hvol, fun b hb => ?_⟩
    dsimp only at hb ⊢
    simp only [isBlock_countDown]
    -- a bit that was set stays set
    have hold : s.used b = true → ∃ i k, IsBlock s.fs i k b ∧ mapBit addr disk' i k = true := by
      intro hused
      obtain ⟨j, l, hblock, hset⟩ := hg.used b hused
      refine ⟨j, l, hblock, ?_⟩
      by_cases hsame : j = i ∧ l = k
      · rw [hsame.1, hsame.2]
        exact hflips.after
      · have hl : l < s.fs.blocksPerBlockgroup := lt_of_lt_of_le hblock.bit (min_le_left _ _)
        have hle := hg.volume.blocks_le
        rw [hflips.others j l hblock.group (by omega) (by omega)]
        exact hset
    by_cases h0 : u32 (i * s.fs.blocksPerBlockgroup + s.fs.starting s.disk i + k) = 0
    · rw [if_pos h0] at hb
      exact hold hb
    · rw [if_neg h0] at hb
      by_cases hnew : b = u32 (i * s.fs.blocksPerBlockgroup + s.fs.starting s.disk i + k)
      · obtain ⟨-, j, l, hblock, hfl⟩ := hexact b hnew.symm (hnew ▸ h0)
        exact ⟨j, l, hblock, hfl.after⟩
      · rw [Function.update_of_ne hnew] at hb
        exact hold hb

theorem Good.free (hB : B.Exact) (hg : s.Good addr) {b : ℕ} (hcareful : s.Careful addr (.free b))
    (hstep : s.step B (.free b) = some t) : t.Good addr := by
  have hexact := (freeExact_iff hB hg hstep).mpr hcareful
  obtain ⟨hused, rfl⟩ := step_free_eq hstep
  obtain ⟨i, k, hblock, hfl⟩ := hexact
  have hi := hblock.group
  have hk : k < s.fs.blocksPerBlockgroup := lt_of_lt_of_le hblock.bit (min_le_left _ _)
  have hle := hg.volume.blocks_le
  obtain ⟨hbyte, -⟩ := hcareful i k hblock
  have hdisk : blockFree B s.fs s.disk b = Function.update s.disk (addr i + k / 8) 0 := by
    rw [blockFree_eq hB hg.volume.blocks_pos hle, hbyte]
  dsimp only at hfl
  refine ⟨⟨hg.volume.geometry, ?_, hg.volume.blocks_pos, hg.volume.blocks_le, ?_⟩, ?_⟩
  · dsimp only
    rw [hdisk]
    exact mapsAt_update hg.volume.geometry hi (by omega) hg.volume.maps
  · intro j l hj hge hl
    have hne : j ≠ i ∨ l ≠ k := by
      by_contra hno
      push Not at hno
      have := hblock.bit
      rw [hno.1, hno.2] at hge
      dsimp only at hge
      omega
    rw [hfl.others j l hj hl hne]
    exact hg.volume.padding j l hj hge hl
  · intro c hc
    dsimp only at hc ⊢
    have hcb : c ≠ b := by
      rintro rfl
      rw [Function.update_self] at hc
      cases hc
    rw [Function.update_of_ne hcb] at hc
    obtain ⟨j, l, hblock', hset⟩ := hg.used c hc
    refine ⟨j, l, hblock', ?_⟩
    have hl : l < s.fs.blocksPerBlockgroup := lt_of_lt_of_le hblock'.bit (min_le_left _ _)
    rw [hfl.others j l hblock'.group (by omega) ?_]
    · exact hset
    · by_contra hno
      push Not at hno
      apply hcb
      rw [hblock'.eq, hblock.eq, hno.1, hno.2]

theorem Good.step (hB : B.Exact) (hg : s.Good addr) {op : BlockOp} (hcareful : s.Careful addr op)
    (hstep : s.step B op = some t) : t.Good addr := by
  cases op with
  | alloc => exact hg.alloc hB hcareful hstep
  | free b => exact hg.free hB hcareful hstep

/-- In every state that careful steps reach, the next step is exact if and only
if it is careful. -/
theorem blocks_exact_iff_careful (hB : B.Exact) (hg : s.Good addr)
    (h : Reach (BlockState.step B) (Careful addr) s t) {op : BlockOp} {u : BlockState}
    (hstep : t.step B op = some u) : StepExact B addr t u op ↔ t.Careful addr op := by
  have hgood : t.Good addr :=
    Reach.invariant (I := Good addr) (fun _ _ _ hi hc hu => hi.step hB hc hu) hg h
  exact stepExact_iff hB hgood hstep

end BlockState

end Steps

/-- A volume of one group with 8192 blocks of 1024 bytes from block 1 on. -/
def oneGroup : Fs where
  superblock := storeLE (storeLE (storeLE (fun _ => 0) 4 4 8193) 20 4 1) 32 4 8192
  superblockOffset := 0
  blockSize := 1024
  blockgroupCount := 1
  readOnly := false

/-- Its disk: the bitmap is block 3 and begins with two given bytes, and the inode
table starts at a given block. -/
def oneGroupDisk (starting : ℕ) (b0 b1 : UInt8) : Mem :=
  Function.update (Function.update (storeLE (storeLE (fun _ => 0) 2048 4 3) 2056 4 starting) 3072 b0)
    3073 b1

theorem oneGroup_volume (starting : ℕ) (b0 b1 : UInt8) :
    BlockVolume oneGroup (fun _ => 3072) (oneGroupDisk starting b0 b1) where
  geometry := by
    have h0 : oneGroup.descriptorAddr 0 = 2048 := by decide
    have hs : oneGroup.superblockAddr = 1024 := by decide
    constructor
    · intro i j hi hj hne
      change i < 1 at hi
      change j < 1 at hj
      omega
    · intro i j hi hj
      change j < 1 at hj
      rw [show j = 0 by omega, h0]
      decide
    · intro i hi
      rw [hs]
      decide
    · intro j hj
      change j < 1 at hj
      rw [show j = 0 by omega, h0, hs]
      decide
  maps := by
    intro i hi
    change i < 1 at hi
    rw [show i = 0 by omega]
    have hget : blockUsage.bitmap.get (window (oneGroupDisk starting b0 b1)
        (oneGroup.descriptorAddr 0)) = 3 := by
      have hold : blockUsage.bitmap.get (window (storeLE (fun _ => 0) 2048 4 3) 2048) = 3 := by
        decide
      rw [show oneGroup.descriptorAddr 0 = 2048 by decide, ← hold]
      apply Field.get_congr
      intro x _ hx
      change x < 0 + 4 at hx
      unfold window oneGroupDisk
      rw [Function.update_of_ne (by omega), Function.update_of_ne (by omega),
        storeLE_apply_of_lt (by omega)]
    unfold Fs.mapAddr
    rw [hget]
    decide
  blocks_pos := by decide
  blocks_le := by decide
  padding := by
    intro i k hi hge hk
    change i < 1 at hi
    rw [show i = 0 by omega] at hge
    have h0 : oneGroup.groupBlocks 0 = 8192 := by decide
    change k < 8 * 1024 at hk
    omega

/-- If the inode table started at block 1, the first block would be allocated and
freed again. -/
theorem blocks_exact_first_block :
    let s : BlockState := ⟨oneGroup, oneGroupDisk 1 0 0, fun _ => false⟩
    ∃ t u, s.step (.exactWith fun _ => 0) .alloc = some t ∧
      BlockState.StepExact (.exactWith fun _ => 0) (fun _ => 3072) s t .alloc ∧
      t.step (.exactWith fun _ => 0) (.free 1) = some u ∧
      BlockState.StepExact (.exactWith fun _ => 0) (fun _ => 3072) t u (.free 1) := by
  intro s
  have hB := BlockLayer.exact_exactWith fun _ => 0
  have hg : s.Good fun _ => 3072 := ⟨oneGroup_volume 1 0 0, fun b hb => Bool.noConfusion hb⟩
  have halloc : s.Careful (fun _ => 3072) .alloc := by
    intro i k hfree
    have hi : i < 1 := hfree.lt
    rw [show i = 0 by omega]
    exact Or.inl (by decide)
  let r := blockAlloc (.exactWith fun _ => 0) s.fs s.disk
  let t : BlockState := ⟨r.2.1, r.2.2, if r.1 = 0 then s.used else Function.update s.used r.1 true⟩
  have hfree : t.Careful (fun _ => 3072) (.free 1) := by
    intro i k hblock
    obtain ⟨rfl, rfl⟩ := hblock.unique (show IsBlock t.fs 0 0 1 from ⟨by decide, by decide, by decide⟩)
    refine ⟨by decide, fun k' hne hbyte => ?_⟩
    have hlt : k' < 8 := by omega
    interval_cases k'
    · exact absurd rfl hne
    all_goals decide
  have hused : t.used 1 = true := by decide
  have hstep : t.step (.exactWith fun _ => 0) (.free 1) =
      some ⟨t.fs, blockFree (.exactWith fun _ => 0) t.fs t.disk 1, Function.update t.used 1 false⟩ :=
    if_pos hused
  refine ⟨t, _, rfl, ?_, hstep, ?_⟩
  · exact (BlockState.blocks_exact_iff_careful hB hg Reach.start rfl).mpr halloc
  · exact (BlockState.blocks_exact_iff_careful hB hg (Reach.start.next halloc rfl) hstep).mpr hfree

/-- The inode table starts at block 5, and the blocks 1 to 7, 9 and 10 are in use.
The allocation marks block 8 and returns 12, and freeing block 9 frees block 10,
too. -/
theorem blocks_not_exact_behind_tables :
    let s : BlockState := ⟨oneGroup, oneGroupDisk 5 0x7F 0x03, fun b => b = 9 || b = 10⟩
    s.Good (fun _ => 3072) ∧
      (∃ t, s.step (.exactWith fun _ => 0) .alloc = some t ∧
        ¬BlockState.StepExact (.exactWith fun _ => 0) (fun _ => 3072) s t .alloc) ∧
      ∃ t, s.step (.exactWith fun _ => 0) (.free 9) = some t ∧
        ¬BlockState.StepExact (.exactWith fun _ => 0) (fun _ => 3072) s t (.free 9) := by
  intro s
  have hB := BlockLayer.exact_exactWith fun _ => 0
  have h9 : IsBlock s.fs 0 8 9 := ⟨by decide, by decide, by decide⟩
  have h10 : IsBlock s.fs 0 9 10 := ⟨by decide, by decide, by decide⟩
  have hg : s.Good fun _ => 3072 := by
    refine ⟨oneGroup_volume 5 0x7F 0x03, fun b hb => ?_⟩
    have hb' : b = 9 ∨ b = 10 := by
      change (decide (b = 9) || decide (b = 10)) = true at hb
      simpa using hb
    rcases hb' with rfl | rfl
    · exact ⟨0, 8, h9, by decide⟩
    · exact ⟨0, 9, h10, by decide⟩
  refine ⟨hg, ⟨_, rfl, fun hexact => ?_⟩, ⟨_, rfl, fun hexact => ?_⟩⟩
  · have hfree : FirstFree blockUsage s.fs s.disk 0 0 7 := by
      refine ⟨le_rfl, by decide, fun j _ hj => absurd hj (by omega), by decide, by decide, ?_⟩
      decide
    rcases (BlockState.allocExact_iff hB hg rfl).mp hexact 0 7 hfree with h | h
    · exact absurd h (by decide)
    · exact absurd h (by decide)
  · obtain ⟨-, hothers⟩ := (BlockState.freeExact_iff hB hg rfl).mp hexact 0 8 h9
    exact absurd (hothers 9 (by decide) (by decide)) (by decide)

end VkKernel.Ext2
