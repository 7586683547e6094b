import VkKernel.Lib.Bitmap
import VkKernel.Lib.Trace
import VkKernel.Ext2

/-!
# Allocation of blocks and inodes

The bitmaps of the block groups, the functions that set and clear their bits,
and what these do to the bits of all groups. Blocks and inodes are allocated by
the same loop over the groups with another bitmap and another numbering.
-/

namespace VkKernel.Ext2
open ByteMemory PackedStruct IntervalUpdate Bitmap

/-! ## The bits of one bitmap -/

/-- The loop over the bits of one byte. -/
def firstZeroInByte (b : UInt8) : ℕ → ℕ → Option ℕ
  | 0, _ => none
  | fuel + 1, j => if b.toNat &&& (1 <<< j) = 0 then some j else firstZeroInByte b fuel (j + 1)

/-- The loop over the bytes of a bitmap. -/
def markLoop (bitmap : Mem) : ℕ → ℕ → ℕ × Mem
  | 0, _ => (2 ^ 32 - 1, bitmap)
  | fuel + 1, i =>
    match firstZeroInByte (bitmap i) 8 0 with
    | some j => (u32 (i * 8 + j), Function.update bitmap i (setBit (bitmap i) j))
    | none => markLoop bitmap fuel (i + 1)

def bitmapMarkFirstZeroBit (bitmap : Mem) (len : ℕ) : ℕ × Mem := markLoop bitmap len 0

/-- `*(bitmap+byte) &= (0 << inbit)` -/
def bitmapMarkBitFree (bitmap : Mem) (bit : ℕ) : Mem :=
  Function.update bitmap (bit / 8)
    (UInt8.ofNat ((bitmap (bit / 8)).toNat &&& (0 <<< (bit % 8))))

theorem bitmapMarkBitFree_eq (bitmap : Mem) (bit : ℕ) :
    bitmapMarkBitFree bitmap bit = Function.update bitmap (bit / 8) 0 := by
  unfold bitmapMarkBitFree
  rw [Nat.zero_shiftLeft, Nat.and_zero]
  rfl

/-- Bit `k` is the first clear bit of the `len` bytes. -/
structure FirstClear (bitmap : Mem) (len k : ℕ) : Prop where
  lt : k < 8 * len
  clear : bit bitmap k = false
  before : ∀ i < k, bit bitmap i = true

def Full (bitmap : Mem) (len : ℕ) : Prop := ∀ k < 8 * len, bit bitmap k = true

theorem firstZeroInByte_cases (b : UInt8) (fuel j : ℕ) :
    (firstZeroInByte b fuel j = none ∧ ∀ i, j ≤ i → i < j + fuel → b.toNat.testBit i = true) ∨
      ∃ k, firstZeroInByte b fuel j = some k ∧ j ≤ k ∧ k < j + fuel ∧ b.toNat.testBit k = false ∧
        ∀ i, j ≤ i → i < k → b.toNat.testBit i = true := by
  induction fuel generalizing j with
  | zero => exact Or.inl ⟨rfl, fun i h1 h2 => absurd h2 (by omega)⟩
  | succ fuel ih =>
    rw [firstZeroInByte]
    by_cases hz : b.toNat &&& (1 <<< j) = 0
    · rw [if_pos hz]
      exact Or.inr ⟨j, rfl, le_rfl, by omega, (and_shiftLeft_eq_zero_iff _ _).mp hz,
        fun i h1 h2 => absurd h2 (by omega)⟩
    · rw [if_neg hz]
      have hset : b.toNat.testBit j = true := by
        rw [← Bool.not_eq_false]
        exact fun h => hz ((and_shiftLeft_eq_zero_iff _ _).mpr h)
      rcases ih (j + 1) with ⟨h1, h2⟩ | ⟨k, h1, h2, h3, h4, h5⟩
      · refine Or.inl ⟨h1, fun i hi hi' => ?_⟩
        by_cases hij : i = j
        · rw [hij]
          exact hset
        · exact h2 i (by omega) (by omega)
      · refine Or.inr ⟨k, h1, by omega, by omega, h4, fun i hi hi' => ?_⟩
        by_cases hij : i = j
        · rw [hij]
          exact hset
        · exact h5 i (by omega) hi'

theorem markLoop_cases (bitmap : Mem) (fuel i : ℕ) :
    (markLoop bitmap fuel i = (2 ^ 32 - 1, bitmap) ∧
      ∀ k, 8 * i ≤ k → k < 8 * (i + fuel) → bit bitmap k = true) ∨
    ∃ k, markLoop bitmap fuel i =
        (u32 k, Function.update bitmap (k / 8) (setBit (bitmap (k / 8)) (k % 8))) ∧
      8 * i ≤ k ∧ k < 8 * (i + fuel) ∧ bit bitmap k = false ∧
      ∀ k', 8 * i ≤ k' → k' < k → bit bitmap k' = true := by
  induction fuel generalizing i with
  | zero => exact Or.inl ⟨rfl, fun k h1 h2 => absurd h2 (by omega)⟩
  | succ fuel ih =>
    rw [markLoop]
    rcases firstZeroInByte_cases (bitmap i) 8 0 with ⟨h1, h2⟩ | ⟨j, h1, -, h3, h4, h5⟩
    · rw [h1]
      have hbyte : ∀ k, 8 * i ≤ k → k < 8 * (i + 1) → bit bitmap k = true := by
        intro k hk hk'
        unfold bit
        rw [show k / 8 = i by omega]
        exact h2 _ (by omega) (by omega)
      rcases ih (i + 1) with ⟨g1, g2⟩ | ⟨k, g1, g2, g3, g4, g5⟩
      · refine Or.inl ⟨g1, fun k hk hk' => ?_⟩
        by_cases hlt : k < 8 * (i + 1)
        · exact hbyte k hk hlt
        · exact g2 k (by omega) (by omega)
      · refine Or.inr ⟨k, g1, by omega, by omega, g4, fun k' hk hk' => ?_⟩
        by_cases hlt : k' < 8 * (i + 1)
        · exact hbyte k' hk hlt
        · exact g5 k' (by omega) hk'
    · rw [h1]
      have hdiv : (i * 8 + j) / 8 = i := by omega
      have hmod : (i * 8 + j) % 8 = j := by omega
      refine Or.inr ⟨i * 8 + j, ?_, by omega, by omega, ?_, fun k' hk hk' => ?_⟩
      · rw [hdiv, hmod]
      · unfold bit
        rw [hdiv, hmod]
        exact h4
      · unfold bit
        rw [show k' / 8 = i by omega]
        exact h5 _ (by omega) (by omega)

/-- The first clear bit is found and set. -/
theorem bitmapMarkFirstZeroBit_cases (bitmap : Mem) (len : ℕ) :
    (bitmapMarkFirstZeroBit bitmap len = (2 ^ 32 - 1, bitmap) ∧ Full bitmap len) ∨
      ∃ k, FirstClear bitmap len k ∧ bitmapMarkFirstZeroBit bitmap len =
        (u32 k, Function.update bitmap (k / 8) (setBit (bitmap (k / 8)) (k % 8))) := by
  unfold bitmapMarkFirstZeroBit
  rcases markLoop_cases bitmap len 0 with ⟨h1, h2⟩ | ⟨k, h1, -, h3, h4, h5⟩
  · exact Or.inl ⟨h1, fun k hk => h2 k (by omega) (by omega)⟩
  · exact Or.inr ⟨k, ⟨by omega, h4, fun i hi => h5 i (by omega) hi⟩, h1⟩

theorem FirstClear.congr {m m' : Mem} {len k : ℕ} (h : FirstClear m len k)
    (hm : ∀ i < len, m i = m' i) : FirstClear m' len k := by
  have hbit : ∀ i < 8 * len, bit m i = bit m' i := fun i hi => bit_congr (hm _ (by omega))
  have hlt := h.lt
  refine ⟨hlt, ?_, fun i hi => ?_⟩
  · rw [← hbit k hlt]
    exact h.clear
  · rw [← hbit i (by omega)]
    exact h.before i hi

theorem FirstClear.unique {m : Mem} {len k k' : ℕ} (h : FirstClear m len k)
    (h' : FirstClear m len k') : k = k' := by
  rcases Nat.lt_trichotomy k k' with hlt | heq | hlt
  · exact absurd (h'.before k hlt) (by rw [h.clear]; decide)
  · exact heq
  · exact absurd (h.before k' hlt) (by rw [h'.clear]; decide)

theorem FirstClear.not_full {m : Mem} {len k : ℕ} (h : FirstClear m len k) : ¬Full m len :=
  fun hf => absurd (hf k h.lt) (by rw [h.clear]; decide)

/-! ## The bitmaps of the groups -/

/-- Which bitmap of a group a function uses and the counters that go with it,
and where these lie in the descriptor and the superblock. -/
structure Usage where
  bitmap : Field
  unallocated : Field
  total : Field
  bitmap_le : bitmap.offset + bitmap.width ≤ 12
  le_unallocated : 12 ≤ unallocated.offset
  unallocated_le : unallocated.offset + unallocated.width ≤ 16
  le_total : 12 ≤ total.offset
  total_le : total.offset + total.width ≤ 20

def blockUsage : Usage where
  bitmap := BlockGroupDescriptor.blockAddressBlockUsage
  unallocated := BlockGroupDescriptor.unallocatedBlocks
  total := Superblock.unallocatedBlocks
  bitmap_le := by decide
  le_unallocated := by decide
  unallocated_le := by decide
  le_total := by decide
  total_le := by decide

def inodeUsage : Usage where
  bitmap := BlockGroupDescriptor.blockAddressInodeUsage
  unallocated := BlockGroupDescriptor.unallocatedInodes
  total := Superblock.unallocatedInodes
  bitmap_le := by decide
  le_unallocated := by decide
  unallocated_le := by decide
  le_total := by decide
  total_le := by decide

section Functions
variable (B : BlockLayer)

/-- The loop of `ext2_block_alloc` and `ext2_inode_alloc`. `number` is the
result for a group, the `starting_block_adress` of its descriptor and a bit. -/
def allocLoop (usage : Usage) (number : Fs → ℕ → ℕ → ℕ → ℕ) : ℕ → ℕ → Fs → Mem → ℕ × Fs × Mem
  | 0, _, fs, disk => (0, fs, disk)
  | fuel + 1, i, fs, disk =>
    let bgDesc := (readDescriptor B fs disk i).2
    let sector := fs.sectorOf (usage.bitmap.get bgDesc)
    let r := bitmapMarkFirstZeroBit (B.read disk sector 0 fs.blockSize).2 fs.blockSize
    if r.1 = 2 ^ 32 - 1 then allocLoop usage number fuel (i + 1) fs disk
    else
      let disk := (B.write disk sector 0 r.2 fs.blockSize).2
      let tr := number fs i (BlockGroupDescriptor.startingBlockAdress.get bgDesc) r.1
      let bgDesc := usage.unallocated.set bgDesc (usage.unallocated.get bgDesc + (2 ^ 16 - 1))
      let disk := (B.write disk (fs.sectorOf fs.blockGroupDescriptorTable) (bgReadOffset i) bgDesc
        sizeofBlockGroupDescriptor).2
      let superblock := usage.total.set fs.superblock
        (usage.total.get fs.superblock + (2 ^ 32 - 1))
      let disk := (B.write disk (u32 (fs.superblockOffset + 2)) 0 superblock sizeofSuperblock).2
      (tr, { fs with superblock }, disk)

def blockAlloc (fs : Fs) (disk : Mem) : ℕ × Fs × Mem :=
  allocLoop B blockUsage (fun fs i starting bit =>
    u32 (u32 (i * fs.blocksPerBlockgroup + starting) + bit)) fs.blockgroupCount 0 fs disk

def inodeAlloc (fs : Fs) (disk : Mem) : ℕ × Fs × Mem :=
  allocLoop B inodeUsage (fun fs i _ bit => u32 (i * fs.inodesPerBlockgroup + bit + 1))
    fs.blockgroupCount 0 fs disk

/-- The bitmap of a group with one bit marked free. -/
def freeBit (usage : Usage) (fs : Fs) (disk : Mem) (group bit : ℕ) : Mem :=
  let bg := (readDescriptor B fs disk group).2
  let sector := fs.sectorOf (usage.bitmap.get bg)
  let bitmap := bitmapMarkBitFree (B.read disk sector 0 fs.blockSize).2 bit
  (B.write disk sector 0 bitmap fs.blockSize).2

def blockFree (fs : Fs) (disk : Mem) (block : ℕ) : Mem :=
  let blockGroup := block / fs.blocksPerBlockgroup
  freeBit B blockUsage fs disk blockGroup (block - blockGroup * fs.blocksPerBlockgroup)

/-- The label `free_inode` of `ext2_inode_free`, up to the cache. -/
def freeInodeBit (fs : Fs) (disk : Mem) (inodeNbr : ℕ) : Mem :=
  let inodeBlockGroup := inodeIndex inodeNbr / fs.inodesPerBlockgroup
  freeBit B inodeUsage fs disk inodeBlockGroup
    (inodeIndex inodeNbr - inodeBlockGroup * fs.inodesPerBlockgroup)

end Functions

/-! ## What the functions do to the disk -/

namespace Fs

/-- The first byte of the superblock on the disk. -/
def superblockAddr (fs : Fs) : ℕ := bytesPerSector * u32 (fs.superblockOffset + 2)

/-- The first byte of the bitmap that the descriptor of a group names. -/
def mapAddr (fs : Fs) (usage : Usage) (disk : Mem) (i : ℕ) : ℕ :=
  fs.blockAddr (usage.bitmap.get (window disk (fs.descriptorAddr i)))

/-- The `starting_block_adress` of a group. -/
def starting (fs : Fs) (disk : Mem) (i : ℕ) : ℕ :=
  BlockGroupDescriptor.startingBlockAdress.get (window disk (fs.descriptorAddr i))

/-- The volume with one unit less in a counter of the superblock. -/
def countDown (fs : Fs) (usage : Usage) : Fs :=
  { fs with
    superblock := usage.total.set fs.superblock
      (usage.total.get fs.superblock + (2 ^ 32 - 1)) }

end Fs

section Effects
variable {B : BlockLayer} {usage : Usage} (number : Fs → ℕ → ℕ → ℕ → ℕ) {fs : Fs} {disk : Mem}

theorem readDescriptor_get (hB : B.Exact) {f : Field}
    (hf : f.offset + f.width ≤ sizeofBlockGroupDescriptor) (i : ℕ) :
    f.get (readDescriptor B fs disk i).2 = f.get (window disk (fs.descriptorAddr i)) :=
  hB.get_read hf

theorem freeBit_eq (hB : B.Exact) (group : ℕ) {bit : ℕ} (hbit : bit / 8 < fs.blockSize) :
    freeBit B usage fs disk group bit =
      Function.update disk (fs.mapAddr usage disk group + bit / 8) 0 := by
  have hle := usage.bitmap_le
  unfold freeBit
  dsimp only
  rw [hB.write_eq, bitmapMarkBitFree_eq,
    readDescriptor_get hB (show _ ≤ sizeofBlockGroupDescriptor by
      unfold sizeofBlockGroupDescriptor; omega)]
  exact overwrite_update_of_eq (fun i hi => hB.read_data _ _ _ _ i hi) hbit

/-- The disk after a bit of the bitmap of a group has been set and the
descriptor and the superblock have been written back. -/
structure Allocated (usage : Usage) (fs : Fs) (disk : Mem) (i k : ℕ) (disk' : Mem) : Prop where
  frame : ∀ x, x ≠ fs.mapAddr usage disk i + k / 8 →
    x < fs.descriptorAddr i + 12 ∨ fs.descriptorAddr i + 16 ≤ x →
      x < fs.superblockAddr ∨ fs.superblockAddr + sizeofSuperblock ≤ x → disk' x = disk x
  byte : ∀ x, x = fs.mapAddr usage disk i + k / 8 →
    x < fs.descriptorAddr i ∨ fs.descriptorAddr i + sizeofBlockGroupDescriptor ≤ x →
      x < fs.superblockAddr ∨ fs.superblockAddr + sizeofSuperblock ≤ x →
        disk' x = setBit (disk x) (k % 8)

/-- The three writes of an allocation. -/
theorem allocated_of_writes {i k : ℕ} (bgDesc superblock : Mem) (v : ℕ)
    (hbg : ∀ j < sizeofBlockGroupDescriptor, bgDesc j = disk (fs.descriptorAddr i + j)) :
    Allocated usage fs disk i k
      (overwrite (overwrite (Function.update disk (fs.mapAddr usage disk i + k / 8)
        (setBit (disk (fs.mapAddr usage disk i + k / 8)) (k % 8))) (fs.descriptorAddr i)
          sizeofBlockGroupDescriptor (usage.unallocated.set bgDesc v)) fs.superblockAddr
            sizeofSuperblock superblock) where
  frame x hx hd hs := by
    have h1 := usage.le_unallocated
    have h2 := usage.unallocated_le
    rw [overwrite_of_notMem hs]
    by_cases hin : fs.descriptorAddr i ≤ x ∧ x < fs.descriptorAddr i + sizeofBlockGroupDescriptor
    · rw [overwrite_of_mem hin.1 hin.2, Field.set_of_notMem (by omega), hbg _ (by omega),
        Nat.add_sub_of_le hin.1]
    · rw [overwrite_of_notMem (by omega), Function.update_of_ne hx]
  byte x hx hd hs := by
    rw [overwrite_of_notMem hs, overwrite_of_notMem hd, ← hx, Function.update_self]

/-- The first group from `i` on with a clear bit, and that bit. -/
structure FirstFree (usage : Usage) (fs : Fs) (disk : Mem) (start i k : ℕ) : Prop where
  le : start ≤ i
  lt : i < fs.blockgroupCount
  full : ∀ j, start ≤ j → j < i → Full (window disk (fs.mapAddr usage disk j)) fs.blockSize
  clear : FirstClear (window disk (fs.mapAddr usage disk i)) fs.blockSize k

/-- No bitmap has its clear bits at `(u32)-1`, where a search takes them for
none. -/
def NoSentinel (usage : Usage) (fs : Fs) (disk : Mem) : Prop :=
  ∀ i k, i < fs.blockgroupCount → k < 8 * fs.blockSize →
    bit (window disk (fs.mapAddr usage disk i)) k = false → k < 2 ^ 32 - 1

/-- An allocation finds nothing, or it sets the first clear bit. -/
theorem allocLoop_cases (hB : B.Exact) (hno : NoSentinel usage fs disk) (fuel start : ℕ)
    (hfuel : start + fuel = fs.blockgroupCount) :
    (allocLoop B usage number fuel start fs disk = (0, fs, disk) ∧
      ∀ j, start ≤ j → j < fs.blockgroupCount →
        Full (window disk (fs.mapAddr usage disk j)) fs.blockSize) ∨
    ∃ i k disk', FirstFree usage fs disk start i k ∧
      allocLoop B usage number fuel start fs disk =
        (number fs i (fs.starting disk i) k, fs.countDown usage, disk') ∧
      Allocated usage fs disk i k disk' := by
  induction fuel generalizing start with
  | zero => exact Or.inl ⟨rfl, fun j h1 h2 => absurd h2 (by omega)⟩
  | succ fuel ih =>
    have hle := usage.bitmap_le
    have hsize : usage.bitmap.offset + usage.bitmap.width ≤ sizeofBlockGroupDescriptor := by
      unfold sizeofBlockGroupDescriptor
      omega
    have hmap : bytesPerSector * fs.sectorOf (usage.bitmap.get (readDescriptor B fs disk start).2) =
        fs.mapAddr usage disk start := by
      rw [readDescriptor_get hB hsize]
      rfl
    have hread : ∀ j < fs.blockSize, (B.read disk
        (fs.sectorOf (usage.bitmap.get (readDescriptor B fs disk start).2)) 0 fs.blockSize).2 j =
          window disk (fs.mapAddr usage disk start) j := by
      intro j hj
      rw [hB.read_data _ _ _ _ j hj, hmap]
      rfl
    rw [allocLoop]
    dsimp only
    rcases bitmapMarkFirstZeroBit_cases (B.read disk
      (fs.sectorOf (usage.bitmap.get (readDescriptor B fs disk start).2)) 0 fs.blockSize).2
        fs.blockSize with ⟨heq, hfull⟩ | ⟨k, hk, heq⟩
    · -- this group is full
      have hfull' : Full (window disk (fs.mapAddr usage disk start)) fs.blockSize := by
        intro k hk
        rw [← hfull k hk]
        exact (bit_congr (hread _ (by omega))).symm
      rw [heq, if_pos rfl]
      rcases ih (start + 1) (by omega) with ⟨h1, h2⟩ | ⟨i, k, disk', h1, h2, h3⟩
      · refine Or.inl ⟨h1, fun j hj hj' => ?_⟩
        by_cases hjs : j = start
        · rw [hjs]
          exact hfull'
        · exact h2 j (by omega) hj'
      · refine Or.inr ⟨i, k, disk', ⟨by have := h1.le; omega, h1.lt, fun j hj hj' => ?_, h1.clear⟩,
          h2, h3⟩
        by_cases hjs : j = start
        · rw [hjs]
          exact hfull'
        · exact h1.full j (by omega) hj'
    · have hk' := hk.congr hread
      have hlt := hno start k (by omega) hk'.lt hk'.clear
      have hu : u32 k = k := u32_of_lt (by omega)
      rw [heq, hu, if_neg (by omega)]
      refine Or.inr ⟨start, k, _, ⟨le_rfl, by omega, fun j h1 h2 => absurd h2 (by omega), hk'⟩, ?_,
        allocated_of_writes (readDescriptor B fs disk start).2 (fs.countDown usage).superblock
          (usage.unallocated.get (readDescriptor B fs disk start).2 + (2 ^ 16 - 1))
          fun j hj => hB.read_data _ _ _ _ j hj⟩
      rw [hB.write_eq, hB.write_eq, hB.write_eq, readDescriptor_get hB (by decide)]
      dsimp only
      have hbyte : (B.read disk (fs.sectorOf (usage.bitmap.get (readDescriptor B fs disk start).2)) 0
          fs.blockSize).2 (k / 8) = disk (fs.mapAddr usage disk start + k / 8) :=
        hread _ (by have := hk.lt; omega)
      rw [overwrite_update_of_eq (fun i hi => hB.read_data _ _ _ _ i hi) (by have := hk.lt; omega),
        hbyte, Nat.add_zero, hmap]
      rfl

end Effects

/-! ## The bits of all groups -/

/-- The bitmaps of the groups, the descriptors and the superblock share no byte. -/
structure Geometry (fs : Fs) (addr : ℕ → ℕ) : Prop where
  apart : ∀ i j, i < fs.blockgroupCount → j < fs.blockgroupCount → i ≠ j →
    addr i + fs.blockSize ≤ addr j ∨ addr j + fs.blockSize ≤ addr i
  descriptors : ∀ i j, i < fs.blockgroupCount → j < fs.blockgroupCount →
    addr i + fs.blockSize ≤ fs.descriptorAddr j ∨
      fs.descriptorAddr j + sizeofBlockGroupDescriptor ≤ addr i
  superblock : ∀ i, i < fs.blockgroupCount →
    addr i + fs.blockSize ≤ fs.superblockAddr ∨ fs.superblockAddr + sizeofSuperblock ≤ addr i
  superblock_descriptors : ∀ j, j < fs.blockgroupCount →
    fs.superblockAddr + sizeofSuperblock ≤ fs.descriptorAddr j ∨
      fs.descriptorAddr j + sizeofBlockGroupDescriptor ≤ fs.superblockAddr

/-- The descriptors name the bitmaps at `addr`. -/
def MapsAt (fs : Fs) (usage : Usage) (addr : ℕ → ℕ) (disk : Mem) : Prop :=
  ∀ i < fs.blockgroupCount, fs.mapAddr usage disk i = addr i

/-- Bit `k` of the bitmap of group `i`. -/
def mapBit (addr : ℕ → ℕ) (disk : Mem) (i k : ℕ) : Bool := bit (window disk (addr i)) k

/-- Bit `k` of group `i` gets the value `v`, and no other bit of a bitmap
changes. -/
structure Flips (fs : Fs) (addr : ℕ → ℕ) (disk disk' : Mem) (i k : ℕ) (v : Bool) : Prop where
  before : mapBit addr disk i k = !v
  after : mapBit addr disk' i k = v
  others : ∀ j k', j < fs.blockgroupCount → k' < 8 * fs.blockSize → j ≠ i ∨ k' ≠ k →
    mapBit addr disk' j k' = mapBit addr disk j k'

section Bits
variable {usage : Usage} {fs : Fs} {addr : ℕ → ℕ} {disk disk' : Mem}

/-- Descriptors begin at multiples of their size behind the start of the table. -/
theorem descriptorAddr_grid (fs : Fs) (i : ℕ) :
    ∃ n, fs.descriptorAddr i = fs.blockAddr fs.blockGroupDescriptorTable + 32 * n := by
  refine ⟨bgReadOffset i / 32, ?_⟩
  unfold Fs.descriptorAddr
  have hmod : bgReadOffset i % 32 = 0 := by
    unfold bgReadOffset u32 sizeofBlockGroupDescriptor
    omega
  omega

/-- The fields of a descriptor in front of the counters are kept. -/
theorem Allocated.get_descriptor {i k : ℕ} (h : Allocated usage fs disk i k disk')
    (hg : Geometry fs addr) (hmaps : MapsAt fs usage addr disk) (hi : i < fs.blockgroupCount)
    (hk : k < 8 * fs.blockSize) {j : ℕ} (hj : j < fs.blockgroupCount) {f : Field}
    (hf : f.offset + f.width ≤ 12) :
    f.get (window disk' (fs.descriptorAddr j)) = f.get (window disk (fs.descriptorAddr j)) := by
  apply Field.get_congr
  intro x _ hx
  have hd := hg.descriptors i j hi hj
  have hs := hg.superblock_descriptors j hj
  obtain ⟨n, hn⟩ := descriptorAddr_grid fs i
  obtain ⟨n', hn'⟩ := descriptorAddr_grid fs j
  unfold sizeofBlockGroupDescriptor at hd hs
  unfold window
  apply h.frame
  · rw [hmaps i hi]
    omega
  · omega
  · omega

theorem Allocated.mapsAt {i k : ℕ} (h : Allocated usage fs disk i k disk') (hg : Geometry fs addr)
    (hmaps : MapsAt fs usage addr disk) (hi : i < fs.blockgroupCount) (hk : k < 8 * fs.blockSize)
    {usage' : Usage} {addr' : ℕ → ℕ} (hmaps' : MapsAt fs usage' addr' disk) :
    MapsAt fs usage' addr' disk' := by
  intro j hj
  rw [← hmaps' j hj]
  unfold Fs.mapAddr
  rw [h.get_descriptor hg hmaps hi hk hj usage'.bitmap_le]

/-- An allocation sets one bit. -/
theorem Allocated.flips {i k : ℕ} (h : Allocated usage fs disk i k disk') (hg : Geometry fs addr)
    (hmaps : MapsAt fs usage addr disk) (hi : i < fs.blockgroupCount) (hk : k < 8 * fs.blockSize)
    (hclear : mapBit addr disk i k = false) : Flips fs addr disk disk' i k true := by
  have hd := fun j hj => hg.descriptors j i hj hi
  have hs := hg.superblock
  have hmap := hmaps i hi
  unfold sizeofBlockGroupDescriptor at hd
  -- the byte of bit `k'` of group `j`
  have hbyte : ∀ j k', j < fs.blockgroupCount → k' < 8 * fs.blockSize →
      (j ≠ i ∨ k' / 8 ≠ k / 8) → window disk' (addr j) (k' / 8) = window disk (addr j) (k' / 8) := by
    intro j k' hj hk' hne
    have hdj := hd j hj
    have hsj := hs j hj
    unfold window
    apply h.frame
    · rw [hmap]
      by_cases hji : j = i
      · have := hne.resolve_left (not_not_intro hji)
        subst hji
        omega
      · have := hg.apart j i hj hi hji
        omega
    · omega
    · omega
  have hset : window disk' (addr i) (k / 8) = setBit (window disk (addr i) (k / 8)) (k % 8) := by
    have hdi := hd i hi
    have hsi := hs i hi
    unfold window
    apply h.byte
    · rw [hmap]
    · unfold sizeofBlockGroupDescriptor
      omega
    · omega
  have hsame : ∀ k', bit (window disk' (addr i)) k' = (bit (window disk (addr i)) k' ||
      decide (k' = k)) ∨ k' / 8 ≠ k / 8 := by
    intro k'
    by_cases hb : k' / 8 = k / 8
    · left
      rw [← bit_update_setBit (window disk (addr i)) k k']
      apply bit_congr
      rw [hb, Function.update_self, hset]
    · exact Or.inr hb
  refine ⟨hclear, ?_, fun j k' hj hk' hne => ?_⟩
  · have := (hsame k).resolve_right (not_not_intro rfl)
    unfold mapBit
    rw [this, decide_eq_true rfl, Bool.or_true]
  · unfold mapBit
    by_cases hb : j = i ∧ k' / 8 = k / 8
    · obtain ⟨rfl, hb⟩ := hb
      have hne' : k' ≠ k := hne.resolve_left (not_not_intro rfl)
      rw [(hsame k').resolve_right (not_not_intro hb), decide_eq_false hne', Bool.or_false]
    · exact bit_congr (hbyte j k' hj hk' (by omega))

/-- A byte of one bitmap is set to zero. -/
theorem mapBit_update_zero (hg : Geometry fs addr) {i p : ℕ} (hi : i < fs.blockgroupCount)
    (hp : p < fs.blockSize) {j k : ℕ} (hj : j < fs.blockgroupCount) (hk : k < 8 * fs.blockSize) :
    mapBit addr (Function.update disk (addr i + p) 0) j k =
      (mapBit addr disk j k && decide (¬(j = i ∧ k / 8 = p))) := by
  unfold mapBit
  by_cases hji : j = i
  · subst hji
    have hwin : window (Function.update disk (addr j + p) 0) (addr j) =
        Function.update (window disk (addr j)) p 0 := by
      funext x
      unfold window
      by_cases hx : x = p
      · rw [hx, Function.update_self, Function.update_self]
      · rw [Function.update_of_ne (by omega), Function.update_of_ne hx]
    rw [hwin, bit_update_zero]
    simp
  · have := hg.apart j i hj hi hji
    rw [decide_eq_true (show ¬(j = i ∧ k / 8 = p) from fun h => hji h.1), Bool.and_true]
    apply bit_congr
    unfold window
    exact Function.update_of_ne (by omega) _ _

/-- Zero bytes in bitmaps do not touch the descriptors. -/
theorem mapsAt_update (hg : Geometry fs addr) {i p : ℕ} (hi : i < fs.blockgroupCount)
    (hp : p < fs.blockSize) {usage' : Usage} {addr' : ℕ → ℕ} (h : MapsAt fs usage' addr' disk) :
    MapsAt fs usage' addr' (Function.update disk (addr i + p) 0) := by
  intro j hj
  rw [← h j hj]
  unfold Fs.mapAddr
  congr 1
  apply Field.get_congr
  intro x _ hx
  have hle := usage'.bitmap_le
  have hd := hg.descriptors i j hi hj
  unfold sizeofBlockGroupDescriptor at hd
  unfold window
  exact Function.update_of_ne (by omega) _ _

/-- The whole byte is set to zero, so the bit has to be alone in it. -/
theorem flips_update_zero_iff (hg : Geometry fs addr) {i k : ℕ} (hi : i < fs.blockgroupCount)
    (hk : k < 8 * fs.blockSize) (hset : mapBit addr disk i k = true) :
    Flips fs addr disk (Function.update disk (addr i + k / 8) 0) i k false ↔
      ∀ k', k' ≠ k → k' / 8 = k / 8 → mapBit addr disk i k' = false := by
  have hp : k / 8 < fs.blockSize := by omega
  constructor
  · intro h k' hne hb
    rw [← h.others i k' hi (by omega) (Or.inr hne), mapBit_update_zero hg hi hp hi (by omega),
      decide_eq_false (not_not_intro ⟨rfl, hb⟩), Bool.and_false]
  · intro h
    refine ⟨hset, ?_, fun j k' hj hk' hne => ?_⟩
    · rw [mapBit_update_zero hg hi hp hi hk, decide_eq_false (not_not_intro ⟨rfl, rfl⟩),
        Bool.and_false]
    · rw [mapBit_update_zero hg hi hp hj hk']
      by_cases hb : j = i ∧ k' / 8 = k / 8
      · obtain ⟨rfl, hb⟩ := hb
        rw [h k' (hne.resolve_left (not_not_intro rfl)) hb, Bool.false_and]
      · rw [decide_eq_true hb, Bool.and_true]

end Bits

end VkKernel.Ext2
