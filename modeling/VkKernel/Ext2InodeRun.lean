import VkKernel.Ext2BlockRun

/-!
# Runs of inode allocations

`ext2_inode_free` frees the blocks of a file along its pointers before it
clears the bit of the inode, and returns without it when it meets a zero
pointer. The bits of the inode bitmaps over runs of allocations and releases.
-/

namespace VkKernel.Ext2
open ByteMemory PackedStruct IntervalUpdate Bitmap Trace

/-! ## The blocks of a file are freed -/

/-- How a part of `ext2_inode_free` ends: with `return`, with `goto free_inode`,
or with a size that is left. -/
inductive Walk
  | failed (disk : Mem)
  | done (disk : Mem)
  | more (size : ℕ) (disk : Mem)

section Functions
variable (B : BlockLayer) (fs : Fs)

/-- The loop over the blocks of one array of pointers, with the size tested
before each of them. -/
def freeEntries (entry : ℕ → ℕ) : ℕ → ℕ → ℕ → Mem → Walk
  | 0, _, size, disk => .more size disk
  | fuel + 1, i, size, disk =>
    if size = 0 then .done disk
    else if entry i = 0 then .failed disk
    else freeEntries entry fuel (i + 1) (size - fs.blockSize) (blockFree B fs disk (entry i))

/-- The loop over the doubly indirect block. The pointers are still those of the
buffer after it has been freed. -/
def freeDoubly (doubly : ℕ → ℕ) (doublyPointer : ℕ) : ℕ → ℕ → ℕ → Mem → Walk
  | 0, _, size, disk => .more size disk
  | fuel + 1, j, size, disk =>
    if doubly j = 0 then .failed disk
    else
      match freeEntries B fs (readPointers B fs disk (doubly j)) (fs.blockSize / 4) 0 size disk with
      | .failed disk => .failed disk
      | .done disk => .done (blockFree B fs (blockFree B fs disk (doubly j)) doublyPointer)
      | .more size disk => freeDoubly doubly doublyPointer fuel (j + 1) size
          (blockFree B fs disk (doubly j))

/-- The innermost loop below the triply indirect block tests the size after each
block. -/
def freeEntriesFirst (entry : ℕ → ℕ) : ℕ → ℕ → ℕ → Mem → Walk
  | 0, _, size, disk => .more size disk
  | fuel + 1, i, size, disk =>
    if entry i = 0 then .failed disk
    else
      let disk := blockFree B fs disk (entry i)
      if size - fs.blockSize = 0 then .done disk
      else freeEntriesFirst entry fuel (i + 1) (size - fs.blockSize) disk

def freeTriplyInner (dib : ℕ → ℕ) (triplyK triplyPointer : ℕ) : ℕ → ℕ → ℕ → Mem → Walk
  | 0, _, size, disk => .more size disk
  | fuel + 1, j, size, disk =>
    if dib j = 0 then .failed disk
    else
      match freeEntriesFirst B fs (readPointers B fs disk (dib j)) (fs.blockSize / 4) 0 size disk with
      | .failed disk => .failed disk
      | .done disk => .done (blockFree B fs (blockFree B fs (blockFree B fs disk (dib j)) triplyK)
          triplyPointer)
      | .more size disk =>
        freeTriplyInner dib triplyK triplyPointer fuel (j + 1) size (blockFree B fs disk (dib j))

/-- The loop over the triply indirect block takes its pointers at `j`, which the
loops before it have left at the end of a block. -/
def freeTriply (triply : ℕ → ℕ) (triplyPointer : ℕ) : ℕ → ℕ → ℕ → Mem → Walk
  | 0, _, size, disk => .more size disk
  | fuel + 1, k, size, disk =>
    if triply (fs.blockSize / 4) = 0 then .failed disk
    else
      match freeTriplyInner B fs (readPointers B fs disk (triply (fs.blockSize / 4))) (triply k)
          triplyPointer (fs.blockSize / 4) 0 size disk with
      | .failed disk => .failed disk
      | .done disk => .done disk
      | .more size disk => freeTriply triply triplyPointer fuel (k + 1) size
          (blockFree B fs disk (triply k))

/-- `ext2_inode_free` up to the label `free_inode`. -/
def freeFile (node : Node) (disk : Mem) : Walk :=
  match freeEntries B fs node.pointer 12 0 node.length disk with
  | .failed disk => .failed disk
  | .done disk => .done disk
  | .more size disk =>
    if size = 0 then .done disk
    else if node.pointer 12 = 0 then .failed disk
    else
      match freeEntries B fs (readPointers B fs disk (node.pointer 12)) (fs.blockSize / 4) 0 size
          disk with
      | .failed disk => .failed disk
      | .done disk => .done (blockFree B fs disk (node.pointer 12))
      | .more size disk =>
        let disk := blockFree B fs disk (node.pointer 12)
        if size = 0 then .done disk
        else if node.pointer 13 = 0 then .failed disk
        else
          match freeDoubly B fs (readPointers B fs disk (node.pointer 13)) (node.pointer 13)
              (fs.blockSize / 4) 0 size disk with
          | .failed disk => .failed disk
          | .done disk => .done disk
          | .more size disk =>
            let disk := blockFree B fs disk (node.pointer 13)
            if node.pointer 14 = 0 then .failed disk
            else
              match freeTriply B fs (readPointers B fs disk (node.pointer 14)) (node.pointer 14)
                  (fs.blockSize / 4) 0 size disk with
              | .failed disk => .failed disk
              | .done disk => .done disk
              | .more _ disk => .done (blockFree B fs disk (node.pointer 14))

/-- `ext2_inode_free` without the cache, which no bitmap depends on. -/
def inodeFree (disk : Mem) (node : Node) : Mem :=
  match freeFile B fs node disk with
  | .failed disk => disk
  | .done disk => freeInodeBit B fs disk node.inodeNbr
  | .more _ disk => freeInodeBit B fs disk node.inodeNbr

end Functions

/-! ## Which files are freed whole -/

/-- The pointer names a block in one of the groups, as `ext2_block_free` counts
them. -/
def Freeable (fs : Fs) (block : ℕ) : Prop :=
  block ≠ 0 ∧ block / fs.blocksPerBlockgroup < fs.blockgroupCount

/-- An indirect block of a file: it shares no byte with the block bitmaps. -/
structure IsTable (fs : Fs) (addr : ℕ → ℕ) (block : ℕ) : Prop where
  freeable : Freeable fs block
  apart : ∀ i < fs.blockgroupCount, addr i + fs.blockSize ≤ fs.blockAddr block ∨
    fs.blockAddr block + fs.blockSize ≤ addr i

/-- The pointers that `ext2_inode_free` follows for the blocks of a file. A file
that ends with a singly indirect block below the doubly indirect one needs one
pointer more, and a file that fills the doubly indirect block is not freed. -/
structure FreeableFile (fs : Fs) (addr : ℕ → ℕ) (disk : Mem) (node : Node) : Prop where
  direct : ∀ i < 12, i < fs.blocksOf node.length → Freeable fs (node.pointer i)
  singly : 12 < fs.blocksOf node.length → IsTable fs addr (node.pointer 12) ∧
    ∀ i < fs.blockSize / 4, 12 + i < fs.blocksOf node.length →
      Freeable fs (fs.entry disk (node.pointer 12) i)
  doubly : 12 + fs.blockSize / 4 < fs.blocksOf node.length → IsTable fs addr (node.pointer 13) ∧
    ∀ j < fs.blockSize / 4,
      12 + fs.blockSize / 4 + j * (fs.blockSize / 4) ≤ fs.blocksOf node.length →
        IsTable fs addr (fs.entry disk (node.pointer 13) j) ∧
        ∀ i < fs.blockSize / 4,
          12 + fs.blockSize / 4 + j * (fs.blockSize / 4) + i < fs.blocksOf node.length →
            Freeable fs (fs.entry disk (fs.entry disk (node.pointer 13) j) i)
  small : fs.blocksOf node.length <
    12 + fs.blockSize / 4 + fs.blockSize / 4 * (fs.blockSize / 4)

/-- The disks agree outside the bitmaps at `addr`. -/
def KeepsOutside (fs : Fs) (addr : ℕ → ℕ) (disk disk' : Mem) : Prop :=
  ∀ x, (∀ i < fs.blockgroupCount, x < addr i ∨ addr i + fs.blockSize ≤ x) → disk' x = disk x

section Walk
variable {B : BlockLayer} {fs : Fs} {addr : ℕ → ℕ} {disk disk' : Mem}

theorem KeepsOutside.trans {d d' d'' : Mem} (h : KeepsOutside fs addr d d')
    (h' : KeepsOutside fs addr d' d'') : KeepsOutside fs addr d d'' := fun x hx =>
  (h' x hx).trans (h x hx)

theorem KeepsOutside.mapsAt (h : KeepsOutside fs addr disk disk') (hg : Geometry fs addr)
    {usage : Usage} {addr' : ℕ → ℕ} (hm : MapsAt fs usage addr' disk) :
    MapsAt fs usage addr' disk' := by
  intro j hj
  rw [← hm j hj]
  unfold Fs.mapAddr
  congr 1
  apply Field.get_congr
  intro x _ hx
  apply h
  intro i hi
  have hle := usage.bitmap_le
  have hd := hg.descriptors i j hi hj
  unfold sizeofBlockGroupDescriptor at hd
  omega

/-- The pointers of an indirect block are kept with what lies outside the
bitmaps. -/
theorem IsTable.entry_eq {block : ℕ} (ht : IsTable fs addr block)
    (h : KeepsOutside fs addr disk disk') {i : ℕ} (hi : i < fs.blockSize / 4) :
    fs.entry disk' block i = fs.entry disk block i := by
  unfold Fs.entry
  apply loadLE_congr
  intro x hx hx'
  apply h
  intro j hj
  have := ht.apart j hj
  omega

/-- What the loops below rely on: the volume, and what has been freed so far. -/
structure Freeing (fs : Fs) (addr : ℕ → ℕ) (disk disk' : Mem) : Prop where
  geometry : Geometry fs addr
  maps : MapsAt fs blockUsage addr disk
  blocks_pos : 0 < fs.blocksPerBlockgroup
  blocks_le : fs.blocksPerBlockgroup ≤ 8 * fs.blockSize
  keeps : KeepsOutside fs addr disk disk'

theorem Freeing.blockFree (hB : B.Exact) (h : Freeing fs addr disk disk') {block : ℕ}
    (hb : Freeable fs block) : Freeing fs addr disk (blockFree B fs disk' block) := by
  refine ⟨h.geometry, h.maps, h.blocks_pos, h.blocks_le, fun x hx => ?_⟩
  have hle := h.blocks_le
  have hlt := Nat.mod_lt block h.blocks_pos
  have hx' := hx _ hb.2
  rw [blockFree_eq hB h.blocks_pos hle, (h.keeps.mapsAt h.geometry h.maps) _ hb.2,
    Function.update_of_ne (by omega)]
  exact h.keeps x hx

theorem Freeing.blockSize_pos (h : Freeing fs addr disk disk') : 0 < fs.blockSize := by
  have := h.blocks_pos
  have := h.blocks_le
  omega

/-- The loop over pointers that can be freed: it ends with the file or with the
array. -/
theorem freeEntries_spec (hB : B.Exact) (entry : ℕ → ℕ) (fuel i size : ℕ)
    (h : Freeing fs addr disk disk')
    (he : ∀ t, i ≤ t → t < i + fuel → t < i + fs.blocksOf size → Freeable fs (entry t)) :
    ∃ d, Freeing fs addr disk d ∧
      ((fs.blocksOf size < fuel ∧ freeEntries B fs entry fuel i size disk' = .done d) ∨
        ∃ size', fs.blocksOf size = fuel + fs.blocksOf size' ∧
          freeEntries B fs entry fuel i size disk' = .more size' d) := by
  induction fuel generalizing i size disk' with
  | zero => exact ⟨disk', h, Or.inr ⟨size, (Nat.zero_add _).symm, rfl⟩⟩
  | succ fuel ih =>
    rw [freeEntries]
    by_cases hs : size = 0
    · rw [if_pos hs]
      refine ⟨disk', h, Or.inl ⟨?_, rfl⟩⟩
      rw [hs, blocksOf_zero]
      omega
    · have hsub := blocksOf_sub h.blockSize_pos hs
      have hi := he i le_rfl (by omega) (by omega)
      rw [if_neg hs, if_neg hi.1]
      obtain ⟨d, hd, hcase⟩ := ih (i + 1) (size - fs.blockSize) (h.blockFree hB hi)
        fun t h1 h2 h3 => he t (by omega) (by omega) (by omega)
      refine ⟨d, hd, ?_⟩
      rcases hcase with ⟨h1, h2⟩ | ⟨size', h1, h2⟩
      · exact Or.inl ⟨by omega, h2⟩
      · exact Or.inr ⟨size', by omega, h2⟩

/-- The loop over the doubly indirect block ends with the file. -/
theorem freeDoubly_spec (hB : B.Exact) (doubly : ℕ → ℕ) (fuel j size : ℕ) {pointer : ℕ}
    (h : Freeing fs addr disk disk') (hp : Freeable fs pointer)
    (hsize : fs.blocksOf size < fuel * (fs.blockSize / 4))
    (he : ∀ t, t < fuel → t * (fs.blockSize / 4) ≤ fs.blocksOf size →
      IsTable fs addr (doubly (j + t)) ∧ ∀ i < fs.blockSize / 4,
        t * (fs.blockSize / 4) + i < fs.blocksOf size →
          Freeable fs (fs.entry disk (doubly (j + t)) i)) :
    ∃ d, Freeing fs addr disk d ∧
      freeDoubly B fs doubly pointer fuel j size disk' = .done d := by
  induction fuel generalizing j size disk' with
  | zero => omega
  | succ fuel ih =>
    obtain ⟨htable, hentries⟩ := he 0 (by omega) (by omega)
    rw [Nat.add_zero] at htable hentries
    rw [freeDoubly, if_neg htable.freeable.1]
    have hread : ∀ i < fs.blockSize / 4,
        readPointers B fs disk' (doubly j) i = fs.entry disk (doubly j) i := fun i hi => by
      rw [readPointers_eq hB disk' (doubly j) hi, htable.entry_eq h.keeps hi]
    obtain ⟨d, hd, hcase⟩ := freeEntries_spec hB (readPointers B fs disk' (doubly j))
      (fs.blockSize / 4) 0 size h fun t _ ht1 ht2 => by
        rw [hread t (by omega)]
        exact hentries t (by omega) (by omega)
    rcases hcase with ⟨-, h2⟩ | ⟨size', h1, h2⟩
    · rw [h2]
      exact ⟨_, (hd.blockFree hB htable.freeable).blockFree hB hp, rfl⟩
    · rw [h2]
      have hmul : (fuel + 1) * (fs.blockSize / 4) = fuel * (fs.blockSize / 4) + fs.blockSize / 4 :=
        Nat.succ_mul _ _
      refine ih (j + 1) _ (hd.blockFree hB htable.freeable) (by omega) fun t ht hle => ?_
      have hmul' : (t + 1) * (fs.blockSize / 4) = t * (fs.blockSize / 4) + fs.blockSize / 4 :=
        Nat.succ_mul _ _
      obtain ⟨g1, g2⟩ := he (t + 1) (by omega) (by omega)
      rw [show j + (t + 1) = j + 1 + t by omega] at g1 g2
      exact ⟨g1, fun i hi hlt => g2 i hi (by omega)⟩

/-- A file whose pointers are in order is freed whole. -/
theorem freeFile_done (hB : B.Exact) {node : Node} (h : Freeing fs addr disk disk)
    (hf : FreeableFile fs addr disk node) :
    ∃ d, Freeing fs addr disk d ∧ freeFile B fs node disk = .done d := by
  have hpos := h.blockSize_pos
  unfold freeFile
  obtain ⟨d, hd, hcase⟩ := freeEntries_spec hB node.pointer 12 0 node.length h fun t _ h1 h2 => hf.direct t (by omega) (by omega)
  rcases hcase with ⟨-, heq⟩ | ⟨size, hsize, heq⟩
  · rw [heq]
    exact ⟨d, hd, rfl⟩
  · rw [heq]
    dsimp only
    by_cases h0 : size = 0
    · rw [if_pos h0]
      exact ⟨d, hd, rfl⟩
    · have hne : fs.blocksOf size ≠ 0 := fun h' => h0 ((blocksOf_eq_zero_iff hpos size).mp h')
      obtain ⟨ht12, he12⟩ := hf.singly (by omega)
      rw [if_neg h0, if_neg ht12.freeable.1]
      obtain ⟨d1, hd1, hcase⟩ := freeEntries_spec hB
        (readPointers B fs d (node.pointer 12)) (fs.blockSize / 4) 0 size hd fun t _ h1 h2 => by
          rw [readPointers_eq hB d _ (by omega), ht12.entry_eq hd.keeps (by omega)]
          exact he12 t (by omega) (by omega)
      rcases hcase with ⟨-, heq1⟩ | ⟨size1, hsize1, heq1⟩
      · rw [heq1]
        exact ⟨_, hd1.blockFree hB ht12.freeable, rfl⟩
      · rw [heq1]
        dsimp only
        have hd2 := hd1.blockFree hB ht12.freeable
        by_cases h1 : size1 = 0
        · rw [if_pos h1]
          exact ⟨_, hd2, rfl⟩
        · have hne1 : fs.blocksOf size1 ≠ 0 :=
            fun h' => h1 ((blocksOf_eq_zero_iff hpos size1).mp h')
          obtain ⟨ht13, he13⟩ := hf.doubly (by omega)
          have hsmall := hf.small
          rw [if_neg h1, if_neg ht13.freeable.1]
          obtain ⟨d3, hd3, heq3⟩ := freeDoubly_spec hB
            (readPointers B fs (blockFree B fs d1 (node.pointer 12)) (node.pointer 13))
            (fs.blockSize / 4) 0 size1 hd2 ht13.freeable (by omega) fun t ht hle => by
              rw [Nat.zero_add, readPointers_eq hB _ _ ht, ht13.entry_eq hd2.keeps ht]
              obtain ⟨g1, g2⟩ := he13 t ht (by omega)
              exact ⟨g1, fun i hi hlt => g2 i hi (by omega)⟩
          rw [heq3]
          exact ⟨d3, hd3, rfl⟩

end Walk

/-! ## Runs -/

/-- Bit `k` of group `i` stands for the inode `nbr`. -/
structure IsInode (fs : Fs) (i k nbr : ℕ) : Prop where
  group : i < fs.blockgroupCount
  bit : k < fs.inodesPerBlockgroup
  eq : nbr = i * fs.inodesPerBlockgroup + k + 1

/-- A volume whose block bitmaps lie at `blockAddr` and whose inode bitmaps lie
at `inodeAddr`. The bits behind the inodes of a group are set. -/
structure InodeVolume (fs : Fs) (blockAddr inodeAddr : ℕ → ℕ) (disk : Mem) : Prop where
  geometry : Geometry fs inodeAddr
  maps : MapsAt fs inodeUsage inodeAddr disk
  inodes_pos : 0 < fs.inodesPerBlockgroup
  inodes_le : fs.inodesPerBlockgroup ≤ 8 * fs.blockSize
  inodes_lt : fs.blockgroupCount * fs.inodesPerBlockgroup < 2 ^ 32
  padding : ∀ i k, i < fs.blockgroupCount → fs.inodesPerBlockgroup ≤ k → k < 8 * fs.blockSize →
    mapBit inodeAddr disk i k = true
  blocks : Freeing fs blockAddr disk disk
  apart : ∀ i j, i < fs.blockgroupCount → j < fs.blockgroupCount →
    blockAddr i + fs.blockSize ≤ inodeAddr j ∨ inodeAddr j + fs.blockSize ≤ blockAddr i

/-- The volume, the disk, and the inodes that are live: those that have been so
from the start or returned by an allocation, and not been freed since. -/
structure InodeState where
  fs : Fs
  disk : Mem
  live : ℕ → Bool

inductive InodeOp
  | alloc
  | free (node : Node)

namespace InodeState
variable (B : BlockLayer) (blockAddr inodeAddr : ℕ → ℕ)

/-- Only live inodes are freed. -/
def step (s : InodeState) : InodeOp → Option InodeState
  | .alloc =>
    let r := inodeAlloc B s.fs s.disk
    some ⟨r.2.1, r.2.2, if r.1 = 0 then s.live else Function.update s.live r.1 true⟩
  | .free node =>
    if s.live node.inodeNbr then
      some ⟨s.fs, inodeFree B s.fs s.disk node, Function.update s.live node.inodeNbr false⟩
    else none

/-- Every live inode has its bit set. -/
structure Good (s : InodeState) : Prop where
  volume : InodeVolume s.fs blockAddr inodeAddr s.disk
  live : ∀ nbr, s.live nbr = true →
    ∃ i k, IsInode s.fs i k nbr ∧ mapBit inodeAddr s.disk i k = true

/-- What is expected of a step from `s` to `t`: a number that is returned is not
that of a live inode, and the bit of the inode is set; the bit of an inode that
is freed is cleared; no other bit changes. -/
def StepExact (s t : InodeState) : InodeOp → Prop
  | .alloc => ∀ nbr, (inodeAlloc B s.fs s.disk).1 = nbr → nbr ≠ 0 → s.live nbr = false ∧
      ∃ i k, IsInode s.fs i k nbr ∧ Flips s.fs inodeAddr s.disk t.disk i k true
  | .free node => ∃ i k, IsInode s.fs i k node.inodeNbr ∧
      Flips s.fs inodeAddr s.disk t.disk i k false

/-- A file that is freed has its pointers in order, and the bit of its inode is
the only one that is set in its byte. -/
def Careful (s : InodeState) : InodeOp → Prop
  | .alloc => True
  | .free node => FreeableFile s.fs blockAddr s.disk node ∧
      ∀ i k, IsInode s.fs i k node.inodeNbr →
        ∀ k', k' ≠ k → k' / 8 = k / 8 → mapBit inodeAddr s.disk i k' = false

end InodeState

section Runs
variable {B : BlockLayer} {blockAddr inodeAddr : ℕ → ℕ} {fs : Fs} {disk : Mem}

/-- The numbers of an inode in its group, as `ext2_inode_free` computes them. -/
theorem IsInode.index {i k nbr : ℕ} (h : IsInode fs i k nbr)
    (hlt : fs.blockgroupCount * fs.inodesPerBlockgroup < 2 ^ 32) :
    inodeIndex nbr / fs.inodesPerBlockgroup = i ∧
      inodeIndex nbr - i * fs.inodesPerBlockgroup = k := by
  have hbit := h.bit
  have hmul : (i + 1) * fs.inodesPerBlockgroup ≤ fs.blockgroupCount * fs.inodesPerBlockgroup :=
    Nat.mul_le_mul_right _ h.group
  rw [Nat.succ_mul] at hmul
  have hidx : inodeIndex nbr = i * fs.inodesPerBlockgroup + k := by
    unfold inodeIndex u32
    rw [h.eq]
    omega
  rw [hidx]
  refine ⟨?_, by omega⟩
  rw [Nat.add_comm, Nat.add_mul_div_right _ _ (by omega), Nat.div_eq_of_lt hbit, Nat.zero_add]

theorem IsInode.unique {i k i' k' nbr : ℕ} (h : IsInode fs i k nbr) (h' : IsInode fs i' k' nbr)
    (hlt : fs.blockgroupCount * fs.inodesPerBlockgroup < 2 ^ 32) : i = i' ∧ k = k' := by
  obtain ⟨h1, h2⟩ := h.index hlt
  obtain ⟨h1', h2'⟩ := h'.index hlt
  have hi : i = i' := h1.symm.trans h1'
  subst hi
  exact ⟨rfl, h2.symm.trans h2'⟩

theorem isInode_countDown (fs : Fs) (usage : Usage) (i k nbr : ℕ) :
    IsInode (fs.countDown usage) i k nbr ↔ IsInode fs i k nbr := by
  have hi : (fs.countDown usage).inodesPerBlockgroup = fs.inodesPerBlockgroup :=
    countDown_get fs usage (by decide)
  constructor
  · rintro ⟨h1, h2, h3⟩
    rw [hi] at h2 h3
    exact ⟨h1, h2, h3⟩
  · rintro ⟨h1, h2, h3⟩
    refine ⟨h1, ?_, ?_⟩
    · rw [hi]
      exact h2
    · rw [hi]
      exact h3

theorem InodeVolume.bit_lt (h : InodeVolume fs blockAddr inodeAddr disk) {i k : ℕ}
    (hi : i < fs.blockgroupCount) (hk : k < 8 * fs.blockSize)
    (hclear : mapBit inodeAddr disk i k = false) : k < fs.inodesPerBlockgroup := by
  by_contra hge
  have := h.padding i k hi (by omega) hk
  rw [this] at hclear
  cases hclear

/-- An allocation finds no clear bit and does nothing, or it sets the first one
and returns the number of its inode. -/
theorem inodeAlloc_cases (hB : B.Exact) (h : InodeVolume fs blockAddr inodeAddr disk) :
    inodeAlloc B fs disk = (0, fs, disk) ∨
    ∃ i k nbr disk', IsInode fs i k nbr ∧
      inodeAlloc B fs disk = (nbr, fs.countDown inodeUsage, disk') ∧
      InodeVolume (fs.countDown inodeUsage) blockAddr inodeAddr disk' ∧
      Flips fs inodeAddr disk disk' i k true := by
  have hno : NoSentinel inodeUsage fs disk := by
    intro i k hi hk hclear
    rw [h.maps i hi] at hclear
    have hlt := h.bit_lt hi hk hclear
    have hb := Superblock.inodesPerBlockgroup.get_lt fs.superblock
    change fs.inodesPerBlockgroup < 2 ^ 32 at hb
    omega
  rcases allocLoop_cases (fun fs i _ bit => u32 (i * fs.inodesPerBlockgroup + bit + 1)) hB hno
    fs.blockgroupCount 0 (Nat.zero_add _) with ⟨heq, -⟩ | ⟨i, k, disk', hfree, heq, hall⟩
  · exact Or.inl heq
  · have hi := hfree.lt
    have hk := hfree.clear.lt
    have hclear : mapBit inodeAddr disk i k = false := by
      unfold mapBit
      rw [← h.maps i hi]
      exact hfree.clear.clear
    have hflips := hall.flips h.geometry h.maps hi hk hclear
    have hbit := h.bit_lt hi hk hclear
    have hlt := h.inodes_lt
    have hmul : (i + 1) * fs.inodesPerBlockgroup ≤ fs.blockgroupCount * fs.inodesPerBlockgroup :=
      Nat.mul_le_mul_right _ hi
    rw [Nat.succ_mul] at hmul
    have hipg : (fs.countDown inodeUsage).inodesPerBlockgroup = fs.inodesPerBlockgroup :=
      countDown_get fs inodeUsage (by decide)
    refine Or.inr ⟨i, k, _, disk', ⟨hi, hbit, rfl⟩, ?_, ?_, hflips⟩
    · unfold inodeAlloc
      rw [heq, u32_of_lt (by omega)]
    · refine ⟨⟨h.geometry.apart, h.geometry.descriptors, h.geometry.superblock,
        h.geometry.superblock_descriptors⟩, hall.mapsAt h.geometry h.maps hi hk h.maps, ?_, ?_, ?_,
        ?_, ?_, h.apart⟩
      · rw [hipg]
        exact h.inodes_pos
      · rw [hipg]
        exact h.inodes_le
      · rw [hipg]
        exact hlt
      · intro j k' hj hge hk'
        rw [hipg] at hge
        by_cases hsame : j = i ∧ k' = k
        · rw [hsame.1, hsame.2]
          exact hflips.after
        · rw [hflips.others j k' hj hk' (by omega)]
          exact h.padding j k' hj hge hk'
      · have hb := h.blocks
        refine ⟨⟨hb.geometry.apart, hb.geometry.descriptors, hb.geometry.superblock,
          hb.geometry.superblock_descriptors⟩, hall.mapsAt h.geometry h.maps hi hk hb.maps, ?_, ?_,
          fun _ _ => rfl⟩
        · rw [countDown_blocksPerBlockgroup]
          exact hb.blocks_pos
        · rw [countDown_blocksPerBlockgroup]
          exact hb.blocks_le

/-- A file in order is freed, and of the inode bitmaps one byte is cleared. -/
theorem inodeFree_eq (hB : B.Exact) (h : InodeVolume fs blockAddr inodeAddr disk) {node : Node}
    (hf : FreeableFile fs blockAddr disk node) {i k : ℕ} (hn : IsInode fs i k node.inodeNbr) :
    ∃ d, Freeing fs blockAddr disk d ∧
      inodeFree B fs disk node = Function.update d (inodeAddr i + k / 8) 0 := by
  obtain ⟨d, hd, heq⟩ := freeFile_done hB h.blocks hf
  refine ⟨d, hd, ?_⟩
  obtain ⟨h1, h2⟩ := hn.index h.inodes_lt
  have hbit := hn.bit
  have hle := h.inodes_le
  unfold inodeFree
  rw [heq]
  unfold freeInodeBit
  dsimp only
  rw [h1, h2, freeBit_eq hB _ (by omega), hd.keeps.mapsAt hd.geometry h.maps i hn.group]

/-- The inode bitmaps are outside the block bitmaps. -/
theorem Freeing.mapBit_eq {d : Mem} (hd : Freeing fs blockAddr disk d)
    (h : InodeVolume fs blockAddr inodeAddr disk) {j k : ℕ} (hj : j < fs.blockgroupCount)
    (hk : k < 8 * fs.blockSize) : mapBit inodeAddr d j k = mapBit inodeAddr disk j k := by
  apply bit_congr
  apply hd.keeps
  intro i hi
  have := h.apart i j hi hj
  omega

namespace InodeState
variable {s t : InodeState}

theorem step_free_eq {node : Node} (hstep : s.step B (.free node) = some t) :
    s.live node.inodeNbr = true ∧
      t = ⟨s.fs, inodeFree B s.fs s.disk node, Function.update s.live node.inodeNbr false⟩ := by
  unfold step at hstep
  by_cases hlive : s.live node.inodeNbr = true
  · simp only [if_pos hlive, Option.some.injEq] at hstep
    exact ⟨hlive, hstep.symm⟩
  · simp only [if_neg hlive] at hstep
    cases hstep

/-- A careful release clears the bit of the inode and nothing else in the
bitmaps. -/
theorem free_flips (hB : B.Exact) (hg : s.Good blockAddr inodeAddr) {node : Node}
    (hcareful : s.Careful blockAddr inodeAddr (.free node)) (hlive : s.live node.inodeNbr = true) :
    ∃ i k, IsInode s.fs i k node.inodeNbr ∧
      Flips s.fs inodeAddr s.disk (inodeFree B s.fs s.disk node) i k false := by
  obtain ⟨i, k, hn, hset⟩ := hg.live _ hlive
  obtain ⟨d, hd, heq⟩ := inodeFree_eq hB hg.volume hcareful.1 hn
  have hi := hn.group
  have hbit := hn.bit
  have hle := hg.volume.inodes_le
  have hkeep : ∀ {j k'}, j < s.fs.blockgroupCount → k' < 8 * s.fs.blockSize →
      mapBit inodeAddr d j k' = mapBit inodeAddr s.disk j k' :=
    fun hj hk => hd.mapBit_eq hg.volume hj hk
  have hflips := (flips_update_zero_iff hg.volume.geometry hi (show k < 8 * s.fs.blockSize by omega)
    ((hkeep hi (by omega)).trans hset)).mpr fun k' hne hb => by
      rw [hkeep hi (by omega)]
      exact hcareful.2 i k hn k' hne hb
  refine ⟨i, k, hn, ?_⟩
  rw [heq]
  refine ⟨hset, hflips.after, fun j k' hj hk' hne => ?_⟩
  rw [hflips.others j k' hj hk' hne, hkeep hj hk']

theorem alloc_exact (hB : B.Exact) (hg : s.Good blockAddr inodeAddr)
    (hstep : s.step B .alloc = some t) : StepExact B inodeAddr s t .alloc := by
  obtain rfl := Option.some.inj hstep
  intro nbr hnbr hne
  rcases inodeAlloc_cases hB hg.volume with heq | ⟨i, k, nbr', disk', hn, heq, -, hflips⟩
  · rw [heq] at hnbr
    exact absurd hnbr.symm hne
  · rw [heq] at hnbr
    dsimp only at hnbr
    subst hnbr
    refine ⟨?_, i, k, hn, ?_⟩
    · by_contra hlive
      rw [Bool.not_eq_false] at hlive
      obtain ⟨j, l, hn', hset⟩ := hg.live _ hlive
      obtain ⟨rfl, rfl⟩ := hn.unique hn' hg.volume.inodes_lt
      have := hflips.before
      rw [hset] at this
      cases this
    · rw [heq]
      exact hflips

theorem Good.alloc (hB : B.Exact) (hg : s.Good blockAddr inodeAddr)
    (hstep : s.step B .alloc = some t) : t.Good blockAddr inodeAddr := by
  obtain rfl := Option.some.inj hstep
  rcases inodeAlloc_cases hB hg.volume with heq | ⟨i, k, nbr, disk', hn, heq, hvol, hflips⟩
  · rw [heq]
    exact hg
  · simp only [heq]
    refine ⟨hvol, fun nbr' hlive => ?_⟩
    dsimp only at hlive ⊢
    simp only [isInode_countDown]
    have h0 : nbr ≠ 0 := by
      rw [hn.eq]
      omega
    rw [if_neg h0] at hlive
    by_cases hnew : nbr' = nbr
    · rw [hnew]
      exact ⟨i, k, hn, hflips.after⟩
    · rw [Function.update_of_ne hnew] at hlive
      obtain ⟨j, l, hn', hset⟩ := hg.live _ hlive
      refine ⟨j, l, hn', ?_⟩
      have hl := hn'.bit
      have hle := hg.volume.inodes_le
      rw [hflips.others j l hn'.group (by omega) ?_]
      · exact hset
      · by_contra hno
        push Not at hno
        apply hnew
        rw [hn'.eq, hn.eq, hno.1, hno.2]

theorem Good.free (hB : B.Exact) (hg : s.Good blockAddr inodeAddr) {node : Node}
    (hcareful : s.Careful blockAddr inodeAddr (.free node))
    (hstep : s.step B (.free node) = some t) : t.Good blockAddr inodeAddr := by
  obtain ⟨hlive, rfl⟩ := step_free_eq hstep
  obtain ⟨i, k, hn, hfl⟩ := free_flips hB hg hcareful hlive
  obtain ⟨d, hd, heq⟩ := inodeFree_eq hB hg.volume hcareful.1 hn
  have hv := hg.volume
  have hi := hn.group
  have hbit := hn.bit
  have hle := hv.inodes_le
  refine ⟨⟨hv.geometry, ?_, hv.inodes_pos, hv.inodes_le, hv.inodes_lt, ?_, ?_, hv.apart⟩, ?_⟩
  · dsimp only
    rw [heq]
    exact mapsAt_update hv.geometry hi (by omega) (hd.keeps.mapsAt hd.geometry hv.maps)
  · intro j l hj hge hl
    rw [hfl.others j l hj hl (by
      by_contra hno
      push Not at hno
      dsimp only at hge
      omega)]
    exact hv.padding j l hj hge hl
  · refine ⟨hd.geometry, ?_, hd.blocks_pos, hd.blocks_le, fun _ _ => rfl⟩
    dsimp only
    rw [heq]
    exact mapsAt_update hv.geometry hi (by omega) (hd.keeps.mapsAt hd.geometry hd.maps)
  · intro nbr hnbr
    dsimp only at hnbr ⊢
    have hne : nbr ≠ node.inodeNbr := by
      rintro rfl
      rw [Function.update_self] at hnbr
      cases hnbr
    rw [Function.update_of_ne hne] at hnbr
    obtain ⟨j, l, hn', hset⟩ := hg.live _ hnbr
    refine ⟨j, l, hn', ?_⟩
    have hl := hn'.bit
    rw [hfl.others j l hn'.group (by omega) ?_]
    · exact hset
    · by_contra hno
      push Not at hno
      apply hne
      rw [hn'.eq, hn.eq, hno.1, hno.2]

theorem Good.step (hB : B.Exact) (hg : s.Good blockAddr inodeAddr) {op : InodeOp}
    (hcareful : s.Careful blockAddr inodeAddr op) (hstep : s.step B op = some t) :
    t.Good blockAddr inodeAddr := by
  cases op with
  | alloc => exact hg.alloc hB hstep
  | free node => exact hg.free hB hcareful hstep

/-- In every run of careful steps every step is exact. -/
theorem inodes_exact_of_careful (hB : B.Exact) (hg : s.Good blockAddr inodeAddr)
    (h : Reach (InodeState.step B) (Careful blockAddr inodeAddr) s t) {op : InodeOp}
    {u : InodeState} (hcareful : t.Careful blockAddr inodeAddr op) (hstep : t.step B op = some u) :
    StepExact B inodeAddr t u op := by
  have hgood : t.Good blockAddr inodeAddr := Reach.invariant (I := Good blockAddr inodeAddr)
    (fun _ _ _ hi hc hu => hi.step hB hc hu) hg h
  cases op with
  | alloc => exact alloc_exact hB hgood hstep
  | free node =>
    obtain ⟨hlive, rfl⟩ := step_free_eq hstep
    exact free_flips hB hgood hcareful hlive

end InodeState

end Runs

/-- The volume of one group with 8192 inodes. -/
def oneGroupInodes : Fs := { oneGroup with superblock := storeLE oneGroup.superblock 40 4 8192 }

/-- Its disk: the inode bitmap is block 4 and begins with three given bytes. -/
def oneGroupInodesDisk (b0 b1 b2 : UInt8) : Mem :=
  Function.update (Function.update (Function.update
    (storeLE (storeLE (fun _ => 0) 2048 4 3) 2052 4 4) 4096 b0) 4097 b1) 4098 b2

theorem oneGroupInodes_geometry {a : ℕ} (ha : 2080 ≤ a) : Geometry oneGroupInodes fun _ => a := by
  have h0 : oneGroupInodes.descriptorAddr 0 = 2048 := by decide
  have hs : oneGroupInodes.superblockAddr = 1024 := by decide
  constructor
  · intro i j hi hj hne
    change i < 1 at hi
    change j < 1 at hj
    omega
  · intro i j hi hj
    change j < 1 at hj
    rw [show j = 0 by omega, h0]
    unfold sizeofBlockGroupDescriptor
    omega
  · intro i hi
    rw [hs]
    unfold sizeofSuperblock
    omega
  · intro j hj
    change j < 1 at hj
    rw [show j = 0 by omega, h0, hs]
    decide

/-- The descriptor names the two bitmaps whatever they begin with. -/
theorem oneGroupInodes_mapsAt (usage : Usage) (b0 b1 b2 : UInt8) :
    MapsAt oneGroupInodes usage
      (fun _ => oneGroupInodes.mapAddr usage (storeLE (storeLE (fun _ => 0) 2048 4 3) 2052 4 4) 0)
      (oneGroupInodesDisk b0 b1 b2) := by
  intro i hi
  change i < 1 at hi
  rw [show i = 0 by omega]
  unfold Fs.mapAddr
  congr 1
  apply Field.get_congr
  intro x _ hx
  have hle := usage.bitmap_le
  have h0 : oneGroupInodes.descriptorAddr 0 = 2048 := by decide
  unfold window oneGroupInodesDisk
  rw [h0, Function.update_of_ne (by omega), Function.update_of_ne (by omega),
    Function.update_of_ne (by omega)]

theorem oneGroupInodes_volume (b0 b1 b2 : UInt8) :
    InodeVolume oneGroupInodes (fun _ => 3072) (fun _ => 4096) (oneGroupInodesDisk b0 b1 b2) where
  geometry := oneGroupInodes_geometry (by decide)
  maps := oneGroupInodes_mapsAt inodeUsage b0 b1 b2
  inodes_pos := by decide
  inodes_le := by decide
  inodes_lt := by decide
  padding := by
    intro i k hi hge hk
    have hipg : oneGroupInodes.inodesPerBlockgroup = 8192 := by decide
    change k < 8 * 1024 at hk
    omega
  blocks := ⟨oneGroupInodes_geometry (by decide), oneGroupInodes_mapsAt blockUsage b0 b1 b2,
    by decide, by decide, fun _ _ => rfl⟩
  apart := fun _ _ _ _ => Or.inl (by decide)

/-- A node with one direct block, or with none. -/
def shortFile (inodeNbr length : ℕ) (hi : inodeNbr < 2 ^ 32) (hl : length < 2 ^ 64) : Node where
  length := length
  attributes := 0
  hardLinks := 1
  creationTime := 0
  lastAccessTime := 0
  lastModificationTime := 0
  inodeNbr := inodeNbr
  pointer := fun k => if k = 0 then 20 else 0
  length_lt := hl
  attributes_lt := Node.noAttributes
  hardLinks_lt := Node.oneLink
  creationTime_lt := Node.noTime
  lastAccessTime_lt := Node.noTime
  lastModificationTime_lt := Node.noTime
  inodeNbr_lt := hi
  pointer_lt := fun k => by split_ifs <;> decide

/-- The first inode is allocated, and freed with its file of one block. -/
theorem inodes_exact_first_inode :
    let s : InodeState := ⟨oneGroupInodes, oneGroupInodesDisk 0 0 0, fun _ => false⟩
    let node := shortFile 1 1000 (by decide) (by decide)
    ∃ t u, s.step (.exactWith fun _ => 0) .alloc = some t ∧
      InodeState.StepExact (.exactWith fun _ => 0) (fun _ => 4096) s t .alloc ∧
      t.step (.exactWith fun _ => 0) (.free node) = some u ∧
      InodeState.StepExact (.exactWith fun _ => 0) (fun _ => 4096) t u (.free node) := by
  intro s node
  have hB := BlockLayer.exact_exactWith fun _ => 0
  have hg : s.Good (fun _ => 3072) (fun _ => 4096) :=
    ⟨oneGroupInodes_volume 0 0 0, fun b hb => Bool.noConfusion hb⟩
  let r := inodeAlloc (.exactWith fun _ => 0) s.fs s.disk
  let t : InodeState := ⟨r.2.1, r.2.2, if r.1 = 0 then s.live else Function.update s.live r.1 true⟩
  have hblocks : t.fs.blocksOf node.length = 1 := by decide
  have hfree : t.Careful (fun _ => 3072) (fun _ => 4096) (.free node) := by
    refine ⟨⟨fun i hi hlt => ?_, fun h => absurd h (by omega), fun h => absurd h (by omega), ?_⟩,
      fun i k hn k' hne hbyte => ?_⟩
    · rw [show i = 0 by omega]
      exact ⟨by decide, by decide⟩
    · rw [hblocks]
      decide
    · have hlt : t.fs.blockgroupCount * t.fs.inodesPerBlockgroup < 2 ^ 32 := by decide
      obtain ⟨rfl, rfl⟩ := hn.unique
        (show IsInode t.fs 0 0 1 from ⟨by decide, by decide, by decide⟩) hlt
      have hk : k' < 8 := by omega
      interval_cases k'
      · exact absurd rfl hne
      all_goals decide
  have hlive : t.live 1 = true := by decide
  have hstep : t.step (.exactWith fun _ => 0) (.free node) =
      some ⟨t.fs, inodeFree (.exactWith fun _ => 0) t.fs t.disk node,
        Function.update t.live 1 false⟩ := if_pos hlive
  refine ⟨t, _, rfl, ?_, hstep, ?_⟩
  · exact InodeState.inodes_exact_of_careful hB hg Reach.start trivial rfl
  · exact InodeState.inodes_exact_of_careful hB hg (Reach.start.next (a := .alloc) trivial rfl) hfree
      hstep

/-- The inodes 17 and 18 are live. -/
def twoLive : InodeState where
  fs := oneGroupInodes
  disk := oneGroupInodesDisk 0xFF 0xFF 0x03
  live := fun n => n = 17 || n = 18

theorem twoLive_isInode : IsInode twoLive.fs 0 16 17 ∧ IsInode twoLive.fs 0 17 18 :=
  ⟨⟨by decide, by decide, by decide⟩, ⟨by decide, by decide, by decide⟩⟩

theorem twoLive_good : twoLive.Good (fun _ => 3072) (fun _ => 4096) := by
  refine ⟨oneGroupInodes_volume 0xFF 0xFF 0x03, fun n hn => ?_⟩
  have hn' : n = 17 ∨ n = 18 := by
    change (decide (n = 17) || decide (n = 18)) = true at hn
    simpa using hn
  rcases hn' with rfl | rfl
  · exact ⟨0, 16, twoLive_isInode.1, by decide⟩
  · exact ⟨0, 17, twoLive_isInode.2, by decide⟩

/-- Inode 18 without any block. -/
def emptyFile : Node := shortFile 18 0 (by decide) (by decide)

/-- The release of one of two live inodes clears the bits of both, and the next
allocation returns the other one. -/
theorem inodes_not_unique_after_free :
    twoLive.Good (fun _ => 3072) (fun _ => 4096) ∧
      ∃ t, twoLive.step (.exactWith fun _ => 0) (.free emptyFile) = some t ∧
        ¬InodeState.StepExact (.exactWith fun _ => 0) (fun _ => 4096) twoLive t (.free emptyFile) ∧
        t.live 17 = true ∧ (inodeAlloc (.exactWith fun _ => 0) t.fs t.disk).1 = 17 := by
  refine ⟨twoLive_good, _, rfl, fun hexact => ?_, by decide, by decide⟩
  obtain ⟨i, k, hn, hfl⟩ := hexact
  obtain ⟨rfl, rfl⟩ := hn.unique twoLive_isInode.2 (by decide)
  exact absurd (hfl.others 0 16 (by decide) (by decide) (Or.inr (by decide))) (by decide)

end VkKernel.Ext2
