import VkKernel.BlockLayer

/-!
# Ext2 volumes

The packed structures of `ext2.h`, the mounted volume, and the arithmetic that
leads from block and inode numbers to sectors. A structure in memory is a byte
memory read through its fields, as the disk is.
-/

namespace VkKernel.Ext2
open ByteMemory PackedStruct IntervalUpdate

/-! ## Structures on the disk -/

namespace Superblock

def inodes : Field := ⟨0, 4⟩
def blocks : Field := ⟨4, 4⟩
def unallocatedBlocks : Field := ⟨12, 4⟩
def unallocatedInodes : Field := ⟨16, 4⟩
def superblockNumber : Field := ⟨20, 4⟩
def blockSize : Field := ⟨24, 4⟩
def blocksPerBlockgroup : Field := ⟨32, 4⟩
def inodesPerBlockgroup : Field := ⟨40, 4⟩
def signature : Field := ⟨56, 2⟩
def versionMajor : Field := ⟨76, 4⟩
def inodeStructSize : Field := ⟨88, 2⟩
def requiredFeatures : Field := ⟨96, 4⟩
def readOnlyFeatures : Field := ⟨100, 4⟩

end Superblock

def sizeofSuperblock : ℕ := 236

namespace BlockGroupDescriptor

def blockAddressBlockUsage : Field := ⟨0, 4⟩
def blockAddressInodeUsage : Field := ⟨4, 4⟩
def startingBlockAdress : Field := ⟨8, 4⟩
def unallocatedBlocks : Field := ⟨12, 2⟩
def unallocatedInodes : Field := ⟨14, 2⟩

end BlockGroupDescriptor

def sizeofBlockGroupDescriptor : ℕ := 32

namespace Inode

def typeAndPermissions : Field := ⟨0, 2⟩
def userId : Field := ⟨2, 2⟩
def sizeLow : Field := ⟨4, 4⟩
def lastAccessTime : Field := ⟨8, 4⟩
def creationTime : Field := ⟨12, 4⟩
def lastModificationTime : Field := ⟨16, 4⟩
def deletionTime : Field := ⟨20, 4⟩
def groupId : Field := ⟨24, 2⟩
def hardLinks : Field := ⟨26, 2⟩
def usedDiskSectors : Field := ⟨28, 4⟩
def flags : Field := ⟨32, 4⟩
def osSpecific1 : Field := ⟨36, 4⟩
/-- The twelve direct pointers, then the three indirect ones. -/
def blockPointer (k : ℕ) : Field := ⟨40 + 4 * k, 4⟩
def generationNumber : Field := ⟨100, 4⟩
def extendedAttributes : Field := ⟨104, 4⟩
def directoryAcl : Field := ⟨108, 4⟩
def fragmentBlockAdress : Field := ⟨112, 4⟩
def osSpecific2 : Field := ⟨116, 12⟩

end Inode

def sizeofInode : ℕ := 128

def rofeatureSize64 : ℕ := 0x2

/-! ## Mounted volumes and nodes -/

/-- A `file_system_t` with its `ext2fs_specific_t`. -/
structure Fs where
  superblock : Mem
  superblockOffset : ℕ
  blockSize : ℕ
  blockgroupCount : ℕ
  readOnly : Bool

def fileAttrDir : ℕ := 0x1

/-- An `fsnode_t` with its `ext2_node_specific_t`, within the ranges of their
types. The times are the bit patterns of the signed fields, and the fifteen
block pointers are numbered as on the disk. -/
structure Node where
  length : ℕ
  attributes : ℕ
  hardLinks : ℕ
  creationTime : ℕ
  lastAccessTime : ℕ
  lastModificationTime : ℕ
  inodeNbr : ℕ
  pointer : ℕ → ℕ
  length_lt : length < 2 ^ 64
  attributes_lt : attributes < 2 ^ 8
  hardLinks_lt : hardLinks < 2 ^ 32
  creationTime_lt : creationTime < 2 ^ 32
  lastAccessTime_lt : lastAccessTime < 2 ^ 32
  lastModificationTime_lt : lastModificationTime < 2 ^ 32
  inodeNbr_lt : inodeNbr < 2 ^ 32
  pointer_lt : ∀ k, pointer k < 2 ^ 32

theorem Node.noAttributes : 0 < 2 ^ 8 := by decide

theorem Node.oneLink : 1 < 2 ^ 32 := by decide

theorem Node.noTime : 0 < 2 ^ 32 := by decide

/-- The first inode that files get. -/
theorem Node.firstFile : 12 < 2 ^ 32 := by decide

def Node.isDir (node : Node) : Prop := node.attributes &&& fileAttrDir ≠ 0

instance (node : Node) : Decidable node.isDir := inferInstanceAs (Decidable (_ ≠ _))

/-- `inode - 1` on 32 bits. -/
def inodeIndex (inode : ℕ) : ℕ := u32 (inode + (2 ^ 32 - 1))

/-- The byte of a descriptor in the block group descriptor table. -/
def bgReadOffset (group : ℕ) : ℕ := u32 (group * sizeofBlockGroupDescriptor)

namespace Fs
variable (fs : Fs)

/-- The sector at which a block starts: `superblock_offset+BLOCK_OFFSET(block)`. -/
def sectorOf (block : ℕ) : ℕ := u32 (fs.superblockOffset + u32 (block * (fs.blockSize / 512)))

/-- The first byte of a block on the disk. -/
def blockAddr (block : ℕ) : ℕ := bytesPerSector * fs.sectorOf block

def blockGroupDescriptorTable : ℕ := if fs.blockSize = 1024 then 2 else 1

/-- A file of a volume with this feature has a 64-bit size, unless it is a directory. -/
def hasSize64 : Prop :=
  Superblock.versionMajor.get fs.superblock ≥ 1 ∧
    Superblock.readOnlyFeatures.get fs.superblock &&& rofeatureSize64 ≠ 0

instance : Decidable fs.hasSize64 := inferInstanceAs (Decidable (_ ∧ _))

def inodeSize : ℕ :=
  if Superblock.versionMajor.get fs.superblock ≥ 1 then
    Superblock.inodeStructSize.get fs.superblock
  else 128

def inodesPerBlockgroup : ℕ := Superblock.inodesPerBlockgroup.get fs.superblock

def inodes : ℕ := Superblock.inodes.get fs.superblock

def blocksPerBlockgroup : ℕ := Superblock.blocksPerBlockgroup.get fs.superblock

def superblockNumber : ℕ := Superblock.superblockNumber.get fs.superblock

def inodeBlockGroup (inode : ℕ) : ℕ := inodeIndex inode / fs.inodesPerBlockgroup

/-- The byte of an inode in the inode table of its group. -/
def inodeReadOffset (inode : ℕ) : ℕ :=
  u32 (inodeIndex inode % fs.inodesPerBlockgroup * fs.inodeSize)

/-- The first byte of the descriptor that is read for a group. -/
def descriptorAddr (group : ℕ) : ℕ :=
  fs.blockAddr fs.blockGroupDescriptorTable + bgReadOffset group

/-- The number of blocks of a file. -/
def blocksOf (size : ℕ) : ℕ := (size + (fs.blockSize - 1)) / fs.blockSize

/-- The pointer `i` of an indirect block on the disk. -/
def entry (disk : Mem) (block i : ℕ) : ℕ := loadLE disk (fs.blockAddr block + 4 * i) 4

end Fs

variable (B : BlockLayer) (fs : Fs) (disk : Mem)

/-- The read of a block group descriptor, as every function does it. -/
def readDescriptor (group : ℕ) : ErrorT × Mem :=
  B.read disk (fs.sectorOf fs.blockGroupDescriptorTable) (bgReadOffset group)
    sizeofBlockGroupDescriptor

/-- An indirect block as an array of pointers. -/
def readPointers (block : ℕ) : ℕ → ℕ := fun i =>
  loadLE (B.read disk (fs.sectorOf block) 0 fs.blockSize).2 (4 * i) 4

section Blocks
variable {B : BlockLayer} {fs : Fs}

theorem blocksOf_zero (fs : Fs) : fs.blocksOf 0 = 0 := by
  unfold Fs.blocksOf
  rw [Nat.zero_add]
  rcases Nat.eq_zero_or_pos fs.blockSize with h | h
  · rw [h]
  · exact Nat.div_eq_of_lt (by omega)

/-- One block less. -/
theorem blocksOf_sub (hbs : 0 < fs.blockSize) {size : ℕ} (h : size ≠ 0) :
    fs.blocksOf size = fs.blocksOf (size - fs.blockSize) + 1 := by
  unfold Fs.blocksOf
  by_cases hle : fs.blockSize ≤ size
  · rw [show size + (fs.blockSize - 1) = size - fs.blockSize + (fs.blockSize - 1) + fs.blockSize by
      omega, Nat.add_div_right _ hbs]
  · rw [show size - fs.blockSize = 0 by omega, Nat.zero_add,
      Nat.div_eq_of_lt (show fs.blockSize - 1 < fs.blockSize by omega),
      show size + (fs.blockSize - 1) = size - 1 + fs.blockSize by omega, Nat.add_div_right _ hbs,
      Nat.div_eq_of_lt (by omega)]

theorem blocksOf_eq_zero_iff (hbs : 0 < fs.blockSize) (size : ℕ) :
    fs.blocksOf size = 0 ↔ size = 0 := by
  constructor
  · intro h
    by_contra hne
    rw [blocksOf_sub hbs hne] at h
    omega
  · rintro rfl
    exact blocksOf_zero fs

theorem readPointers_eq (hB : B.Exact) (disk : Mem) (block : ℕ) {i : ℕ} (hi : i < fs.blockSize / 4) :
    readPointers B fs disk block i = fs.entry disk block i := by
  unfold readPointers Fs.entry
  rw [← loadLE_window disk]
  apply loadLE_congr
  intro x _ hx
  rw [hB.read_data _ _ _ _ x (by omega)]
  rfl

end Blocks

/-- `ext2_init` up to the read of the root directory, from the superblock of the
volume that starts at sector `start`. -/
def mountSuperblock (start : ℕ) : Option Fs :=
  let superblock := (B.read disk (u32 (start + 2)) 0 sizeofSuperblock).2
  if Superblock.signature.get superblock ≠ 0xef53 ∨
      (Superblock.versionMajor.get superblock ≥ 1 ∧
        Superblock.requiredFeatures.get superblock % 2 = 1) then none
  else
    let blocks := u32 (Superblock.blocks.get superblock + 2 ^ 32 -
      Superblock.superblockNumber.get superblock)
    let perGroup := Superblock.blocksPerBlockgroup.get superblock
    some {
      superblock
      superblockOffset := start
      blockSize := u32 (1024 <<< Superblock.blockSize.get superblock)
      blockgroupCount := blocks / perGroup + if blocks % perGroup = 0 then 0 else 1
      readOnly := Superblock.readOnlyFeatures.get superblock &&& 4 ≠ 0 }

end VkKernel.Ext2
