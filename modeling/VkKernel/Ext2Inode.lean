import VkKernel.Ext2

/-!
# Inodes on the disk

`ext2_std_inode_read` on a cache miss, `ext2_std_inode_write`, and the inode
that `ext2_create_file` writes. The three compute the place of an inode in the
same way and differ in what they do with its 128 bytes.
-/

namespace VkKernel.Ext2
open ByteMemory PackedStruct IntervalUpdate

/-! ## The inode structure -/

/-- `memcpy` of the first `n` block pointers of a node into an inode. -/
def copyPointers (pointer : ℕ → ℕ) : ℕ → Mem → Mem
  | 0, raw => raw
  | n + 1, raw => (Inode.blockPointer n).set (copyPointers pointer n raw) (pointer n)

/-- The normalization of an inode to an `fsnode_t`. -/
def normalizeInode (fs : Fs) (inode : ℕ) (raw : Mem) : Node :=
  let isDir := Inode.typeAndPermissions.get raw >>> 12 = 4
  let sizeLow := Inode.sizeLow.get raw
  { length :=
      if ¬isDir ∧ fs.hasSize64 then sizeLow ||| Inode.directoryAcl.get raw <<< 32 else sizeLow
    attributes := if isDir then fileAttrDir else 0
    hardLinks := Inode.hardLinks.get raw
    creationTime := Inode.creationTime.get raw
    lastAccessTime := Inode.lastAccessTime.get raw
    lastModificationTime := Inode.lastModificationTime.get raw
    inodeNbr := u32 inode
    pointer := fun k => if k < 15 then (Inode.blockPointer k).get raw else 0
    length_lt := by
      have hl : Inode.sizeLow.get raw < 2 ^ 64 :=
        (Field.get_lt _ raw).trans_le (by decide)
      have hh : Inode.directoryAcl.get raw <<< 32 < 2 ^ 64 := by
        have := Field.get_lt Inode.directoryAcl raw
        change _ < 2 ^ 32 at this
        rw [Nat.shiftLeft_eq]
        omega
      split
      · exact Nat.or_lt_two_pow hl hh
      · exact hl
    attributes_lt := by split <;> decide
    hardLinks_lt := (Field.get_lt _ raw).trans_le (by decide)
    creationTime_lt := Field.get_lt _ raw
    lastAccessTime_lt := Field.get_lt _ raw
    lastModificationTime_lt := Field.get_lt _ raw
    inodeNbr_lt := u32_lt inode
    pointer_lt := by
      intro k
      split
      · exact Field.get_lt _ raw
      · decide }

/-- The inode after `ext2_std_inode_write` has changed it to match the node. The
link count is not among the fields that are set. -/
def encodeInode (fs : Fs) (node : Node) (raw : Mem) : Mem :=
  let raw := Inode.typeAndPermissions.set raw (if node.isDir then 0x4000 else 0)
  let raw := Inode.sizeLow.set raw (node.length &&& 0xFFFFFFFF)
  let raw :=
    if ¬node.isDir ∧ fs.hasSize64 then Inode.directoryAcl.set raw (u32 (node.length >>> 32))
    else raw
  let raw := Inode.creationTime.set raw node.creationTime
  let raw := Inode.lastAccessTime.set raw node.lastAccessTime
  let raw := Inode.lastModificationTime.set raw node.lastModificationTime
  copyPointers node.pointer 15 raw

/-- The inode that `ext2_create_file` builds on its stack frame, which holds
`stack` before. The modification time keeps what the stack had there. -/
def newInode (attributes currentTime block : ℕ) (stack : Mem) : Mem :=
  let raw := Inode.typeAndPermissions.set stack
    (if attributes &&& fileAttrDir ≠ 0 then 0x4000 else 0x8000)
  let raw := Inode.userId.set raw 0
  let raw := Inode.groupId.set raw 0
  let raw := Inode.lastAccessTime.set raw currentTime
  let raw := Inode.creationTime.set raw currentTime
  let raw := Inode.lastAccessTime.set raw currentTime
  let raw := Inode.deletionTime.set raw 0
  let raw := Inode.sizeLow.set raw 0
  let raw := Inode.hardLinks.set raw 1
  let raw := Inode.usedDiskSectors.set raw 0
  let raw := Inode.flags.set raw 0
  let raw := Inode.osSpecific1.set raw 0
  let raw := Inode.osSpecific2.set raw 0
  let raw := copyPointers (fun k => if k = 0 then block else 0) 15 raw
  let raw := Inode.generationNumber.set raw 0
  let raw := Inode.extendedAttributes.set raw 0
  let raw := Inode.directoryAcl.set raw 0
  Inode.fragmentBlockAdress.set raw 0

/-! ## Reading and writing one inode -/

section Access
variable (B : BlockLayer) (fs : Fs) (disk : Mem)

/-- The sector and the byte offset at which an inode is read and written. -/
def locateInode (inode : ℕ) : ErrorT × ℕ × ℕ :=
  let inodeBg := readDescriptor B fs disk (fs.inodeBlockGroup inode)
  (inodeBg.1, fs.sectorOf (BlockGroupDescriptor.startingBlockAdress.get inodeBg.2),
    fs.inodeReadOffset inode)

def readInode (inode : ℕ) : ErrorT × Mem :=
  let (readop0, sector, offset) := locateInode B fs disk inode
  if readop0 ≠ .none then (readop0, fun _ => 0)
  else B.read disk sector offset sizeofInode

/-- `ext2_std_inode_read` after the lookup in the cache; null on a read error. -/
def stdInodeRead (inode : ℕ) : Option Node :=
  let (readop, raw) := readInode B fs disk inode
  if readop ≠ .none then none else some (normalizeInode fs inode raw)

def stdInodeWrite (node : Node) : ErrorT × Mem :=
  let (readop0, sector, offset) := locateInode B fs disk node.inodeNbr
  if readop0 ≠ .none then (readop0, disk)
  else
    let (readop1, raw) := B.read disk sector offset sizeofInode
    if readop1 ≠ .none then (readop1, disk)
    else B.write disk sector offset (encodeInode fs node raw) sizeofInode

/-- The direct write of the inode in `ext2_create_file`. -/
def createFileInodeWrite (inode attributes currentTime block : ℕ) (stack : Mem) : ErrorT × Mem :=
  let (readop0, sector, offset) := locateInode B fs disk inode
  if readop0 ≠ .none then (readop0, disk)
  else B.write disk sector offset (newInode attributes currentTime block stack) sizeofInode

end Access

/-! ## Where inodes lie -/

/-- The number of block groups that hold inodes. -/
def Fs.inodeGroups (fs : Fs) : ℕ := (fs.inodes - 1) / fs.inodesPerBlockgroup + 1

/-- The length of one inode table. -/
def Fs.tableBytes (fs : Fs) : ℕ := fs.inodesPerBlockgroup * fs.inodeSize

/-- The inode tables, which start at the blocks `start`, share no byte with each
other and with the descriptor table. -/
structure InodeTables (fs : Fs) (start : ℕ → ℕ) : Prop where
  perGroup_pos : 0 < fs.inodesPerBlockgroup
  slot_size : sizeofInode ≤ fs.inodeSize
  apart : ∀ g h, g < fs.inodeGroups → h < fs.inodeGroups → g ≠ h →
    fs.blockAddr (start g) + fs.tableBytes ≤ fs.blockAddr (start h) ∨
      fs.blockAddr (start h) + fs.tableBytes ≤ fs.blockAddr (start g)
  off_descriptors : ∀ g, g < fs.inodeGroups →
    fs.blockAddr (start g) + fs.tableBytes ≤ fs.blockAddr fs.blockGroupDescriptorTable ∨
      fs.blockAddr fs.blockGroupDescriptorTable + sizeofBlockGroupDescriptor * fs.inodeGroups ≤
        fs.blockAddr (start g)

/-- The descriptors on the disk name these blocks. -/
def DescriptorsAt (fs : Fs) (start : ℕ → ℕ) (disk : Mem) : Prop :=
  ∀ g, g < fs.inodeGroups →
    BlockGroupDescriptor.startingBlockAdress.get
      (window disk (fs.blockAddr fs.blockGroupDescriptorTable + sizeofBlockGroupDescriptor * g)) =
        start g

/-- The inode numbers of the volume. -/
def Fs.HasInode (fs : Fs) (inode : ℕ) : Prop := 1 ≤ inode ∧ inode ≤ fs.inodes

instance (fs : Fs) (inode : ℕ) : Decidable (fs.HasInode inode) :=
  inferInstanceAs (Decidable (_ ∧ _))

/-- The group whose descriptor is read for an inode: the offset of a descriptor
is computed on 32 bits. -/
def Fs.slotGroup (fs : Fs) (inode : ℕ) : ℕ := fs.inodeBlockGroup inode % 2 ^ 27

/-- The first byte that is read for an inode. -/
def Fs.slotAddr (fs : Fs) (start : ℕ → ℕ) (inode : ℕ) : ℕ :=
  fs.blockAddr (start (fs.slotGroup inode)) + fs.inodeReadOffset inode

/-- A volume with one group of inodes, whose table lies behind the descriptor. -/
theorem inodeTables_oneGroup {fs : Fs} {block : ℕ} (hpos : 0 < fs.inodesPerBlockgroup)
    (hsize : sizeofInode ≤ fs.inodeSize) (hone : fs.inodeGroups = 1)
    (hoff : fs.blockAddr fs.blockGroupDescriptorTable + sizeofBlockGroupDescriptor ≤
      fs.blockAddr block) : InodeTables fs fun _ => block where
  perGroup_pos := hpos
  slot_size := hsize
  apart g h hg hh hne := by omega
  off_descriptors g hg := by
    right
    rw [hone]
    exact hoff

theorem inodeIndex_eq {inode : ℕ} (h : 1 ≤ inode) (h32 : inode ≤ 2 ^ 32) :
    inodeIndex inode = inode - 1 := by
  unfold inodeIndex u32
  omega

theorem bgReadOffset_eq (group : ℕ) :
    bgReadOffset group = sizeofBlockGroupDescriptor * (group % 2 ^ 27) := by
  unfold bgReadOffset u32 sizeofBlockGroupDescriptor
  omega

section Layout
variable {fs : Fs} {start : ℕ → ℕ} {disk : Mem} {inode : ℕ}

theorem Fs.HasInode.index_eq (h : fs.HasInode inode) : inodeIndex inode = inode - 1 := by
  have hlt : fs.inodes < 2 ^ 32 := Field.get_lt Superblock.inodes fs.superblock
  exact inodeIndex_eq h.1 (by have := h.2; omega)

theorem Fs.HasInode.slotGroup_lt (h : fs.HasInode inode) : fs.slotGroup inode < fs.inodeGroups := by
  have hle : fs.inodeBlockGroup inode ≤ (fs.inodes - 1) / fs.inodesPerBlockgroup := by
    unfold Fs.inodeBlockGroup
    rw [h.index_eq]
    exact Nat.div_le_div_right (by have := h.2; omega)
  have hmod := Nat.mod_le (fs.inodeBlockGroup inode) (2 ^ 27)
  unfold Fs.slotGroup Fs.inodeGroups
  omega

/-- A slot lies inside a table, also when its offset has wrapped. -/
theorem InodeTables.slot_le (ht : InodeTables fs start) (inode : ℕ) :
    fs.inodeReadOffset inode + sizeofInode ≤ fs.tableBytes := by
  have hidx := Nat.mod_lt (inodeIndex inode) ht.perGroup_pos
  have hmul : (inodeIndex inode % fs.inodesPerBlockgroup + 1) * fs.inodeSize ≤ fs.tableBytes :=
    Nat.mul_le_mul_right _ hidx
  have hmod : fs.inodeReadOffset inode ≤
      inodeIndex inode % fs.inodesPerBlockgroup * fs.inodeSize := Nat.mod_le _ _
  have := ht.slot_size
  rw [Nat.succ_mul] at hmul
  omega

/-- A write of an inode leaves the descriptors as they are. -/
theorem InodeTables.descriptorsAt_overwrite (ht : InodeTables fs start)
    (hd : DescriptorsAt fs start disk) (hi : fs.HasInode inode) (raw : Mem) :
    DescriptorsAt fs start (overwrite disk (fs.slotAddr start inode) sizeofInode raw) := by
  intro g hg
  rw [← hd g hg]
  apply Field.get_congr
  intro i _ hlt
  have hslot := ht.slot_le inode
  have hoff := ht.off_descriptors _ hi.slotGroup_lt
  have hg' : sizeofBlockGroupDescriptor * g + sizeofBlockGroupDescriptor ≤
      sizeofBlockGroupDescriptor * fs.inodeGroups := Nat.mul_le_mul_left _ hg
  have h12 : i < 12 := hlt
  apply overwrite_of_notMem
  unfold Fs.slotAddr
  unfold sizeofBlockGroupDescriptor at *
  omega

variable {B : BlockLayer}

theorem locateInode_eq (hB : B.Exact) (hd : DescriptorsAt fs start disk)
    (hi : fs.HasInode inode) :
    locateInode B fs disk inode =
      (.none, fs.sectorOf (start (fs.slotGroup inode)), fs.inodeReadOffset inode) := by
  unfold locateInode readDescriptor
  dsimp only
  rw [hB.read_none, hB.get_read (by decide), bgReadOffset_eq]
  have h := hd _ hi.slotGroup_lt
  unfold Fs.slotGroup at h
  unfold Fs.blockAddr at h
  rw [h]
  rfl

theorem readInode_none (hB : B.Exact) (hd : DescriptorsAt fs start disk)
    (hi : fs.HasInode inode) : (readInode B fs disk inode).1 = .none := by
  unfold readInode
  rw [locateInode_eq hB hd hi]
  exact hB.read_none _ _ _ _

theorem readInode_data (hB : B.Exact) (hd : DescriptorsAt fs start disk)
    (hi : fs.HasInode inode) {i : ℕ} (h : i < sizeofInode) :
    (readInode B fs disk inode).2 i = disk (fs.slotAddr start inode + i) := by
  unfold readInode
  rw [locateInode_eq hB hd hi]
  exact hB.read_data _ _ _ _ i h

theorem createFileInodeWrite_eq (hB : B.Exact) (hd : DescriptorsAt fs start disk)
    (hi : fs.HasInode inode) (attributes currentTime block : ℕ) (stack : Mem) :
    createFileInodeWrite B fs disk inode attributes currentTime block stack =
      (.none, overwrite disk (fs.slotAddr start inode) sizeofInode
        (newInode attributes currentTime block stack)) := by
  unfold createFileInodeWrite
  rw [locateInode_eq hB hd hi]
  exact hB.write_eq _ _ _ _ _

theorem stdInodeWrite_eq (hB : B.Exact) (hd : DescriptorsAt fs start disk)
    {node : Node} (hi : fs.HasInode node.inodeNbr) :
    stdInodeWrite B fs disk node =
      (.none, overwrite disk (fs.slotAddr start node.inodeNbr) sizeofInode
        (encodeInode fs node (readInode B fs disk node.inodeNbr).2)) := by
  unfold stdInodeWrite readInode
  rw [locateInode_eq hB hd hi]
  dsimp only
  rw [if_neg (by decide), if_neg (not_not_intro (hB.read_none _ _ _ _)), if_neg (by decide),
    hB.write_eq]
  rfl

/-- What is written for an inode is what is read for it. -/
theorem readInode_written (hB : B.Exact) (ht : InodeTables fs start)
    (hd : DescriptorsAt fs start disk) (hi : fs.HasInode inode) (raw : Mem) {i : ℕ}
    (h : i < sizeofInode) :
    (readInode B fs (overwrite disk (fs.slotAddr start inode) sizeofInode raw) inode).2 i =
      raw i := by
  rw [readInode_data hB (ht.descriptorsAt_overwrite hd hi raw) hi h]
  exact window_overwrite h

end Layout

/-! ## Updates of one inode -/

/-- The slots that are read for two inodes share no byte. -/
def Fs.SlotsApart (fs : Fs) (a b : ℕ) : Prop :=
  fs.slotGroup a ≠ fs.slotGroup b ∨
    fs.inodeReadOffset a + sizeofInode ≤ fs.inodeReadOffset b ∨
      fs.inodeReadOffset b + sizeofInode ≤ fs.inodeReadOffset a

instance (fs : Fs) (a b : ℕ) : Decidable (fs.SlotsApart a b) :=
  inferInstanceAs (Decidable (_ ∨ _))

/-- The offsets of an inode and of its descriptor are 32-bit numbers. -/
def Fs.NoWrap (fs : Fs) (inode : ℕ) : Prop :=
  sizeofBlockGroupDescriptor * fs.inodeBlockGroup inode < 2 ^ 32 ∧
    inodeIndex inode % fs.inodesPerBlockgroup * fs.inodeSize < 2 ^ 32

instance (fs : Fs) (inode : ℕ) : Decidable (fs.NoWrap inode) :=
  inferInstanceAs (Decidable (_ ∧ _))

/-- A write of inode `a` that goes from `disk` to `disk'` stores `raw` in the
slot that is read for `a` and changes no byte that is read for `b`. -/
structure WritesOnly (B : BlockLayer) (fs : Fs) (disk : Mem) (a b : ℕ) (raw : Mem)
    (result : ErrorT × Mem) : Prop where
  success : result.1 = .none
  stored : ∀ i, i < sizeofInode → (readInode B fs result.2 a).2 i = raw i
  others : ∀ i, i < sizeofInode → (readInode B fs result.2 b).2 i = (readInode B fs disk b).2 i

/-- Both kinds of inode writes of `a` leave `b` alone, on every disk of the
volume and for every node. -/
def UpdatesOnly (fs : Fs) (start : ℕ → ℕ) (a b : ℕ) : Prop :=
  ∀ (B : BlockLayer) (disk : Mem), B.Exact → DescriptorsAt fs start disk →
    (∀ node : Node, node.inodeNbr = a →
      WritesOnly B fs disk a b (encodeInode fs node (readInode B fs disk a).2)
        (stdInodeWrite B fs disk node)) ∧
    ∀ attributes currentTime block stack,
      WritesOnly B fs disk a b (newInode attributes currentTime block stack)
        (createFileInodeWrite B fs disk a attributes currentTime block stack)

section Updates
variable {fs : Fs} {start : ℕ → ℕ} {a b : ℕ}

theorem Fs.slotsApart_of_noWrap (hs : sizeofInode ≤ fs.inodeSize) (ha : fs.HasInode a)
    (hb : fs.HasInode b) (hne : a ≠ b) (hwa : fs.NoWrap a) (hwb : fs.NoWrap b) :
    fs.SlotsApart a b := by
  unfold Fs.SlotsApart Fs.slotGroup Fs.inodeReadOffset
  unfold Fs.NoWrap sizeofBlockGroupDescriptor at hwa hwb
  rw [u32_of_lt hwa.2, u32_of_lt hwb.2, Nat.mod_eq_of_lt (by omega), Nat.mod_eq_of_lt (by omega)]
  by_cases hg : fs.inodeBlockGroup a = fs.inodeBlockGroup b
  · right
    -- in one group the indices differ, and the slots are that many table entries apart
    have hidx : inodeIndex a % fs.inodesPerBlockgroup ≠ inodeIndex b % fs.inodesPerBlockgroup := by
      intro heq
      have hdiv := Nat.div_add_mod (inodeIndex a) fs.inodesPerBlockgroup
      have hdiv' := Nat.div_add_mod (inodeIndex b) fs.inodesPerBlockgroup
      unfold Fs.inodeBlockGroup at hg
      rw [hg, heq, hdiv', ha.index_eq, hb.index_eq] at hdiv
      have := ha.1
      have := hb.1
      omega
    have step : ∀ i j : ℕ, i < j → i * fs.inodeSize + sizeofInode ≤ j * fs.inodeSize := by
      intro i j hij
      have := Nat.mul_le_mul_right fs.inodeSize hij
      rw [Nat.succ_mul] at this
      omega
    rcases Nat.lt_or_gt_of_ne hidx with h | h
    · exact Or.inl (step _ _ h)
    · exact Or.inr (step _ _ h)
  · exact Or.inl hg

/-- Slots of different tables share no byte, and neither do slots that are
apart in one table. -/
theorem InodeTables.slots_disjoint (ht : InodeTables fs start) (ha : fs.HasInode a)
    (hb : fs.HasInode b) (h : fs.SlotsApart a b) :
    fs.slotAddr start a + sizeofInode ≤ fs.slotAddr start b ∨
      fs.slotAddr start b + sizeofInode ≤ fs.slotAddr start a := by
  have hla := ht.slot_le a
  have hlb := ht.slot_le b
  unfold Fs.slotAddr
  by_cases hg : fs.slotGroup a = fs.slotGroup b
  · rw [hg]
    rcases h with h | h
    · exact absurd hg h
    · omega
  · have := ht.apart _ _ ha.slotGroup_lt hb.slotGroup_lt hg
    omega

theorem writesOnly_of_slotsApart {B : BlockLayer} {disk raw : Mem} (hB : B.Exact)
    (ht : InodeTables fs start) (hd : DescriptorsAt fs start disk) (ha : fs.HasInode a)
    (hb : fs.HasInode b) (h : fs.SlotsApart a b) :
    WritesOnly B fs disk a b raw
      (.none, overwrite disk (fs.slotAddr start a) sizeofInode raw) where
  success := rfl
  stored i hi := readInode_written hB ht hd ha raw hi
  others i hi := by
    have hdis := ht.slots_disjoint ha hb h
    rw [readInode_data hB (ht.descriptorsAt_overwrite hd ha raw) hb hi, readInode_data hB hd hb hi]
    exact overwrite_of_notMem (by omega)

/-- If the slots overlap, the write of a new inode changes a byte that is read
for the other one: on a disk that holds something else there. -/
theorem not_updatesOnly_of_overlap {disk : Mem} (ht : InodeTables fs start)
    (hd : DescriptorsAt fs start disk) (ha : fs.HasInode a) (hb : fs.HasInode b)
    (h : ¬fs.SlotsApart a b) : ¬UpdatesOnly fs start a b := by
  intro hall
  unfold Fs.SlotsApart at h
  push Not at h
  obtain ⟨hg, h1, h2⟩ := h
  let raw := newInode 0 0 0 fun _ => 0
  -- `i` and `j` are the places of one common byte in the two slots
  obtain ⟨i, j, hi, hj, hij⟩ : ∃ i j, i < sizeofInode ∧ j < sizeofInode ∧
      fs.slotAddr start a + i = fs.slotAddr start b + j := by
    unfold Fs.slotAddr
    rw [hg]
    rcases Nat.le_total (fs.inodeReadOffset a) (fs.inodeReadOffset b) with hle | hle
    · exact ⟨fs.inodeReadOffset b - fs.inodeReadOffset a, 0, by omega, by decide, by omega⟩
    · exact ⟨0, fs.inodeReadOffset a - fs.inodeReadOffset b, by decide, by omega, by omega⟩
  have hd' := ht.descriptorsAt_overwrite hd ha (fun i => raw i + 1)
  have hB := BlockLayer.exact_exactWith fun _ => 0
  have hw := ((hall _ _ hB hd').2 0 0 0 fun _ => 0).others j hj
  rw [createFileInodeWrite_eq hB hd' ha,
    readInode_data hB (ht.descriptorsAt_overwrite hd' ha raw) hb hj, readInode_data hB hd' hb hj,
    ← hij, overwrite_of_mem (by omega) (by omega), overwrite_of_mem (by omega) (by omega)] at hw
  simp at hw

/-- Writes of one inode leave the other one alone if and only if the slots that
are computed for the two are apart, as they are when no offset wraps. -/
theorem updatesOnly_iff_slotsApart {disk : Mem} (ht : InodeTables fs start)
    (hd : DescriptorsAt fs start disk) (ha : fs.HasInode a) (hb : fs.HasInode b) (hne : a ≠ b) :
    (UpdatesOnly fs start a b ↔ fs.SlotsApart a b) ∧
      (fs.NoWrap a → fs.NoWrap b → fs.SlotsApart a b) := by
  refine ⟨⟨fun hu => ?_, fun hs B disk hB hd => ⟨fun node hn => ?_, fun _ _ _ _ => ?_⟩⟩,
    fun hwa hwb => Fs.slotsApart_of_noWrap ht.slot_size ha hb hne hwa hwb⟩
  · by_contra hs
    exact not_updatesOnly_of_overlap ht hd ha hb hs hu
  · subst hn
    rw [stdInodeWrite_eq hB hd ha]
    exact writesOnly_of_slotsApart hB ht hd ha hb hs
  · rw [createFileInodeWrite_eq hB hd ha]
    exact writesOnly_of_slotsApart hB ht hd ha hb hs

/-- A volume of 16 inodes with the standard size of 128 bytes. Its descriptor
table is block 2 and its inode table starts at block 5. -/
def smallVolume : Fs where
  superblock := Superblock.inodes.set (Superblock.inodesPerBlockgroup.set (fun _ => 0) 16) 16
  superblockOffset := 0
  blockSize := 1024
  blockgroupCount := 1
  readOnly := false

def smallDisk : Mem := storeLE (fun _ => 0) 2056 4 5

theorem smallVolume_tables : InodeTables smallVolume fun _ => 5 :=
  inodeTables_oneGroup (by decide) (by decide) (by decide) (by decide)

theorem smallVolume_descriptors : DescriptorsAt smallVolume (fun _ => 5) smallDisk := by
  intro g hg
  have hg0 : g = 0 := by
    have : smallVolume.inodeGroups = 1 := by decide
    omega
  subst hg0
  decide

theorem updatesOnly_first_two : smallVolume.SlotsApart 1 2 ∧
    UpdatesOnly smallVolume (fun _ => 5) 1 2 := by
  have h := updatesOnly_iff_slotsApart smallVolume_tables smallVolume_descriptors
    (a := 1) (b := 2) (by decide) (by decide) (by decide)
  have hs := h.2 (by decide) (by decide)
  exact ⟨hs, h.1.mpr hs⟩

/-- A volume with blocks of 64 KiB and inodes of 32 KiB, 2^19 of them in its
group. -/
def largeVolume : Fs where
  superblock := Superblock.inodes.set (Superblock.inodesPerBlockgroup.set
    (Superblock.versionMajor.set (Superblock.inodeStructSize.set (fun _ => 0) 32768) 1) 524288)
    524288
  superblockOffset := 0
  blockSize := 65536
  blockgroupCount := 1
  readOnly := false

def largeDisk : Mem := storeLE (fun _ => 0) 65544 4 2

/-- Inode 131073 lies 4 GiB behind inode 1 in the table, and the two are read
and written at the same place. -/
theorem updates_overlap_four_gib :
    InodeTables largeVolume (fun _ => 2) ∧ DescriptorsAt largeVolume (fun _ => 2) largeDisk ∧
      largeVolume.HasInode 1 ∧ largeVolume.HasInode 131073 ∧
        ¬UpdatesOnly largeVolume (fun _ => 2) 1 131073 := by
  have ht : InodeTables largeVolume fun _ => 2 :=
    inodeTables_oneGroup (by decide) (by decide) (by decide) (by decide)
  have hd : DescriptorsAt largeVolume (fun _ => 2) largeDisk := by
    intro g hg
    have hg0 : g = 0 := by
      have : largeVolume.inodeGroups = 1 := by decide
      omega
    subst hg0
    decide
  have ha : largeVolume.HasInode 1 := by decide
  have hb : largeVolume.HasInode 131073 := by decide
  exact ⟨ht, hd, ha, hb, not_updatesOnly_of_overlap ht hd ha hb (by decide)⟩

end Updates

/-! ## Fields of an encoded inode -/

section Encode
variable {fs : Fs} {node : Node} {raw : Mem}

theorem get_copyPointers_of_apart {f : Field} {pointer : ℕ → ℕ} {n : ℕ}
    (h : f.offset + f.width ≤ 40 ∨ 40 + 4 * n ≤ f.offset) :
    f.get (copyPointers pointer n raw) = f.get raw := by
  induction n with
  | zero => rfl
  | succ n ih =>
    rw [copyPointers, Field.get_set_of_apart, ih (by omega)]
    unfold Field.Apart Inode.blockPointer
    dsimp only
    omega

theorem get_copyPointers {pointer : ℕ → ℕ} {n k : ℕ} (h : k < n) :
    (Inode.blockPointer k).get (copyPointers pointer n raw) = pointer k % 2 ^ 32 := by
  induction n with
  | zero => omega
  | succ n ih =>
    rw [copyPointers]
    by_cases hk : k = n
    · subst hk
      rw [Field.get_set]
      rfl
    · rw [Field.get_set_of_apart, ih (by omega)]
      unfold Field.Apart Inode.blockPointer
      dsimp only
      omega

/-- The fields that `ext2_std_inode_write` never sets. -/
def Unset (f : Field) : Prop :=
  (f.offset + f.width ≤ 40 ∨ 100 ≤ f.offset) ∧
    ∀ g ∈ [Inode.typeAndPermissions, Inode.sizeLow, Inode.directoryAcl, Inode.creationTime,
      Inode.lastAccessTime, Inode.lastModificationTime], g.Apart f

instance (f : Field) : Decidable (Unset f) := inferInstanceAs (Decidable (_ ∧ _))

theorem get_encodeInode_of_unset {f : Field} (h : Unset f) :
    f.get (encodeInode fs node raw) = f.get raw := by
  obtain ⟨hp, hf⟩ := h
  simp only [List.mem_cons, List.not_mem_nil, or_false, forall_eq_or_imp, forall_eq] at hf
  obtain ⟨ht, hs, hd, hc, ha, hm⟩ := hf
  unfold encodeInode
  rw [get_copyPointers_of_apart hp, Field.get_set_of_apart hm, Field.get_set_of_apart ha,
    Field.get_set_of_apart hc]
  by_cases h64 : ¬node.isDir ∧ fs.hasSize64
  · rw [if_pos h64, Field.get_set_of_apart hd, Field.get_set_of_apart hs,
      Field.get_set_of_apart ht]
  · rw [if_neg h64, Field.get_set_of_apart hs, Field.get_set_of_apart ht]

theorem type_encodeInode : Inode.typeAndPermissions.get (encodeInode fs node raw) =
    if node.isDir then 0x4000 else 0 := by
  have hget : ∀ raw, Inode.typeAndPermissions.get
      (Inode.typeAndPermissions.set raw (if node.isDir then 0x4000 else 0)) =
        if node.isDir then 0x4000 else 0 := by
    intro raw
    rw [Field.get_set]
    split_ifs <;> rfl
  unfold encodeInode
  rw [get_copyPointers_of_apart (by decide), Field.get_set_of_apart (by decide),
    Field.get_set_of_apart (by decide), Field.get_set_of_apart (by decide)]
  by_cases h64 : ¬node.isDir ∧ fs.hasSize64
  · rw [if_pos h64, Field.get_set_of_apart (by decide), Field.get_set_of_apart (by decide), hget]
  · rw [if_neg h64, Field.get_set_of_apart (by decide), hget]

theorem sizeLow_encodeInode :
    Inode.sizeLow.get (encodeInode fs node raw) = node.length % 2 ^ 32 := by
  have hand : node.length &&& 0xFFFFFFFF = node.length % 2 ^ 32 :=
    Nat.and_two_pow_sub_one_eq_mod node.length 32
  have hget : ∀ raw, Inode.sizeLow.get (Inode.sizeLow.set raw (node.length % 2 ^ 32)) =
      node.length % 2 ^ 32 := by
    intro raw
    rw [Field.get_set]
    exact Nat.mod_mod _ _
  unfold encodeInode
  rw [get_copyPointers_of_apart (by decide), Field.get_set_of_apart (by decide),
    Field.get_set_of_apart (by decide), Field.get_set_of_apart (by decide), hand]
  by_cases h64 : ¬node.isDir ∧ fs.hasSize64
  · rw [if_pos h64, Field.get_set_of_apart (by decide), hget]
  · rw [if_neg h64, hget]

theorem directoryAcl_encodeInode (h : ¬node.isDir ∧ fs.hasSize64) :
    Inode.directoryAcl.get (encodeInode fs node raw) = node.length / 2 ^ 32 := by
  have hlt : node.length / 2 ^ 32 < 2 ^ 32 := by
    have := node.length_lt
    omega
  unfold encodeInode
  rw [get_copyPointers_of_apart (by decide), Field.get_set_of_apart (by decide),
    Field.get_set_of_apart (by decide), Field.get_set_of_apart (by decide), if_pos h,
    Field.get_set, Nat.shiftRight_eq_div_pow, u32_of_lt hlt]
  exact Nat.mod_eq_of_lt hlt

theorem times_encodeInode :
    Inode.creationTime.get (encodeInode fs node raw) = node.creationTime ∧
      Inode.lastAccessTime.get (encodeInode fs node raw) = node.lastAccessTime ∧
        Inode.lastModificationTime.get (encodeInode fs node raw) = node.lastModificationTime := by
  unfold encodeInode
  rw [get_copyPointers_of_apart (by decide), get_copyPointers_of_apart (by decide),
    get_copyPointers_of_apart (by decide)]
  refine ⟨?_, ?_, ?_⟩
  · rw [Field.get_set_of_apart (by decide), Field.get_set_of_apart (by decide), Field.get_set]
    exact Nat.mod_eq_of_lt node.creationTime_lt
  · rw [Field.get_set_of_apart (by decide), Field.get_set]
    exact Nat.mod_eq_of_lt node.lastAccessTime_lt
  · rw [Field.get_set]
    exact Nat.mod_eq_of_lt node.lastModificationTime_lt

theorem pointer_encodeInode {k : ℕ} (h : k < 15) :
    (Inode.blockPointer k).get (encodeInode fs node raw) = node.pointer k := by
  unfold encodeInode
  rw [get_copyPointers h]
  exact Nat.mod_eq_of_lt (node.pointer_lt k)

end Encode

/-! ## Round trips -/

/-- The two nodes agree in everything but their number. -/
structure Node.Same (a b : Node) : Prop where
  length : a.length = b.length
  attributes : a.attributes = b.attributes
  hardLinks : a.hardLinks = b.hardLinks
  creationTime : a.creationTime = b.creationTime
  lastAccessTime : a.lastAccessTime = b.lastAccessTime
  lastModificationTime : a.lastModificationTime = b.lastModificationTime
  pointer : ∀ k, k < 15 → a.pointer k = b.pointer k

/-- The fields of an inode that a node does not carry: the permission bits, the
type of a regular file, the owner, the flags and the generation number. -/
structure SameUncarried (raw raw' : Mem) : Prop where
  permissions : Inode.typeAndPermissions.get raw' % 2 ^ 12 = Inode.typeAndPermissions.get raw % 2 ^ 12
  regular : Inode.typeAndPermissions.get raw / 2 ^ 12 = 8 →
    Inode.typeAndPermissions.get raw' / 2 ^ 12 = 8
  userId : Inode.userId.get raw' = Inode.userId.get raw
  groupId : Inode.groupId.get raw' = Inode.groupId.get raw
  flags : Inode.flags.get raw' = Inode.flags.get raw
  generationNumber : Inode.generationNumber.get raw' = Inode.generationNumber.get raw

/-- A successful `ext2_std_inode_write` stores the node, and nothing else of
the inode changes. -/
def RoundTrip (B : BlockLayer) (fs : Fs) (disk : Mem) (node : Node) : Prop :=
  ∀ disk', stdInodeWrite B fs disk node = (.none, disk') →
    (∃ node', stdInodeRead B fs disk' node.inodeNbr = some node' ∧ node'.Same node) ∧
      SameUncarried (readInode B fs disk node.inodeNbr).2 (readInode B fs disk' node.inodeNbr).2

/-- What `raw`, the inode on the disk, has to be for the write of a node to be
faithful. -/
structure Storable (fs : Fs) (node : Node) (raw : Mem) : Prop where
  hardLinks : Inode.hardLinks.get raw = node.hardLinks
  permissions : Inode.typeAndPermissions.get raw % 2 ^ 12 = 0
  notRegular : Inode.typeAndPermissions.get raw / 2 ^ 12 ≠ 8
  length : node.length < 2 ^ 32 ∨ ¬node.isDir ∧ fs.hasSize64
  attributes : node.attributes < 2

theorem Node.isDir_iff (node : Node) : node.isDir ↔ node.attributes % 2 = 1 := by
  unfold Node.isDir fileAttrDir
  rw [Nat.and_one_is_mod]
  omega

theorem type_shift (node : Node) : (if node.isDir then 0x4000 else 0) >>> 12 = 4 ↔ node.isDir := by
  split_ifs with h
  · exact ⟨fun _ => h, fun _ => by decide⟩
  · exact ⟨fun h' => absurd h' (by decide), fun h' => absurd h' h⟩

/-- The length that is read back: all of it, or its low half. -/
theorem length_normalizeInode (fs : Fs) (node : Node) (raw : Mem) (inode : ℕ) :
    (normalizeInode fs inode (encodeInode fs node raw)).length =
      if ¬node.isDir ∧ fs.hasSize64 then node.length else node.length % 2 ^ 32 := by
  unfold normalizeInode
  dsimp only
  rw [type_encodeInode, sizeLow_encodeInode]
  simp only [type_shift]
  split_ifs with h
  · rw [directoryAcl_encodeInode h, Nat.or_comm,
      ← Nat.shiftLeft_add_eq_or_of_lt (Nat.mod_lt _ (by norm_num)), Nat.shiftLeft_eq]
    have := Nat.div_add_mod node.length (2 ^ 32)
    omega
  · rfl

theorem normalizeInode_same_iff (fs : Fs) (node : Node) (raw : Mem) (inode : ℕ) :
    (normalizeInode fs inode (encodeInode fs node raw)).Same node ↔
      Inode.hardLinks.get raw = node.hardLinks ∧
        (node.length < 2 ^ 32 ∨ ¬node.isDir ∧ fs.hasSize64) ∧ node.attributes < 2 := by
  have hlinks : (normalizeInode fs inode (encodeInode fs node raw)).hardLinks =
      Inode.hardLinks.get raw :=
    get_encodeInode_of_unset (by decide)
  have hattr : (normalizeInode fs inode (encodeInode fs node raw)).attributes =
      node.attributes % 2 := by
    unfold normalizeInode
    dsimp only
    rw [type_encodeInode]
    simp only [type_shift]
    have hiff := node.isDir_iff
    unfold fileAttrDir
    split_ifs with h
    · exact (hiff.mp h).symm
    · have := mt hiff.mpr h
      omega
  have hlen := length_normalizeInode fs node raw inode
  constructor
  · intro h
    refine ⟨hlinks.symm.trans h.hardLinks, ?_, ?_⟩
    · by_cases h64 : ¬node.isDir ∧ fs.hasSize64
      · exact Or.inr h64
      · left
        rw [if_neg h64, h.length] at hlen
        rw [hlen]
        exact Nat.mod_lt _ (by norm_num)
    · rw [h.attributes] at hattr
      omega
  · rintro ⟨hl, hlength, hat⟩
    refine ⟨?_, by omega, hlinks.trans hl, times_encodeInode.1, times_encodeInode.2.1,
      times_encodeInode.2.2, fun k hk => (if_pos hk).trans (pointer_encodeInode hk)⟩
    rw [hlen]
    split_ifs with h64
    · rfl
    · rcases hlength with h | h
      · exact Nat.mod_eq_of_lt h
      · exact absurd h h64

theorem sameUncarried_encodeInode_iff (fs : Fs) (node : Node) (raw : Mem) :
    SameUncarried raw (encodeInode fs node raw) ↔
      Inode.typeAndPermissions.get raw % 2 ^ 12 = 0 ∧
        Inode.typeAndPermissions.get raw / 2 ^ 12 ≠ 8 := by
  have htype := @type_encodeInode fs node raw
  have hmod : Inode.typeAndPermissions.get (encodeInode fs node raw) % 2 ^ 12 = 0 := by
    rw [htype]
    split_ifs <;> rfl
  have hdiv : Inode.typeAndPermissions.get (encodeInode fs node raw) / 2 ^ 12 ≠ 8 := by
    rw [htype]
    split_ifs <;> decide
  constructor
  · intro h
    exact ⟨h.permissions.symm.trans hmod, fun h8 => hdiv (h.regular h8)⟩
  · rintro ⟨hperm, h8⟩
    exact {
      permissions := hmod.trans hperm.symm
      regular := fun h => absurd h h8
      userId := get_encodeInode_of_unset (by decide)
      groupId := get_encodeInode_of_unset (by decide)
      flags := get_encodeInode_of_unset (by decide)
      generationNumber := get_encodeInode_of_unset (by decide) }

/-- Everything that is read of an inode lies in its 128 bytes. -/
theorem get_eq_of_agree {raw raw' : Mem} (h : ∀ i, i < sizeofInode → raw i = raw' i) {f : Field}
    (hf : f.offset + f.width ≤ sizeofInode) : f.get raw = f.get raw' :=
  Field.get_congr fun i _ hi => h i (by omega)

theorem normalizeInode_congr {raw raw' : Mem} (h : ∀ i, i < sizeofInode → raw i = raw' i)
    (fs : Fs) (inode : ℕ) : normalizeInode fs inode raw = normalizeInode fs inode raw' := by
  have hp : ∀ k, (if k < 15 then (Inode.blockPointer k).get raw else 0) =
      if k < 15 then (Inode.blockPointer k).get raw' else 0 := by
    intro k
    split_ifs with hk
    · apply get_eq_of_agree h
      unfold Inode.blockPointer sizeofInode
      dsimp only
      omega
    · rfl
  unfold normalizeInode
  simp only [get_eq_of_agree h (show Inode.typeAndPermissions.offset + _ ≤ _ by decide),
    get_eq_of_agree h (show Inode.sizeLow.offset + _ ≤ _ by decide),
    get_eq_of_agree h (show Inode.directoryAcl.offset + _ ≤ _ by decide),
    get_eq_of_agree h (show Inode.hardLinks.offset + _ ≤ _ by decide),
    get_eq_of_agree h (show Inode.creationTime.offset + _ ≤ _ by decide),
    get_eq_of_agree h (show Inode.lastAccessTime.offset + _ ≤ _ by decide),
    get_eq_of_agree h (show Inode.lastModificationTime.offset + _ ≤ _ by decide), hp]

theorem sameUncarried_congr {raw raw' raw'' : Mem} (h : ∀ i, i < sizeofInode → raw' i = raw'' i) :
    SameUncarried raw raw' ↔ SameUncarried raw raw'' := by
  have step : ∀ {s t : Mem}, (∀ i, i < sizeofInode → s i = t i) → SameUncarried raw s →
      SameUncarried raw t := by
    intro s t hst hs
    have ht := get_eq_of_agree hst (f := Inode.typeAndPermissions) (by decide)
    exact {
      permissions := ht ▸ hs.permissions
      regular := ht ▸ hs.regular
      userId := (get_eq_of_agree hst (by decide)).symm.trans hs.userId
      groupId := (get_eq_of_agree hst (by decide)).symm.trans hs.groupId
      flags := (get_eq_of_agree hst (by decide)).symm.trans hs.flags
      generationNumber := (get_eq_of_agree hst (by decide)).symm.trans hs.generationNumber }
  exact ⟨step h, step fun i hi => (h i hi).symm⟩

section RoundTrip
variable {B : BlockLayer} {fs : Fs} {start : ℕ → ℕ} {disk : Mem} {node : Node}

/-- The inode that a node is written as, and what is read back of it. -/
theorem stdInodeRead_written (hB : B.Exact) (ht : InodeTables fs start)
    (hd : DescriptorsAt fs start disk) (hi : fs.HasInode node.inodeNbr) {disk' : Mem}
    (hw : stdInodeWrite B fs disk node = (.none, disk')) :
    stdInodeRead B fs disk' node.inodeNbr = some (normalizeInode fs node.inodeNbr
        (encodeInode fs node (readInode B fs disk node.inodeNbr).2)) ∧
      ∀ i, i < sizeofInode → (readInode B fs disk' node.inodeNbr).2 i =
        encodeInode fs node (readInode B fs disk node.inodeNbr).2 i := by
  rw [stdInodeWrite_eq hB hd hi, Prod.mk.injEq] at hw
  obtain ⟨-, rfl⟩ := hw
  have hagree := fun i (h : i < sizeofInode) =>
    readInode_written hB ht hd hi (encodeInode fs node (readInode B fs disk node.inodeNbr).2) h
  refine ⟨?_, hagree⟩
  unfold stdInodeRead
  dsimp only
  rw [readInode_none hB (ht.descriptorsAt_overwrite hd hi _) hi, if_neg (by decide),
    normalizeInode_congr hagree]

theorem RoundTrip.storable (hB : B.Exact) (ht : InodeTables fs start)
    (hd : DescriptorsAt fs start disk) (hi : fs.HasInode node.inodeNbr)
    (h : RoundTrip B fs disk node) : Storable fs node (readInode B fs disk node.inodeNbr).2 := by
  have hw := stdInodeWrite_eq hB hd hi
  obtain ⟨hread, hagree⟩ := stdInodeRead_written hB ht hd hi hw
  obtain ⟨⟨node', hn, hs⟩, hu⟩ := h _ hw
  rw [hread, Option.some.injEq] at hn
  subst hn
  obtain ⟨hlinks, hlength, hattr⟩ := (normalizeInode_same_iff fs node _ node.inodeNbr).mp hs
  obtain ⟨hperm, h8⟩ :=
    (sameUncarried_encodeInode_iff fs node _).mp ((sameUncarried_congr hagree).mp hu)
  exact ⟨hlinks, hperm, h8, hlength, hattr⟩

/-- The write of a node is faithful if and only if the inode on the disk already
has its link count, no permission bits and not the type of a regular file, and
the length and the attributes fit what is written. -/
theorem roundTrip_iff_storable (hB : B.Exact) (ht : InodeTables fs start)
    (hd : DescriptorsAt fs start disk) (hi : fs.HasInode node.inodeNbr) :
    RoundTrip B fs disk node ↔ Storable fs node (readInode B fs disk node.inodeNbr).2 := by
  constructor
  · exact RoundTrip.storable hB ht hd hi
  · intro h disk' hw
    obtain ⟨hread, hagree⟩ := stdInodeRead_written hB ht hd hi hw
    have hsame := normalizeInode_same_iff fs node (readInode B fs disk node.inodeNbr).2
      node.inodeNbr
    have hunc := sameUncarried_encodeInode_iff fs node (readInode B fs disk node.inodeNbr).2
    exact ⟨⟨_, hread, hsame.mpr ⟨h.hardLinks, h.length, h.attributes⟩⟩,
      (sameUncarried_congr hagree).mpr (hunc.mpr ⟨h.permissions, h.notRegular⟩)⟩

end RoundTrip

/-- The small volume with inode 12, of the given type and permissions and with
one link. -/
def smallDiskWith (typeAndPermissions : ℕ) : Mem :=
  storeLE (storeLE smallDisk 6528 2 typeAndPermissions) 6554 2 1

theorem smallDiskWith_descriptors (typeAndPermissions : ℕ) :
    DescriptorsAt smallVolume (fun _ => 5) (smallDiskWith typeAndPermissions) := by
  intro g hg
  have hold := smallVolume_descriptors g hg
  have hg1 : g < 1 := hg
  rw [← hold]
  apply Field.get_congr
  intro i _ hi
  have h12 : i < 12 := hi
  unfold window smallDiskWith
  change storeLE _ _ _ _ (2048 + 32 * g + i) = _
  rw [storeLE_apply_of_lt (by omega), storeLE_apply_of_lt (by omega)]
  rfl

/-- A node for inode 12 with one block and the given number of links. -/
def smallNode (attributes hardLinks : ℕ) (ha : attributes < 2 ^ 8) (hl : hardLinks < 2 ^ 32) :
    Node where
  length := 1024
  attributes := attributes
  hardLinks := hardLinks
  creationTime := 0
  lastAccessTime := 0
  lastModificationTime := 0
  inodeNbr := 12
  pointer := fun k => if k = 0 then 9 else 0
  length_lt := by decide
  attributes_lt := ha
  hardLinks_lt := hl
  creationTime_lt := Node.noTime
  lastAccessTime_lt := Node.noTime
  lastModificationTime_lt := Node.noTime
  inodeNbr_lt := Node.firstFile
  pointer_lt := by
    intro k
    split <;> decide

theorem roundTrip_directory :
    RoundTrip (.exactWith fun _ => 0) smallVolume (smallDiskWith 0x4000)
      (smallNode 1 1 (by decide) (by decide)) := by
  apply (roundTrip_iff_storable (BlockLayer.exact_exactWith _) smallVolume_tables
    (smallDiskWith_descriptors _) (by decide)).mpr
  exact ⟨by decide, by decide, by decide, Or.inl (by decide), by decide⟩

/-- A regular file with mode 0644 that `ext2_link` has given a second name. -/
theorem roundTrip_fails_after_link :
    ¬RoundTrip (.exactWith fun _ => 0) smallVolume (smallDiskWith 0x81A4)
      (smallNode 0 2 (by decide) (by decide)) := by
  intro h
  have hs := RoundTrip.storable (BlockLayer.exact_exactWith _) smallVolume_tables
    (smallDiskWith_descriptors _) (by decide) h
  exact absurd hs.hardLinks (by decide)

end VkKernel.Ext2
