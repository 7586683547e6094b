import VkKernel.Ext2Alloc
import VkKernel.Ext2Inode
import VkKernel.Ext2Read

/-!
# Writing ext2 files

`ext2_inode_write_content` walks the direct pointers and the three levels of indirect blocks.
It writes one piece for each pointer, allocates a block for each pointer that is zero, and
writes an indirect block back when the walk leaves it.
-/

namespace VkKernel.Ext2
open ByteMemory PackedStruct IntervalUpdate

/-! ## The writer -/

/-- The node with another length. -/
def Node.setLength (node : Node) (length : ℕ) : Node :=
  { node with
    length := u32 length
    length_lt := (Nat.mod_lt length (Nat.two_pow_pos 32)).trans (by norm_num) }

/-- The node with another block pointer. -/
def Node.setPointer (node : Node) (k block : ℕ) : Node :=
  { node with
    pointer := Function.update node.pointer k (u32 block)
    pointer_lt := fun j => by
      rw [Function.update_apply]
      split_ifs
      · exact Nat.mod_lt block (Nat.two_pow_pos 32)
      · exact node.pointer_lt j }

/-- What `ext2_inode_write_content` changes: the superblock of the volume in memory, the disk,
the node, and the local variables that every piece changes. -/
structure WriteState where
  superblock : Mem
  disk : Mem
  node : Node
  size : ℕ
  offset : ℕ
  currentloc : ℕ

/-- What is left when it returns. -/
structure WriteResult where
  error : ErrorT
  superblock : Mem
  disk : Mem
  node : Node

/-- How a loop over pointers is left: a block could not be allocated, nothing is left to write,
or the loop has come to the end of the array. -/
inductive Written (α : Type)
  | failed (s : WriteState)
  | last (table : α) (s : WriteState)
  | more (table : α) (s : WriteState)

section Functions
variable (B : BlockLayer) (buffer heap : Mem) (fs : Fs)

/-- `return 1`. -/
def WriteState.fails (s : WriteState) : WriteResult := ⟨.unknown, s.superblock, s.disk, s.node⟩

/-- `return ext2_std_inode_write(inode_desc)`. -/
def writeInode (s : WriteState) : WriteResult :=
  let r := stdInodeWrite B { fs with superblock := s.superblock } s.disk s.node
  ⟨r.1, s.superblock, r.2, s.node⟩

/-- `ext2_block_alloc`: the block, or zero. -/
def allocate (s : WriteState) : ℕ × WriteState :=
  let r := blockAlloc B { fs with superblock := s.superblock } s.disk
  (r.1, { s with superblock := r.2.1.superblock, disk := r.2.2 })

/-- A pointer as it is, or a new block if it is zero. -/
def obtainBlock (entry : ℕ) (s : WriteState) : ℕ × WriteState :=
  if entry = 0 then allocate B fs s else (entry, s)

/-- The write of one piece to a block. -/
def writePiece (block : ℕ) (s : WriteState) : WriteState :=
  { s with
    disk := (B.write s.disk (fs.sectorOf block) s.offset (window buffer s.currentloc)
      (if s.size ≥ fs.blockSize then fs.blockSize else s.size)).2
    currentloc := u32 (s.currentloc + fs.blockSize)
    offset := 0
    size := if s.size ≥ fs.blockSize then s.size - fs.blockSize else 0 }

/-- An indirect block is written back. -/
def writeTable (block : ℕ) (table : Mem) (s : WriteState) : WriteState :=
  { s with disk := (B.write s.disk (fs.sectorOf block) 0 table fs.blockSize).2 }

/-- The buffer of an indirect block: cleared if the block is new, else read. Behind the cleared
bytes is what the heap holds there. -/
def loadTable (entry block : ℕ) (s : WriteState) : Mem :=
  if entry = 0 then fun x => if x < fs.blockSize then 0 else heap x
  else (B.read s.disk (fs.sectorOf block) 0 fs.blockSize).2

def tableEntry (table : Mem) (i : ℕ) : ℕ := loadLE table (4 * i) 4

/-- A new block is entered into a table. -/
def enter (entry i block : ℕ) (table : Mem) : Mem :=
  if entry = 0 then storeLE table (4 * i) 4 block else table

/-- A new block is entered into the node. -/
def attach (k block : ℕ) (s : WriteState) : WriteState :=
  if s.node.pointer k = 0 then { s with node := s.node.setPointer k block } else s

/-- The loop over the direct pointers. -/
def writeDirect : ℕ → ℕ → WriteState → Written Unit
  | 0, _, s => .more () s
  | fuel + 1, i, s =>
    let r := obtainBlock B fs (s.node.pointer i) s
    if r.1 = 0 then .failed r.2
    else
      let s := writePiece B buffer fs r.1 (attach i r.1 r.2)
      if s.size = 0 then .last () s else writeDirect fuel (i + 1) s

/-- The loop over one singly indirect block. -/
def writeEntries : ℕ → ℕ → Mem → WriteState → Written Mem
  | 0, _, table, s => .more table s
  | fuel + 1, i, table, s =>
    let entry := tableEntry table i
    let r := obtainBlock B fs entry s
    if r.1 = 0 then .failed r.2
    else
      let table := enter entry i r.1 table
      let s := writePiece B buffer fs r.1 r.2
      if s.size = 0 then .last table s else writeEntries fuel (i + 1) table s

/-- The singly indirect block, with the block counter `i`. -/
def writeSingly (i : ℕ) (s : WriteState) : Except WriteResult WriteState :=
  let entry := s.node.pointer 12
  let r := obtainBlock B fs entry s
  if r.1 = 0 then .error r.2.fails
  else
    let s := attach 12 r.1 r.2
    match writeEntries B buffer fs (fs.blockSize / 4 - i) i (loadTable B heap fs entry r.1 s) s with
    | .failed s => .error s.fails
    | .last table s => .error (writeInode B fs (writeTable B fs r.1 table s))
    | .more table s => .ok (writeTable B fs r.1 table s)

/-- The loop over the doubly indirect block. -/
def writeDoublyLoop (doublyPointer : ℕ) :
    ℕ → ℕ → ℕ → Mem → WriteState → Except WriteResult (Mem × ℕ × WriteState)
  | 0, _, i, doubly, s => .ok (doubly, i, s)
  | fuel + 1, j, i, doubly, s =>
    let entry := tableEntry doubly j
    let r := obtainBlock B fs entry s
    if r.1 = 0 then .error r.2.fails
    else
      let doubly := enter entry j r.1 doubly
      match writeEntries B buffer fs (fs.blockSize / 4 - i) i (loadTable B heap fs entry r.1 r.2) r.2 with
      | .failed s => .error s.fails
      | .last sib s =>
        .error (writeInode B fs (writeTable B fs doublyPointer doubly (writeTable B fs r.1 sib s)))
      | .more sib s =>
        writeDoublyLoop doublyPointer fuel (j + 1) (i - fs.blockSize / 4) doubly (writeTable B fs r.1 sib s)

/-- The doubly indirect block. -/
def writeDoubly (i : ℕ) (s : WriteState) : Except WriteResult (ℕ × WriteState) :=
  let entry := s.node.pointer 13
  let r := obtainBlock B fs entry s
  if r.1 = 0 then .error r.2.fails
  else
    let s := attach 13 r.1 r.2
    match writeDoublyLoop B buffer heap fs r.1 (fs.blockSize / 4) 0 i (loadTable B heap fs entry r.1 s) s with
    | .error r => .error r
    | .ok (doubly, i, s) => .ok (i, writeTable B fs r.1 doubly s)

/-- The innermost loop below the triply indirect block enters a new block at `j`, and writes to
the entry at `i`. -/
def writeEntriesAt (j : ℕ) : ℕ → ℕ → Mem → WriteState → Written Mem
  | 0, _, sib, s => .more sib s
  | fuel + 1, i, sib, s =>
    let entry := tableEntry sib i
    let r := obtainBlock B fs entry s
    if r.1 = 0 then .failed r.2
    else
      let sib := enter entry j r.1 sib
      let s := writePiece B buffer fs (tableEntry sib i) r.2
      if s.size = 0 then .last sib s else writeEntriesAt j fuel (i + 1) sib s

/-- The loop over a doubly indirect block below the triply indirect one. At its end `dib` is
written back to the entry `j` of the triply indirect block. -/
def writeTriplyInner (triply : Mem) :
    ℕ → ℕ → ℕ → Mem → WriteState → Except WriteResult (Mem × ℕ × WriteState)
  | 0, _, i, dib, s => .ok (dib, i, s)
  | fuel + 1, j, i, dib, s =>
    let entry := tableEntry dib j
    let r := obtainBlock B fs entry s
    if r.1 = 0 then .error r.2.fails
    else
      let dib := enter entry j r.1 dib
      match writeEntriesAt B buffer fs j (fs.blockSize / 4 - i) i (loadTable B heap fs entry r.1 r.2) r.2 with
      | .failed s => .error s.fails
      | .last sib s =>
        .error (writeInode B fs (writeTable B fs (s.node.pointer 14) triply
          (writeTable B fs (tableEntry triply j) dib (writeTable B fs r.1 sib s))))
      | .more sib s =>
        writeTriplyInner triply fuel (j + 1) (i - fs.blockSize / 4) dib (writeTable B fs r.1 sib s)

/-- The loop over the triply indirect block takes its pointer at `j`, which the loops before it
have left at the end of a block, and enters a new block into the node. -/
def writeTriplyLoop (triply : Mem) : ℕ → ℕ → WriteState → Except WriteResult WriteState
  | 0, _, s => .ok s
  | fuel + 1, i, s =>
    let entry := tableEntry triply (fs.blockSize / 4)
    let r := obtainBlock B fs entry s
    if r.1 = 0 then .error r.2.fails
    else
      let s := if entry = 0 then { r.2 with node := r.2.node.setPointer 14 r.1 } else r.2
      match writeTriplyInner B buffer heap fs triply (fs.blockSize / 4) 0 i (loadTable B heap fs entry entry s) s with
      | .error r => .error r
      | .ok (dib, i, s) => writeTriplyLoop triply fuel i (writeTable B fs entry dib s)

/-- The triply indirect block. -/
def writeTriply (i : ℕ) (s : WriteState) : Except WriteResult WriteState :=
  let entry := s.node.pointer 14
  let r := obtainBlock B fs entry s
  if r.1 = 0 then .error r.2.fails
  else
    let s := attach 14 r.1 r.2
    let triply := loadTable B heap fs entry r.1 s
    match writeTriplyLoop B buffer heap fs triply (fs.blockSize / 4) i s with
    | .error r => .error r
    | .ok s => .ok (writeTable B fs (s.node.pointer 14) triply s)

/-- The four levels, from the block `firstBlock` of the file on. -/
def writeLevels (firstBlock : ℕ) (s : WriteState) : Except WriteResult WriteState :=
  match writeDirect B buffer fs (12 - firstBlock) firstBlock s with
  | .failed s => .error s.fails
  | .last _ s => .error (writeInode B fs s)
  | .more _ s => do
    let i := firstBlock - 12
    let s ← writeSingly B buffer heap fs i s
    let (i, s) ← writeDoubly B buffer heap fs (i - fs.blockSize / 4) s
    writeTriply B buffer heap fs i s

/-- `ext2_inode_write_content`. -/
def writeContent (disk : Mem) (node : Node) (offset size : ℕ) : WriteResult :=
  if fs.readOnly then ⟨.fileSystemReadOnly, fs.superblock, disk, node⟩
  else
    let node := if u32 (size + offset) > node.length then node.setLength (size + offset) else node
    if offset > node.length then ⟨.fileOut, fs.superblock, disk, node⟩
    else
      match writeLevels B buffer heap fs (offset / fs.blockSize)
          ⟨fs.superblock, disk, node, size, offset % fs.blockSize, 0⟩ with
      | .error r => r
      | .ok s => writeInode B fs s

end Functions

end VkKernel.Ext2
