import VkKernel.Lib.PackedStruct
import VkKernel.System

/-!
# The block layer

A drive is a byte memory. The file system reaches it only through
`block_read_flexible` and `block_write_flexible`, so these two are a parameter
of the file system's model.
-/

namespace VkKernel
open ByteMemory PackedStruct IntervalUpdate

/-- The values of `error_t` that the storage and file system code returns. -/
inductive ErrorT
  | none
  | unknown
  | diskUnreachable
  | diskOut
  | diskBusy
  | diskInternal
  | fileNotFound
  | fileSystemReadOnly
  | fileFsInternal
  | fileOut
  | fileCorruptedFs
  | mutexAlreadyLocked
  | mutexOwnedByOther
deriving DecidableEq, Repr

def bytesPerSector : ℕ := 512

/-- `read disk sector offset count` returns an error code and the buffer that
the request fills, `write disk sector offset data count` an error code and the
disk. The buffer is the memory from its first byte on: what a read leaves past
the `count` bytes is what the heap holds there. -/
structure BlockLayer where
  read : Mem → ℕ → ℕ → ℕ → ErrorT × Mem
  write : Mem → ℕ → ℕ → Mem → ℕ → ErrorT × Mem

/-- Every request succeeds and covers exactly the given byte range. -/
structure BlockLayer.Exact (B : BlockLayer) : Prop where
  read_none : ∀ disk sector offset count, (B.read disk sector offset count).1 = .none
  read_data : ∀ disk sector offset count i, i < count →
    (B.read disk sector offset count).2 i = disk (bytesPerSector * sector + offset + i)
  write_eq : ∀ disk sector offset data count,
    B.write disk sector offset data count =
      (.none, overwrite disk (bytesPerSector * sector + offset) count data)

/-- An exact block layer whose read buffers are followed by the bytes `rest`. -/
def BlockLayer.exactWith (rest : Mem) : BlockLayer where
  read disk sector offset count :=
    (.none, fun i => if i < count then disk (bytesPerSector * sector + offset + i) else rest i)
  write disk sector offset data count :=
    (.none, overwrite disk (bytesPerSector * sector + offset) count data)

theorem BlockLayer.exact_exactWith (rest : Mem) : (BlockLayer.exactWith rest).Exact where
  read_none _ _ _ _ := rfl
  read_data _ _ _ _ _ h := if_pos h
  write_eq _ _ _ _ _ := rfl

/-- A field of a structure that has been read from the disk. -/
theorem BlockLayer.Exact.get_read {B : BlockLayer} (hB : B.Exact) {disk : Mem}
    {sector offset count : ℕ} {f : Field} (h : f.offset + f.width ≤ count) :
    f.get (B.read disk sector offset count).2 =
      f.get (window disk (bytesPerSector * sector + offset)) := by
  apply Field.get_congr
  intro i _ hi
  exact hB.read_data disk sector offset count i (by omega)

end VkKernel
