import VkKernel.Lib.ByteMemory
import VkKernel.System

/-!
# The kernel heap

`kheap.c` without `kmalloc` itself, which needs paging to grow the heap. The
heap is a byte memory; a block header is the packed structure `block_header_t`,
a 32-bit size followed by a 16-bit magic and a 16-bit status.
-/

namespace VkKernel
open ByteMemory

def unknownBlockErrmsg : String := "Unknown block in kernel heap"

def kheapPhysStart : ℕ := 0x800000
def kheapBaseStart : ℕ := 0xC0800000
def kheapBaseSize : ℕ := 0x400000
def freeKvmStart : ℕ := 0xE0800000
def blockHeaderMagic : ℕ := 0xB1
def sizeofBlockHeader : ℕ := 8

/-- `baseEnd` is `KHEAP_BASE_END`. `live` is ghost state that no function reads:
the pointers returned by `kmalloc` and not yet passed to `kfree`. -/
structure Heap where
  mem : Mem
  baseEnd : ℕ
  live : List ℕ

namespace Heap

def size (h : Heap) (b : ℕ) : ℕ := loadLE h.mem b 4
def magic (h : Heap) (b : ℕ) : ℕ := loadLE h.mem (b + 4) 2
def status (h : Heap) (b : ℕ) : ℕ := loadLE h.mem (b + 6) 2

def setSize (h : Heap) (b v : ℕ) : Heap := { h with mem := storeLE h.mem b 4 v }
def setMagic (h : Heap) (b v : ℕ) : Heap := { h with mem := storeLE h.mem (b + 4) 2 v }
def setStatus (h : Heap) (b v : ℕ) : Heap := { h with mem := storeLE h.mem (b + 6) 2 v }

end Heap

/-- The part of `kheap_install` that writes the heap. -/
def kheapInstall (h : Heap) : Heap :=
  let h := { h with
    mem := fill h.mem kheapBaseStart kheapBaseSize 0
    baseEnd := kheapBaseStart + kheapBaseSize
    live := [] }
  let h := h.setMagic kheapBaseStart blockHeaderMagic
  let h := h.setSize kheapBaseStart (h.baseEnd - (kheapBaseStart + sizeofBlockHeader))
  h.setStatus kheapBaseStart 0

/-- The body of `kmalloc` once the block at `i` has been found free and large
enough: split it if the rest can hold a header, and mark it reserved. -/
def takeBlock (h : Heap) (i size : ℕ) : Heap :=
  let oldSize := h.size i
  let h :=
    if oldSize - size > sizeofBlockHeader then
      let h := h.setSize i size
      let newblock := u32 (i + sizeofBlockHeader + h.size i)
      let h := h.setMagic newblock blockHeaderMagic
      let h := h.setSize newblock (oldSize - size - sizeofBlockHeader)
      h.setStatus newblock 0
    else h
  let h := h.setStatus i 1
  { h with live := u32 (i + sizeofBlockHeader) :: h.live }

/-- The `while` loop of `kmalloc`: the pointer to return and the heap, or `none`
when the loop ends without finding a block. -/
def kmallocScan (h : Heap) (size : ℕ) : ℕ → ℕ → Result (Option (ℕ × Heap))
  | 0, _ => .error .outOfFuel
  | fuel + 1, i =>
    if i < h.baseEnd then
      if h.magic i ≠ blockHeaderMagic then fatalKernelError unknownBlockErrmsg "Memory allocation"
      else if h.status i = 0 ∧ h.size i ≥ size then
        .ok (some (u32 (i + sizeofBlockHeader), takeBlock h i size))
      else kmallocScan h size fuel (u32 (i + (h.size i + sizeofBlockHeader)))
    else .ok none

/-- The inner loop of `merge_free_blocks`. The flag tells a `return` from inside
the loop from its normal end. -/
def mergeInto (current : ℕ) : ℕ → ℕ → Heap → Result (Bool × Heap)
  | 0, _, _ => .error .outOfFuel
  | fuel + 1, next, h =>
    if h.status next = 0 then
      if next ≥ h.baseEnd then .ok (true, h)
      else if h.magic next ≠ blockHeaderMagic then
        fatalKernelError unknownBlockErrmsg "Block merging (merging loop)"
      else
        let h := h.setSize current (u32 (h.size current + (h.size next + sizeofBlockHeader)))
        let next := u32 (next + (h.size next + sizeofBlockHeader))
        if next ≥ h.baseEnd then .ok (true, h)
        else mergeInto current fuel next h
    else .ok (false, h)

/-- The outer loop of `merge_free_blocks`. -/
def mergeFrom : ℕ → ℕ → Heap → Result Heap
  | 0, _, _ => .error .outOfFuel
  | fuel + 1, current, h =>
    if current < h.baseEnd then
      if h.magic current ≠ blockHeaderMagic then
        fatalKernelError unknownBlockErrmsg "Block merging (first block lookup)"
      else if h.status current ≠ 0 then
        mergeFrom fuel (u32 (current + (h.size current + sizeofBlockHeader))) h
      else
        let next := u32 (current + h.size current + sizeofBlockHeader)
        if next ≥ h.baseEnd then .ok h
        else do
          let (returned, h) ← mergeInto current loopFuel next h
          if returned then .ok h
          else mergeFrom fuel (u32 (current + (h.size current + sizeofBlockHeader))) h
    else .ok h

def mergeFreeBlocks (h : Heap) : Result Heap := mergeFrom loopFuel kheapBaseStart h

def kfree (pointer : ℕ) (h : Heap) : Result Heap :=
  let blockHeader := pointer - sizeofBlockHeader
  if h.magic blockHeader ≠ blockHeaderMagic then
    fatalKernelError unknownBlockErrmsg "Pointer freeing"
  else
    let h := h.setStatus blockHeader 0
    mergeFreeBlocks { h with live := h.live.erase pointer }

def kheapGetSize (ptr : ℕ) (h : Heap) : Result ℕ :=
  let blockHeader := ptr - sizeofBlockHeader
  if h.magic blockHeader ≠ blockHeaderMagic then
    fatalKernelError unknownBlockErrmsg "Pointer size"
  else .ok (h.size blockHeader)

/-- What `kheap_expand` does once the new pages are mapped: one free block over
the new 4 MiB, then a merge. -/
def addBaseBlock (h : Heap) : Result Heap :=
  let baseBlock := h.baseEnd
  let h := h.setMagic baseBlock blockHeaderMagic
  let h := h.setSize baseBlock (0x400000 - sizeofBlockHeader)
  let h := h.setStatus baseBlock 0
  mergeFreeBlocks { h with baseEnd := u32 (h.baseEnd + 0x400000) }

end VkKernel
