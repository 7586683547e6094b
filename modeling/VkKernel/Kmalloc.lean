import VkKernel.Physical
import VkKernel.Paging

/-!
# Allocation with growth

`kmalloc` calls `kheap_expand` when no block is large enough; that maps new
memory in every page directory, and each mapping reserves physical memory, which
allocates a `p_block_t` with `kmalloc`. The recursion is bounded by fuel, so a
call that would recurse for ever is out of fuel at every bound.
-/

namespace VkKernel
open ByteMemory

/-- The block type of a mapping made for a page directory. -/
def blockTypeFor (pd : ℕ) (g : Paging) : ℕ :=
  if pd = g.kernelPageDirectory then physKernelfBlockType else physUserBlockType

def mapMemory (kmalloc : Alloc) (size virt pd : ℕ) (k : Kernel) : Result Kernel := do
  let virt' := aligndown virt 4096
  let size := rangeSize size virt
  let (phys, k) ← reserveBlock kmalloc size (blockTypeFor pd k.paging) k
  let g ← forRange (fun add => mapPageTable (u32 (phys + add)) (u32 (virt' + add)) pd)
    (fun add => mapPage (u32 (phys + add)) (u32 (virt' + add)) pd) size virt' k.paging
  .ok { k with paging := g }

def mapMemoryIfNotMapped (kmalloc : Alloc) (size virt pd : ℕ) (k : Kernel) : Result Kernel := do
  let virt' := aligndown virt 4096
  let size := rangeSize size virt
  let (phys, k) ← reserveBlock kmalloc size (blockTypeFor pd k.paging) k
  let g ← forRange
    (fun add g => if isMapped (u32 (virt' + add)) pd g then .ok g
      else mapPageTable (u32 (phys + add)) (u32 (virt' + add)) pd g)
    (fun add g => if isMapped (u32 (virt' + add)) pd g then .ok g
      else mapPage (u32 (phys + add)) (u32 (virt' + add)) pd g) size virt' k.paging
  .ok { k with paging := g }

/-- The loop of `kheap_expand` over the process array. -/
def mapInProcesses (kmalloc : Alloc) : List (Option Process) → Kernel → Result Kernel
  | [], k => .ok k
  | none :: ps, k => mapInProcesses kmalloc ps k
  | some p :: ps, k => do
    let k ← mapMemory kmalloc 0x400000 k.heap.baseEnd p.pageDirectory k
    mapInProcesses kmalloc ps k

def kheapExpand (kmalloc : Alloc) (k : Kernel) : Result Kernel := do
  if k.heap.baseEnd ≥ freeKvmStart then
    fatalKernelError "Kernel heap full ! How ?" "KHEAP_EXPAND"
  else
    let k ← mapMemory kmalloc 0x400000 k.heap.baseEnd k.paging.kernelPageDirectory k
    let k ← mapInProcesses kmalloc (k.processes.drop 1) k
    let h ← addBaseBlock k.heap
    .ok { k with heap := h }

def kmalloc : ℕ → Alloc
  | 0, _, _ => .error .outOfFuel
  | fuel + 1, size, k => do
    let size := alignup size 4
    match ← kmallocScan k.heap size loopFuel kheapBaseStart with
    | some (p, h) => .ok (p, { k with heap := h })
    | none =>
      let k ← kheapExpand (kmalloc fuel) k
      kmalloc fuel size k

/-- `memcpy` inside the heap. -/
def Heap.copy (h : Heap) (dst src n : ℕ) : Heap :=
  { h with mem := ByteMemory.copy h.mem dst src n }

def krealloc (fuel pointer newsize : ℕ) (k : Kernel) : Result (ℕ × Kernel) := do
  let blockHeader := pointer - sizeofBlockHeader
  if k.heap.size blockHeader > newsize then
    fatalKernelError "Reallocating less space ?!" "KREALLOC"
  else
    let (np, k) ← kmalloc fuel newsize k
    let k := { k with heap := k.heap.copy np pointer (k.heap.size blockHeader) }
    let k ← k.kfree pointer
    .ok (np, k)

end VkKernel
