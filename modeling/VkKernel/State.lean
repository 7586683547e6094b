import VkKernel.Kheap

/-!
# The state of the memory manager

The kernel heap is bytes. The structures that the memory manager itself keeps
are held by value under their addresses: the `p_block_t` nodes of the physical
memory list, and the words of page directories and page tables. A `p_block_t`
still costs a heap allocation, whose address is the key of the node.
-/

namespace VkKernel
open ByteMemory

def kernelVirtualBase : ℕ := 0xC0000000

/-- `p_block_t`; links are addresses, `0` being the null pointer. -/
structure PBlock where
  baseAddr : ℕ
  size : ℕ
  next : ℕ
  prev : ℕ
  type : ℕ
deriving DecidableEq, Repr

/-- Fresh heap memory is zero. -/
def PBlock.zero : PBlock := ⟨0, 0, 0, 0, 0⟩

structure PhysMem where
  firstBlock : ℕ
  node : ℕ → PBlock

/-- `word` is the memory of page directories and page tables, by virtual address;
`kpheapBlocks i` tells whether slot `i` of the page heap is in use.
`kernelPageDirectory` is the address of the array `kernel_page_directory`. -/
structure Paging where
  word : ℕ → ℕ
  kpheapBlocks : ℕ → Bool
  kernelPageDirectory : ℕ
  currentPageDirectory : ℕ
  cpuPse : Bool

inductive ThreadStatus
  | init
  | running
  | asleepTime
  | asleepIrq
  | asleepIo
  | asleepChild
  | asleepMutex
  | zombie
deriving DecidableEq, Repr

/-- `thread_t` without the registers. -/
structure Thread where
  addr : ℕ
  baseStack : ℕ
  baseKstack : ℕ
  status : ThreadStatus
deriving DecidableEq, Repr

/-- One element of `data_loc`: a loaded segment, with the heap addresses of the
list entry and of its element. -/
structure DataLoc where
  entry : ℕ
  element : ℕ
  vaddr : ℕ
  size : ℕ
deriving DecidableEq, Repr

inductive ProcessStatus
  | init
  | running
  | asleepThreads
  | asleepSignal
  | zombie
deriving DecidableEq, Repr

/-- `process_t`, less what only the file system, terminals and signal handlers
read. The lists of waiting threads and of children hold the heap address of each
list entry; a child is given by its pid, and so is the parent. -/
structure Process where
  addr : ℕ
  pid : ℕ
  status : ProcessStatus
  pageDirectory : ℕ
  activeThread : Option Thread
  runningThreads : List Thread
  waitingThreads : List (ℕ × Thread)
  dataLoc : List DataLoc
  heapAddr : ℕ
  heapSize : ℕ
  files : List (Option ℕ)
  group : ℕ
  children : List (ℕ × ℕ)
  parent : Option ℕ
deriving DecidableEq, Repr

/-- `ram` is physical memory. `processes` is the array of that name; slot `0` is
never used, and `currentProcess = 0` stands for the kernel process. `groups` is
the process list of each group, as pairs of a list entry and a pid, and
`fdInstances` the field `instances` of the `fd_t` at an address. -/
structure Kernel where
  heap : Heap
  phys : PhysMem
  paging : Paging
  ram : Mem
  processes : List (Option Process)
  processesAddr : ℕ
  currentProcess : ℕ
  groups : ℕ → List (ℕ × ℕ)
  fdInstances : ℕ → ℕ

/-- `kmalloc` as the other parts of the memory manager call it. They are written
over it because `kmalloc` calls them in turn when the heap is full. -/
abbrev Alloc := ℕ → Kernel → Result (ℕ × Kernel)

def Kernel.kfree (pointer : ℕ) (k : Kernel) : Result Kernel := do
  let h ← VkKernel.kfree pointer k.heap
  .ok { k with heap := h }

/-- Wrapping subtraction of 32-bit values. -/
def sub32 (a b : ℕ) : ℕ := u32 (a + 2 ^ 32 - b)

theorem sub32_of_le {a b : ℕ} (ha : a < 2 ^ 32) (h : b ≤ a) : sub32 a b = a - b := by
  unfold sub32 u32
  omega

end VkKernel
