import VkKernel.State

/-!
# Paging

`kpageheap.c` and `paging.c`: page directories and page tables are 4096-byte
slots of the page heap, addressed by the kernel at `0xC0400000` and above.
-/

namespace VkKernel

def kpheapVirtBase : ℕ := 0xC0400000
def kpheapBlockSize : ℕ := 4096

/-- The address of slot `i` of the page heap. -/
def slotAddr (i : ℕ) : ℕ := kpheapVirtBase + kpheapBlockSize * i

def Paging.setWord (g : Paging) (a v : ℕ) : Paging :=
  { g with word := Function.update g.word a v }

/-- Clear one page of words. -/
def Paging.clearPage (g : Paging) (a : ℕ) : Paging :=
  { g with word := fun x => if a ≤ x ∧ x < a + 4096 then 0 else g.word x }

/-- The loop of `pt_alloc`, with `n` slots left to look at. -/
def ptAllocFrom (g : Paging) : ℕ → Result (ℕ × Paging)
  | 0 => fatalKernelError "Page heap is full. How did you do this ?" "PT_ALLOC"
  | n + 1 =>
    let i := 1024 - (n + 1)
    if g.kpheapBlocks i = false then
      .ok (slotAddr i,
        { g.clearPage (slotAddr i) with kpheapBlocks := Function.update g.kpheapBlocks i true })
    else ptAllocFrom g n

def ptAlloc (g : Paging) : Result (ℕ × Paging) := ptAllocFrom g 1024

def ptFree (pt : ℕ) (g : Paging) : Paging :=
  let index := sub32 pt kpheapVirtBase / kpheapBlockSize
  { g with kpheapBlocks := Function.update g.kpheapBlocks index false }

/-- Copy the entries of the kernel half, from index `i` on. -/
def copyKernelHalf (tr : ℕ) : ℕ → ℕ → Paging → Paging
  | 0, _, g => g
  | n + 1, i, g =>
    copyKernelHalf tr n (i + 1) (g.setWord (tr + 4 * i) (g.word (g.kernelPageDirectory + 4 * i)))

def getKernelPdClone (g : Paging) : Result (ℕ × Paging) := do
  let (tr, g) ← ptAlloc g
  .ok (tr, copyKernelHalf tr (1024 - kernelVirtualBase / 2 ^ 22) (kernelVirtualBase / 2 ^ 22) g)

def pdIndex (virt : ℕ) : ℕ := virt / 2 ^ 22
def ptIndex (virt : ℕ) : ℕ := virt / 2 ^ 12 % 1024

/-- `x << 24 >> 31`: the page-size bit of a directory entry. -/
def pageSizeBit (entry : ℕ) : ℕ := entry / 2 ^ 7 % 2

/-- `x >> 12 << 12`. -/
def frameOf (entry : ℕ) : ℕ := entry / 2 ^ 12 * 2 ^ 12

/-- The address of the page-table entry for `virt` in a table at a physical address. -/
def pageAddr (pageTable virt : ℕ) : ℕ := u32 (pageTable + ptIndex virt * 4 + kernelVirtualBase)

/-- A value that depends on whether `pd` is the kernel page directory. -/
def Paging.kernelOr (g : Paging) (pd a b : ℕ) : ℕ := if pd = g.kernelPageDirectory then a else b

/-- Present, read/write, and global in the kernel directory or user in the others. -/
def Paging.pageFlags (g : Paging) (pd : ℕ) : ℕ := g.kernelOr pd 259 7

/-- The first half of `map_page`: the physical address of the page table for
`virt`, which is allocated when the directory has none. -/
def pageTableFor (virt pd : ℕ) (g : Paging) : Result (ℕ × Paging) :=
  let entry := g.word (pd + 4 * pdIndex virt)
  if entry = 0 then do
    let (pt, g) ← ptAlloc g
    let pageTable := sub32 pt kernelVirtualBase
    let g := g.clearPage (u32 (pageTable + kernelVirtualBase))
    .ok (pageTable, g.setWord (pd + 4 * pdIndex virt) (pageTable ||| g.pageFlags pd))
  else if pageSizeBit entry = 1 then
    fatalKernelError "Trying to map physical to an already mapped page table" "MAP_PAGE"
  else .ok (frameOf entry, g)

def mapPage (phys virt pd : ℕ) (g : Paging) : Result Paging :=
  if phys % 4096 ≠ 0 then
    fatalKernelError "Trying to map a non-aligned physical address" "MAP_PAGE"
  else if virt % 4096 ≠ 0 then
    fatalKernelError "Trying to map physical to non-aligned virtual address" "MAP_PAGE"
  else do
    let (pageTable, g) ← pageTableFor virt pd g
    let page := pageAddr pageTable virt
    if g.word page ≠ 0 then
      fatalKernelError "Trying to map physical to an already mapped virtual address" "MAP_PAGE"
    else .ok (g.setWord page (phys ||| g.pageFlags pd))

/-- The loop of `map_page_table` for processors without 4 MiB pages. It writes
the new table at its physical address. -/
def fillTable (pageTable flags : ℕ) : ℕ → ℕ → ℕ → Paging → Paging
  | 0, _, _, g => g
  | n + 1, i, phys, g =>
    fillTable pageTable flags n (i + 1) (u32 (phys + 0x1000))
      (g.setWord (pageTable + 4 * i) (phys ||| flags))

def mapPageTable (phys virt pd : ℕ) (g : Paging) : Result Paging :=
  if phys % 0x400000 ≠ 0 then
    fatalKernelError "Trying to map a non-aligned physical address" "MAP_PAGE_TABLE"
  else if virt % 0x400000 ≠ 0 then
    fatalKernelError "Trying to map physical to non-aligned virtual address" "MAP_PAGE_TABLE"
  else if g.word (pd + 4 * pdIndex virt) ≠ 0 then
    fatalKernelError "Trying to map a page table to an already mapped page table" "MAP_PAGE_TABLE"
  else if g.cpuPse then
    .ok (g.setWord (pd + 4 * pdIndex virt) (phys ||| g.kernelOr pd 387 135))
  else do
    let (pt, g) ← ptAlloc g
    let pageTable := sub32 pt kernelVirtualBase
    let g := g.setWord (pd + 4 * pdIndex virt) (pageTable ||| g.pageFlags pd)
    .ok (fillTable pageTable (g.kernelOr pd 3 7) 1024 0 phys g)

def unmapPage (virt pd : ℕ) (g : Paging) : Result Paging :=
  if virt % 4096 ≠ 0 then
    fatalKernelError "Trying to unmap a non-aligned virtual address" "UNMAP_PAGE"
  else
    let entry := g.word (pd + 4 * pdIndex virt)
    if entry = 0 then .ok g
    else if pageSizeBit entry = 1 then
      fatalKernelError "Trying to unmap page, but page table is mapped" "UNMAP_PAGE"
    else
      let page := pageAddr (frameOf entry) virt
      if g.word page = 0 then
        fatalKernelError "Trying to unmap a non-mapped virtual address" "UNMAP_PAGE"
      else .ok (g.setWord page 0)

/-- `unmap_page_table`. The argument of its `pt_free` is pointer arithmetic on
`u32*`, so the offset is four times `KERNEL_VIRTUAL_BASE`. -/
def unmapPageTable (virt pd : ℕ) (g : Paging) : Result Paging :=
  if virt % 0x400000 ≠ 0 then
    fatalKernelError "Trying to unmap a non-aligned virtual address" "UNMAP_PAGE_TABLE"
  else
    let entry := g.word (pd + 4 * pdIndex virt)
    if entry = 0 then fatalKernelError "Trying to unmap an unmapped page table" "UNMAP_PAGE_TABLE"
    else if g.cpuPse then .ok (g.setWord (pd + 4 * pdIndex virt) 0)
    else
      .ok ((ptFree (u32 (entry + 4 * kernelVirtualBase)) g).setWord (pd + 4 * pdIndex virt) 0)

/-- `n` steps at the offsets `add`, `add + step`, and so on. -/
def stepLoop (step : ℕ) (f : ℕ → Paging → Result Paging) : ℕ → ℕ → Paging → Result Paging
  | 0, _, g => .ok g
  | n + 1, add, g => do
    let g ← f add g
    stepLoop step f n (add + step) g

/-- How many 4 MiB pages a call uses. -/
def largePages (size virt : ℕ) : ℕ :=
  if virt % 0x400000 = 0 ∧ size > 0x400000 then (size - 1) / 0x400000 else 0

/-- The two loops that the range functions of `paging.c` share: 4 MiB pages
while more than 4 MiB are left of an aligned range, then 4 KiB pages. -/
def forRange (large small : ℕ → Paging → Result Paging) (size virt : ℕ) (g : Paging) :
    Result Paging := do
  let n := largePages size virt
  let g ← stepLoop 0x400000 large n 0 g
  stepLoop 4096 small ((size - n * 0x400000) / 4096) (n * 0x400000) g

/-- The page-rounded size of a call: `size` grows by what `virt` loses. -/
def rangeSize (size virt : ℕ) : ℕ :=
  alignup (u32 (size + (virt - aligndown virt 4096))) 4096

def isMapped (virt pd : ℕ) (g : Paging) : Bool :=
  let entry := g.word (pd + 4 * pdIndex virt)
  if entry = 0 then false
  else if entry / 2 ^ 7 % 2 = 1 then true
  else g.word (pageAddr (frameOf entry) virt) ≠ 0

/-- The addresses of a page are mapped together. -/
theorem isMapped_congr {v w : ℕ} (pd : ℕ) (g : Paging) (h : v / 4096 = w / 4096) :
    isMapped v pd g = isMapped w pd g := by
  have hpd : pdIndex v = pdIndex w := by
    unfold pdIndex
    omega
  have hpt : ptIndex v = ptIndex w := by
    unfold ptIndex
    omega
  rw [isMapped, isMapped, pageAddr, pageAddr, hpd, hpt]

/-- `get_physical`. For a 4 MiB page it reads memory at the value of the
directory entry. -/
def getPhysical (virt pd : ℕ) (g : Paging) : ℕ :=
  let entry := g.word (pd + 4 * pdIndex virt)
  if entry = 0 then 0
  else if pageSizeBit entry = 1 then u32 (frameOf (g.word entry) + virt % 0x400000)
  else
    let page := g.word (pageAddr (frameOf entry) virt)
    if page ≠ 0 then frameOf page + virt % 4096 else 0

def mapFlexible (size physical virt pd : ℕ) (g : Paging) : Result Paging :=
  let virt' := aligndown virt 4096
  forRange (fun add => mapPageTable (u32 (physical + add)) (u32 (virt' + add)) pd)
    (fun add => mapPage (u32 (physical + add)) (u32 (virt' + add)) pd) (rangeSize size virt) virt' g

def unmapFlexible (size virt pd : ℕ) (g : Paging) : Result Paging :=
  let virt' := aligndown virt 4096
  forRange (fun add => unmapPageTable (u32 (virt' + add)) pd)
    (fun add => unmapPage (u32 (virt' + add)) pd) (rangeSize size virt) virt' g

def unmapMemoryIfMapped (size virt pd : ℕ) (g : Paging) : Result Paging :=
  let virt' := aligndown virt 4096
  forRange
    (fun add g =>
      if isMapped (u32 (virt' + add)) pd g then unmapPageTable (u32 (virt' + add)) pd g else .ok g)
    (fun add g =>
      if isMapped (u32 (virt' + add)) pd g then unmapPage (u32 (virt' + add)) pd g else .ok g)
    (rangeSize size virt) virt' g

end VkKernel
