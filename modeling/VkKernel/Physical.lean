import VkKernel.State

/-!
# Physical memory

`physical.c`: the doubly linked list of physical memory blocks, built from the
boot memory map and split and merged by reservations.
-/

namespace VkKernel

def physFreeBlockType : ℕ := 1
def physHardBlockType : ℕ := 2
def physKernelBlockType : ℕ := 10
def physKernelfBlockType : ℕ := 11
def physUserBlockType : ℕ := 20

def sizeofPBlock : ℕ := 20

def PhysMem.set (m : PhysMem) (p : ℕ) (b : PBlock) : PhysMem :=
  { m with node := Function.update m.node p b }

/-- Assign to fields of the node at `p`. -/
def PhysMem.modify (m : PhysMem) (p : ℕ) (f : PBlock → PBlock) : PhysMem := m.set p (f (m.node p))

/-- `p->prev = q`, when `p` is not null. -/
def PhysMem.relinkPrev (m : PhysMem) (p q : ℕ) : PhysMem :=
  if p ≠ 0 then m.modify p fun b => { b with prev := q } else m

/-- The first node from `curr` on that satisfies the test of a list walk. -/
def PhysMem.walk (m : PhysMem) (test : PBlock → Bool) : ℕ → ℕ → Result (Option ℕ)
  | 0, _ => .error .outOfFuel
  | fuel + 1, curr =>
    if curr = 0 then .ok none
    else if test (m.node curr) then .ok (some curr)
    else m.walk test fuel (m.node curr).next

/-- A free block above the first MiB with room for `size` bytes. -/
def PBlock.available (size : ℕ) (b : PBlock) : Bool :=
  b.baseAddr ≥ 0x100000 ∧ b.type = physFreeBlockType ∧ ¬ b.size < size

/-- Cut the node `curr` after `size` bytes: a new free node `newblock` takes the
rest, and `curr` gets the type. -/
def PhysMem.splitAt (m : PhysMem) (curr newblock size type : ℕ) : PhysMem :=
  let c := m.node curr
  let m := m.set newblock ⟨u32 (c.baseAddr + size), sub32 c.size size, c.next, curr, 1⟩
  let m := m.relinkPrev c.next newblock
  m.modify curr fun b => { b with size := size, next := newblock, type := type }

def reserveBlock (kmalloc : Alloc) (size type : ℕ) (k : Kernel) : Result (ℕ × Kernel) := do
  let size := alignup size 4096
  match ← k.phys.walk (PBlock.available size) loopFuel k.phys.firstBlock with
  | none =>
    fatalKernelError "Trying to reserve more physical memory than available" "RESERVE_BLOCK"
  | some curr =>
    let (newblock, k) ← kmalloc sizeofPBlock k
    .ok ((k.phys.node curr).baseAddr, { k with phys := k.phys.splitAt curr newblock size type })

/-- The body of both merge loops of `free_block`: `p` takes over the size and
the successor of `q`. -/
def PhysMem.absorb (m : PhysMem) (p q : ℕ) : PhysMem :=
  let c := m.node q
  let m := m.modify p fun b => { b with size := u32 (b.size + c.size), next := c.next }
  m.relinkPrev c.next p

/-- The loop of `free_block` that merges the block into its free predecessors;
returns the block it ends up in. -/
def mergeBefore : ℕ → ℕ → ℕ → Kernel → Result (ℕ × Kernel)
  | 0, _, _, _ => .error .outOfFuel
  | fuel + 1, curr, m, k =>
    if m ≠ 0 ∧ (k.phys.node m).type = physFreeBlockType then do
      let k ← Kernel.kfree curr { k with phys := k.phys.absorb m curr }
      mergeBefore fuel m (k.phys.node m).prev k
    else .ok (curr, k)

/-- The loop of `free_block` that merges the free successors into the block. -/
def mergeAfter (curr : ℕ) : ℕ → ℕ → Kernel → Result Kernel
  | 0, _, _ => .error .outOfFuel
  | fuel + 1, m, k =>
    if m ≠ 0 ∧ (k.phys.node m).type = physFreeBlockType then do
      let k ← Kernel.kfree m { k with phys := k.phys.absorb curr m }
      mergeAfter curr fuel (k.phys.node curr).next k
    else .ok k

def freeBlock (baseAddr : ℕ) (k : Kernel) : Result Kernel := do
  match ← k.phys.walk (fun b => b.baseAddr = baseAddr) loopFuel k.phys.firstBlock with
  | none => fatalKernelError "Trying to free an unknown block" "FREE_BLOCK"
  | some curr =>
    if (k.phys.node curr).type ≠ physKernelfBlockType ∧
        (k.phys.node curr).type ≠ physUserBlockType then
      fatalKernelError "Trying to free a non-freeable block" "FREE_BLOCK"
    else
      let phys := k.phys.modify curr fun b => { b with type := physFreeBlockType }
      let (curr, k) ← mergeBefore loopFuel curr (phys.node curr).prev { k with phys := phys }
      mergeAfter curr loopFuel (k.phys.node curr).next k

/-- The two tests of the walk of `reserve_specific`. -/
def PBlock.startsAt (addr : ℕ) (b : PBlock) : Bool :=
  b.baseAddr = addr ∧ b.type = physFreeBlockType

def PBlock.spans (addr : ℕ) (b : PBlock) : Bool :=
  b.baseAddr < addr ∧ u32 (b.baseAddr + b.size) > addr

/-- The first case of `reserve_specific`: like `splitAt`, but the successor is
written without a null test. -/
def PhysMem.cutStart (m : PhysMem) (curr newblock size type : ℕ) : PhysMem :=
  let c := m.node curr
  let m := m.set newblock
    ⟨u32 (c.baseAddr + size), sub32 c.size size, c.next, curr, physFreeBlockType⟩
  let m := m.modify c.next fun b => { b with prev := newblock }
  m.modify curr fun b => { b with size := size, next := newblock, type := type }

/-- The second case up to its second allocation: a free node in front of `curr`.
Its size is `addr - size`, whatever the base of `curr`. -/
def PhysMem.cutBefore (m : PhysMem) (curr beforeblock addr size : ℕ) : PhysMem :=
  let c := m.node curr
  let m := m.set beforeblock
    ⟨c.baseAddr, sub32 addr size, curr, c.prev, physFreeBlockType⟩
  let m := m.modify c.prev fun b => { b with next := beforeblock }
  m.modify curr fun b =>
    { b with prev := beforeblock, baseAddr := addr, size := sub32 b.size (sub32 addr size) }

/-- The rest of the second case: a free node behind `curr`. The `prev` of the
old successor is not updated. -/
def PhysMem.cutAfter (m : PhysMem) (curr afterblock size type : ℕ) : PhysMem :=
  let c := m.node curr
  let m := m.set afterblock
    ⟨u32 (c.baseAddr + size), sub32 c.size size, c.next, curr, physFreeBlockType⟩
  m.modify curr fun b => { b with next := afterblock, size := size, type := type }

def reserveSpecific (kmalloc : Alloc) (addr size type : ℕ) (k : Kernel) : Result (ℕ × Kernel) := do
  match ← k.phys.walk (fun b => b.startsAt addr || b.spans addr) loopFuel k.phys.firstBlock with
  | none => fatalKernelError "Trying to reserve specific failed" "RESERVE_SPECIFIC"
  | some curr =>
    let c := k.phys.node curr
    if c.type ≠ physFreeBlockType ∨ c.size < size then
      fatalKernelError "Trying to reserve specific failed" "RESERVE_SPECIFIC"
    else if c.startsAt addr then
      let (newblock, k) ← kmalloc sizeofPBlock k
      let m := k.phys.cutStart curr newblock size type
      .ok ((m.node curr).baseAddr, { k with phys := m })
    else
      let (beforeblock, k) ← kmalloc sizeofPBlock k
      let (afterblock, k) ← kmalloc sizeofPBlock
        { k with phys := k.phys.cutBefore curr beforeblock addr size }
      let m := k.phys.cutAfter curr afterblock size type
      .ok ((m.node curr).baseAddr, { k with phys := m })

/-- `memory_map_t` without the stride. -/
structure MemoryMap where
  baseAddr : ℕ
  length : ℕ
  type : ℕ
deriving DecidableEq, Repr

def u32Max : ℕ := 4294967295

/-- The loop of `physmem_get` over the entries of the boot memory map: fill in
`current`, and allocate the next node if there is another entry. -/
def physmemLoop (kmalloc : Alloc) : List MemoryMap → ℕ → ℕ → Kernel → Result Kernel
  | [], _, _, k => .ok k
  | e :: es, prev, current, k =>
    if e.baseAddr < u32Max then
      let size := if e.length < u32Max then e.length else u32Max - 1
      let k := { k with phys := k.phys.modify current fun b =>
        { b with baseAddr := e.baseAddr, size := size, type := e.type, prev := prev } }
      if es.isEmpty then .ok k
      else do
        let (next, k) ← kmalloc sizeofPBlock k
        let k := { k with phys := k.phys.modify current fun b => { b with next := next } }
        physmemLoop kmalloc es current next k
    else physmemLoop kmalloc es prev current k

def physmemGet (kmalloc : Alloc) (mmap : List MemoryMap) (k : Kernel) : Result Kernel := do
  let (first, k) ← kmalloc sizeofPBlock k
  let k ← physmemLoop kmalloc mmap 0 first { k with phys := { k.phys with firstBlock := first } }
  let (_, k) ← reserveSpecific kmalloc 0x100000 0x300000 physKernelBlockType k
  let (_, k) ← reserveSpecific kmalloc kheapPhysStart kheapBaseSize physKernelBlockType k
  .ok k

end VkKernel
