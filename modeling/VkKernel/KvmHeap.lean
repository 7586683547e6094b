import VkKernel.PhysicalRun

/-!
# Kernel virtual memory

`kvmheap.c`: the doubly linked list of blocks of kernel virtual memory. Its operations are
those of the physical memory list without a lower bound on the address and without types,
so it is read as such a list to find out what they do.
-/

namespace VkKernel
open LinkedList RegionList BlockLayout Outcome

/-- `vm_block_t` -/
structure VmBlock where
  vaddr : ℕ
  size : ℕ
  status : ℕ
  next : ℕ
  prev : ℕ
deriving DecidableEq, Repr

def sizeofVmBlock : ℕ := 20

/-- `firstBlock` is `vm_first_block`. -/
structure VmMem where
  firstBlock : ℕ
  node : ℕ → VmBlock

structure VmKernel where
  kernel : Kernel
  vm : VmMem

namespace VmMem

def set (v : VmMem) (p : ℕ) (b : VmBlock) : VmMem := { v with node := Function.update v.node p b }

/-- Assign to fields of the node at `p`. -/
def modify (v : VmMem) (p : ℕ) (f : VmBlock → VmBlock) : VmMem := v.set p (f (v.node p))

/-- `p->prev = q`, when `p` is not null. -/
def relinkPrev (v : VmMem) (p q : ℕ) : VmMem :=
  if p ≠ 0 then v.modify p fun b => { b with prev := q } else v

/-- The first node from `curr` on that satisfies the test of a list walk. -/
def walk (v : VmMem) (test : VmBlock → Bool) : ℕ → ℕ → Result (Option ℕ)
  | 0, _ => .error .outOfFuel
  | fuel + 1, curr =>
    if curr = 0 then .ok none
    else if test (v.node curr) then .ok (some curr)
    else v.walk test fuel (v.node curr).next

/-- Reserve the first `size` bytes of `curr`: a new free node `newblock` takes the rest. -/
def splitAt (v : VmMem) (curr newblock size : ℕ) : VmMem :=
  let c := v.node curr
  let v := v.set newblock ⟨u32 (c.vaddr + size), sub32 c.size size, 0, c.next, curr⟩
  let v := v.relinkPrev c.next newblock
  v.modify curr fun b => { b with size := size, next := newblock, status := 1 }

/-- The body of both merge loops of `kvm_free_block`: `p` takes over the size and the
successor of `q`. -/
def absorb (v : VmMem) (p q : ℕ) : VmMem :=
  let c := v.node q
  let v := v.modify p fun b => { b with size := u32 (b.size + c.size), next := c.next }
  v.relinkPrev c.next p

end VmMem

def kvmheapInstall (fuel : ℕ) (k : Kernel) (node : ℕ → VmBlock) : Result VmKernel := do
  let (p, k) ← kmalloc fuel sizeofVmBlock k
  .ok ⟨k, VmMem.set ⟨p, node⟩ p ⟨freeKvmStart, 0xFFFFFFFF - freeKvmStart, 0, 0, 0⟩⟩

/-- Free, with room for `size` bytes. -/
def VmBlock.available (size : ℕ) (b : VmBlock) : Bool := b.status = 0 ∧ ¬ b.size < size

def kvmReserveBlock (fuel size : ℕ) (s : VmKernel) : Result (ℕ × VmKernel) := do
  let size := alignup size 4096
  match ← s.vm.walk (VmBlock.available size) loopFuel s.vm.firstBlock with
  | none =>
    fatalKernelError "Trying to reserve more virtual memory than available" "KVM_RESERVE_BLOCK"
  | some curr =>
    let (newblock, k) ← kmalloc fuel sizeofVmBlock s.kernel
    let vm := s.vm.splitAt curr newblock size
    .ok ((vm.node curr).vaddr, ⟨k, vm⟩)

/-- The loop of `kvm_free_block` that merges the block into its free predecessors; returns
the block it ends up in. -/
def kvmMergeBefore : ℕ → ℕ → ℕ → VmKernel → Result (ℕ × VmKernel)
  | 0, _, _, _ => .error .outOfFuel
  | fuel + 1, curr, m, s =>
    if m ≠ 0 ∧ (s.vm.node m).status = 0 then do
      let vm := s.vm.absorb m curr
      let k ← s.kernel.kfree curr
      kvmMergeBefore fuel m (vm.node m).prev ⟨k, vm⟩
    else .ok (curr, s)

/-- The loop of `kvm_free_block` that merges the free successors into the block. -/
def kvmMergeAfter (curr : ℕ) : ℕ → ℕ → VmKernel → Result VmKernel
  | 0, _, _ => .error .outOfFuel
  | fuel + 1, m, s =>
    if m ≠ 0 ∧ (s.vm.node m).status = 0 then do
      let vm := s.vm.absorb curr m
      let k ← s.kernel.kfree m
      kvmMergeAfter curr fuel (vm.node curr).next ⟨k, vm⟩
    else .ok s

def kvmFreeBlock (baseAddr : ℕ) (s : VmKernel) : Result VmKernel := do
  match ← s.vm.walk (fun b => b.vaddr = baseAddr) loopFuel s.vm.firstBlock with
  | none => fatalKernelError "Trying to free an unknown block" "KVM_FREE_BLOCK"
  | some curr =>
    let vm := s.vm.modify curr fun b => { b with status := 0 }
    let (curr, s) ← kvmMergeBefore loopFuel curr (vm.node curr).prev { s with vm := vm }
    kvmMergeAfter curr loopFuel (s.vm.node curr).next s

/-! ## What a tiling is -/

def VmMem.links (v : VmMem) : Links ℕ where
  next a := (v.node a).next
  prev a := (v.node a).prev

def VmMem.block (v : VmMem) (a : ℕ) : Block :=
  ⟨(v.node a).vaddr, (v.node a).size, (v.node a).status ≠ 0⟩

/-- The nodes `ps` are linked both ways, and their blocks follow each other without a gap
from `FREE_KVM_START` to `0xFFFFFFFF`. -/
structure VmTiling (v : VmMem) (ps : List ℕ) : Prop where
  nodup : ps.Nodup
  linked : ∃ q, Seg 0 (fun _ => False) v.links 0 v.firstBlock ps q 0
  inverse : ∀ p ∈ ps, ((v.node p).next ≠ 0 → (v.node (v.node p).next).prev = p) ∧
    ((v.node p).prev ≠ 0 → (v.node (v.node p).prev).next = p)
  tiles : Tiles 0 freeKvmStart (ps.map v.block) 0xFFFFFFFF
  aligned : ∀ p ∈ ps, 4096 ∣ (v.node p).vaddr

/-- The node of a region that has just been returned. -/
structure VmReserved (size a : ℕ) (v : VmMem) (ps : List ℕ) (p : ℕ) : Prop where
  mem : p ∈ ps
  reserved : (v.node p).status ≠ 0
  start : (v.node p).vaddr = a
  aligned : 4096 ∣ a
  enough : size ≤ (v.node p).size
  apart : ∀ q ∈ ps, q ≠ p → (v.node q).status ≠ 0 →
    (v.node q).vaddr + (v.node q).size ≤ a ∨ a + (v.node p).size ≤ (v.node q).vaddr

/-- One call, or work of the heap's other clients, who keep the nodes of the list
allocated. The second component holds the addresses that have been returned. -/
inductive VmStep : VmKernel × List ℕ → VmKernel × List ℕ → Prop
  | reserve {s s' : VmKernel} {ret : List ℕ} {fuel size a : ℕ} : size ≤ 0xFFFFF000 →
      kvmReserveBlock fuel size s = .ok (a, s') → VmStep (s, ret) (s', a :: ret)
  | free {s s' : VmKernel} {ret : List ℕ} {a : ℕ} : a ∈ ret → kvmFreeBlock a s = .ok s' →
      VmStep (s, ret) (s', ret)
  | heap {s : VmKernel} {k : Kernel} {ret : List ℕ} : HeapStep s.kernel k →
      (∀ ps, VmTiling s.vm ps → ∀ p ∈ ps, p ∈ k.heap.live) →
      VmStep (s, ret) ({ s with kernel := k }, ret)

/-! ## The list as a list of physical blocks -/

def VmBlock.toPBlock (b : VmBlock) : PBlock :=
  ⟨b.vaddr, b.size, b.next, b.prev, if b.status = 0 then physFreeBlockType else physUserBlockType⟩

def VmMem.toPhys (v : VmMem) : PhysMem := ⟨v.firstBlock, fun a => (v.node a).toPBlock⟩

def VmKernel.toPhys (s : VmKernel) : Kernel := { s.kernel with phys := s.vm.toPhys }

theorem toPBlock_type_eq_free {b : VmBlock} : b.toPBlock.type = physFreeBlockType ↔ b.status = 0 := by
  unfold VmBlock.toPBlock
  split_ifs with h
  · simp [h]
  · simp [h, physFreeBlockType, physUserBlockType]

theorem toPhys_set (v : VmMem) (p : ℕ) (b : VmBlock) :
    (v.set p b).toPhys = v.toPhys.set p b.toPBlock := by
  unfold VmMem.toPhys VmMem.set PhysMem.set
  congr 1
  funext a
  by_cases ha : a = p
  · simp [ha]
  · simp [ha]

theorem toPhys_modify (v : VmMem) (p : ℕ) {f : VmBlock → VmBlock} {g : PBlock → PBlock}
    (h : ∀ b : VmBlock, (f b).toPBlock = g b.toPBlock) :
    (v.modify p f).toPhys = v.toPhys.modify p g := by
  unfold VmMem.modify PhysMem.modify
  rw [toPhys_set, h]
  rfl

theorem toPhys_relinkPrev (v : VmMem) (p q : ℕ) :
    (v.relinkPrev p q).toPhys = v.toPhys.relinkPrev p q := by
  unfold VmMem.relinkPrev PhysMem.relinkPrev
  split_ifs
  · exact toPhys_modify v p fun b => rfl
  · rfl

theorem toPhys_splitAt (v : VmMem) (curr newblock size : ℕ) :
    (v.splitAt curr newblock size).toPhys =
      v.toPhys.splitAt curr newblock size physUserBlockType := by
  unfold VmMem.splitAt PhysMem.splitAt
  dsimp only
  rw [toPhys_modify (g := fun b => { b with size := size, next := newblock, type := physUserBlockType })
    _ _ fun b => rfl, toPhys_relinkPrev, toPhys_set]
  rfl

theorem toPhys_absorb (v : VmMem) (p q : ℕ) : (v.absorb p q).toPhys = v.toPhys.absorb p q := by
  unfold VmMem.absorb PhysMem.absorb
  dsimp only
  rw [toPhys_relinkPrev, toPhys_modify
    (g := fun b => { b with size := u32 (b.size + (v.node q).size), next := (v.node q).next })
    _ _ fun b => rfl]
  rfl

theorem toPhys_walk (v : VmMem) {test : VmBlock → Bool} {test' : PBlock → Bool}
    (h : ∀ b : VmBlock, test b = test' b.toPBlock) (fuel curr : ℕ) :
    v.walk test fuel curr = v.toPhys.walk test' fuel curr := by
  induction fuel generalizing curr with
  | zero => rfl
  | succ fuel ih =>
    rw [VmMem.walk, PhysMem.walk, h, ih]
    rfl

theorem toPhys_mergeBefore (fuel curr m : ℕ) (s : VmKernel) :
    (kvmMergeBefore fuel curr m s).map (fun r => (r.1, r.2.toPhys)) =
      mergeBefore fuel curr m s.toPhys := by
  induction fuel generalizing curr m s with
  | zero => rfl
  | succ fuel ih =>
    have htype : (s.toPhys.phys.node m).type = physFreeBlockType ↔ (s.vm.node m).status = 0 :=
      toPBlock_type_eq_free
    rw [kvmMergeBefore, mergeBefore]
    by_cases hm : m ≠ 0 ∧ (s.vm.node m).status = 0
    · rw [if_pos hm, if_pos ⟨hm.1, htype.mpr hm.2⟩]
      unfold Kernel.kfree
      dsimp only [VmKernel.toPhys]
      rw [← toPhys_absorb]
      cases kfree curr s.kernel.heap with
      | error e => rfl
      | ok h => exact ih _ _ _
    · rw [if_neg hm, if_neg fun h => hm ⟨h.1, htype.mp h.2⟩]
      rfl

theorem toPhys_mergeAfter (curr fuel m : ℕ) (s : VmKernel) :
    (kvmMergeAfter curr fuel m s).map VmKernel.toPhys = mergeAfter curr fuel m s.toPhys := by
  induction fuel generalizing m s with
  | zero => rfl
  | succ fuel ih =>
    have htype : (s.toPhys.phys.node m).type = physFreeBlockType ↔ (s.vm.node m).status = 0 :=
      toPBlock_type_eq_free
    rw [kvmMergeAfter, mergeAfter]
    by_cases hm : m ≠ 0 ∧ (s.vm.node m).status = 0
    · rw [if_pos hm, if_pos ⟨hm.1, htype.mpr hm.2⟩]
      unfold Kernel.kfree
      dsimp only [VmKernel.toPhys]
      rw [← toPhys_absorb]
      cases kfree m s.kernel.heap with
      | error e => rfl
      | ok h => exact ih _ _
    · rw [if_neg hm, if_neg fun h => hm ⟨h.1, htype.mp h.2⟩]
      rfl

/-! ## The invariant -/

/-- A region, as a block without a header. -/
def vmBlock (r : PRegion) : Block := ⟨r.base, r.size, r.tag ≠ physFreeBlockType⟩

structure VmInv (s : VmKernel) (rs : List PRegion) : Prop where
  phys : PhysInv noStale [] s.toPhys rs
  tiles : Tiles 0 freeKvmStart (rs.map vmBlock) 0xFFFFFFFF
  aligned : ∀ r ∈ rs, 4096 ∣ r.base

theorem VmInv.block_eq {s : VmKernel} {rs : List PRegion} (hi : VmInv s rs) {r : PRegion}
    (hr : r ∈ rs) : s.vm.block r.key = vmBlock r := by
  obtain ⟨hbase, hsize, htag⟩ := hi.phys.data_at hr
  have hfree : (s.vm.node r.key).status = 0 ↔ r.tag = physFreeBlockType := by
    rw [← htag]
    exact toPBlock_type_eq_free.symm
  unfold VmMem.block vmBlock
  rw [← hbase, ← hsize]
  simp only [ne_eq, hfree]
  rfl

theorem VmInv.tiling {s : VmKernel} {rs : List PRegion} (hi : VmInv s rs) :
    VmTiling s.vm (rs.map Region.key) := by
  obtain ⟨q, hq⟩ := hi.phys.listing.linked
  rw [List.append_nil] at hq
  have hnd := hi.phys.listing.nodup
  rw [List.append_nil] at hnd
  refine ⟨hnd, ⟨q, hq⟩, ?_, ?_, ?_⟩
  · intro p hp
    exact hq.inverse hp
  · have hmap : (rs.map Region.key).map s.vm.block = rs.map vmBlock := by
      rw [List.map_map]
      apply List.map_congr_left
      intro r hr
      exact hi.block_eq hr
    rw [hmap]
    exact hi.tiles
  · intro p hp
    obtain ⟨r, hr, rfl⟩ := List.mem_map.mp hp
    have hbase : (s.vm.node r.key).vaddr = r.base := (hi.phys.data_at hr).1
    rw [hbase]
    exact hi.aligned r hr

theorem tiles_total {a e : ℕ} {rs : List PRegion} (h : Tiles 0 a (rs.map vmBlock) e) :
    e = a + total rs := by
  induction rs generalizing a with
  | nil => exact h.symm
  | cons r rs ih =>
    obtain ⟨hbase, h⟩ := h
    have htail := ih h
    simp only [vmBlock, Block.stop] at hbase htail
    rw [total_cons]
    omega

/-- The regions that freeing joins are neighbours. -/
theorem tiles_merged {a e : ℕ} {xs fs gs ys : List PRegion} {r : PRegion}
    (h : Tiles 0 a ((xs ++ fs ++ r :: (gs ++ ys)).map vmBlock) e) :
    Tiles 0 a ((xs ++ merged fs r gs :: ys).map vmBlock) e := by
  have hsplit : xs ++ fs ++ r :: (gs ++ ys) = xs ++ ((fs ++ r :: gs) ++ ys) := by simp
  rw [hsplit, List.map_append, tiles_append, List.map_append] at h
  obtain ⟨m, hx, hrest⟩ := h
  obtain ⟨m', hmid, hy⟩ := tiles_append.mp hrest
  have hm' := tiles_total hmid
  have hbase : (fs.headD r).base = m := by
    cases fs with
    | nil => exact hmid.1
    | cons f fs => exact hmid.1
  have hstop : (vmBlock (merged fs r gs)).stop 0 = m' := by
    simp only [vmBlock, merged, Block.stop, hbase, hm', total_append, total_cons]
    omega
  rw [List.map_append, tiles_append]
  refine ⟨m, hx, hbase, ?_⟩
  rw [hstop]
  exact hy

/-! ## One step -/

theorem VmInv.walk_eq {s : VmKernel} {rs : List PRegion} (hi : VmInv s rs) {test : VmBlock → Bool}
    {test' : PBlock → Bool} {f : PRegion → Bool} (ht : ∀ b : VmBlock, test b = test' b.toPBlock)
    (hf : ∀ b a, test' b = f (b.region a)) :
    s.vm.walk test loopFuel s.vm.firstBlock = .ok ((rs.find? f).map Region.key) := by
  rw [toPhys_walk s.vm ht]
  exact hi.phys.walk_eq hf (by simp)

/-- A free region with room for `size` bytes. -/
def vmAvailable (size : ℕ) (r : PRegion) : Bool := r.tag = physFreeBlockType ∧ ¬ r.size < size

theorem VmInv.walk_available {s : VmKernel} {rs : List PRegion} (hi : VmInv s rs) (size : ℕ) :
    s.vm.walk (VmBlock.available size) loopFuel s.vm.firstBlock =
      .ok ((rs.find? (vmAvailable size)).map Region.key) := by
  apply @VmInv.walk_eq s rs hi _ fun b => b.type = physFreeBlockType ∧ ¬ b.size < size
  · intro b
    simp only [VmBlock.available, toPBlock_type_eq_free]
    rfl
  · intro b a
    rfl

/-- A reservation completes when a block is available and the heap has room. -/
theorem VmInv.reserve_of_room {s : VmKernel} {rs : List PRegion} (hi : VmInv s rs) {size : ℕ} {r : PRegion}
    (hr : r ∈ rs) (hav : vmAvailable (alignup size 4096) r = true) (hroom : s.kernel.heap.Room 32) :
    ∃ a s', kvmReserveBlock 1 size s = .ok (a, s') := by
  have hsome : (rs.find? (vmAvailable (alignup size 4096))).isSome := by
    rw [List.find?_isSome]
    exact ⟨r, hr, hav⟩
  obtain ⟨c, hc⟩ := Option.isSome_iff_exists.mp hsome
  obtain ⟨node, k, hk, -⟩ := kmalloc_of_room (n := 0) hroom
  have hk' : kmalloc 1 sizeofVmBlock s.kernel = .ok (node, k) := hk
  refine ⟨((s.vm.splitAt c.key node (alignup size 4096)).node c.key).vaddr,
    ⟨k, s.vm.splitAt c.key node (alignup size 4096)⟩, ?_⟩
  rw [kvmReserveBlock, hi.walk_available, hc, ok_bind]
  dsimp only [Option.map_some]
  rw [hk', ok_bind]

theorem VmInv.reserve {s s' : VmKernel} {rs : List PRegion} {fuel size a : ℕ} (hi : VmInv s rs)
    (hs : size ≤ 0xFFFFF000) (h : kvmReserveBlock fuel size s = .ok (a, s')) :
    ∃ rs' r, VmInv s' rs' ∧ r ∈ rs' ∧ r.base = a ∧ r.size = alignup size 4096 ∧
      r.tag = physUserBlockType := by
  obtain ⟨hdvd, -, -⟩ := alignup_page hs
  rw [kvmReserveBlock, hi.walk_available, ok_bind] at h
  cases hf : rs.find? (vmAvailable (alignup size 4096)) with
  | none =>
    rw [hf] at h
    cases h
  | some r =>
    rw [hf] at h
    obtain ⟨⟨node, k1⟩, hk1, h⟩ := bind_eq_ok.mp h
    injection h with h
    rw [Prod.mk.injEq] at h
    obtain ⟨ha, rfl⟩ := h
    obtain ⟨hav, xs, ys, rfl, -⟩ := List.find?_eq_some_iff_append.mp hf
    simp only [vmAvailable, decide_eq_true_eq, Nat.not_lt] at hav
    obtain ⟨bs, hh⟩ := hi.phys.heap
    obtain ⟨hnew, hn0, hk1', hkept, hlive, -⟩ := hh.kmalloc_node (k := s.kernel) hk1
    have hcut := hi.phys.cut physUserBlockType hav.1 hav.2 hnew hn0 hkept hlive
    have hr : r ∈ xs ++ r :: ys := by simp
    let phys := s.toPhys.phys.splitAt r.key node (alignup size 4096) physUserBlockType
    have hstate : ({ s.toPhys with heap := k1.heap, phys := phys } : Kernel) =
        VmKernel.toPhys ⟨k1, s.vm.splitAt r.key node (alignup size 4096)⟩ := by
      unfold VmKernel.toPhys
      dsimp only
      rw [toPhys_splitAt, hk1']
      rfl
    rw [hstate] at hcut
    refine ⟨_, r.cut (alignup size 4096) physUserBlockType, ⟨hcut, ?_, ?_⟩, by simp, ?_, rfl, rfl⟩
    · have htiles := hi.tiles
      rw [List.map_append, List.map_cons] at htiles ⊢
      refine htiles.split rfl rfl ?_
      simp only [vmBlock, Block.stop, Region.rest_base, Region.rest_size]
      omega
    · have := forall_replace (fun s => 4096 ∣ s.base) xs [r]
        [r.cut (alignup size 4096) physUserBlockType,
          r.rest (alignup size 4096) node physFreeBlockType] ys (by simpa using hi.aligned)
        (by
          have hbase := hi.aligned r hr
          simpa [hbase] using (Nat.dvd_add_right hbase).mpr hdvd)
      simpa using this
    · have hdata := hcut.data_at (r := r.cut (alignup size 4096) physUserBlockType) (by simp)
      rw [← ha]
      exact hdata.1.symm

theorem VmInv.free {s s' : VmKernel} {rs : List PRegion} {a : ℕ} (hi : VmInv s rs)
    (h : kvmFreeBlock a s = .ok s') : ∃ rs', VmInv s' rs' := by
  have hwalk := @VmInv.walk_eq s rs hi (fun b => b.vaddr = a) (fun b => b.baseAddr = a)
    (fun r => r.base = a) (fun b => rfl) fun b a => rfl
  rw [kvmFreeBlock, hwalk, ok_bind] at h
  cases hf : rs.find? (fun r => r.base = a) with
  | none =>
    rw [hf] at h
    cases h
  | some r =>
    rw [hf] at h
    obtain ⟨-, xs0, ys0, rfl, -⟩ := List.find?_eq_some_iff_append.mp hf
    have hr : r ∈ xs0 ++ r :: ys0 := by simp
    have htag : Movable r.tag := by
      rw [← (hi.phys.data_at hr).2.2]
      unfold VmKernel.toPhys VmMem.toPhys VmBlock.toPBlock Movable
      dsimp only
      split_ifs
      · exact Or.inl rfl
      · exact Or.inr (Or.inr rfl)
    have hlen := hi.phys.length_lt
    rw [List.append_nil, List.length_append, List.length_cons] at hlen
    let r0 : PRegion := { r with tag := physFreeBlockType }
    let s0 : VmKernel := ⟨s.kernel, s.vm.modify r.key fun b => { b with status := 0 }⟩
    have hmark : PhysInv noStale [] s0.toPhys (xs0 ++ r0 :: ys0) := by
      have hstate : s0.toPhys = { s.toPhys with
          phys := s.toPhys.phys.modify r.key fun b => { b with type := physFreeBlockType } } := by
        unfold VmKernel.toPhys
        dsimp only [s0]
        rw [toPhys_modify (g := fun b => { b with type := physFreeBlockType }) _ _ fun b => rfl]
      rw [hstate]
      exact hi.phys.markFree htag
    obtain ⟨⟨c, s1⟩, hs1, h⟩ := bind_eq_ok.mp h
    obtain ⟨k1, xs, fs, rfl, hfs, -, hrun1, hi1, -⟩ :=
      mergeBefore_spec loopFuel hmark rfl (by omega)
    have hsim := toPhys_mergeBefore loopFuel r.key (s0.vm.node r.key).prev s0
    have hrun1' : mergeBefore loopFuel r.key (s0.vm.node r.key).prev s0.toPhys =
        .ok ((merged fs r0 []).key, k1) := hrun1
    have hs1' : kvmMergeBefore loopFuel r.key (s0.vm.node r.key).prev s0 = .ok (c, s1) := hs1
    rw [hs1', hrun1', Except.map] at hsim
    injection hsim with hsim
    rw [Prod.mk.injEq] at hsim
    obtain ⟨rfl, rfl⟩ := hsim
    obtain ⟨k2, gs, ys, rfl, hgs, -, hrun2, hi2, -⟩ :=
      mergeAfter_spec loopFuel hi1 rfl (by omega)
    have hsim2 := toPhys_mergeAfter (merged fs r0 []).key loopFuel
      (s1.vm.node (merged fs r0 []).key).next s1
    have hrun2' : mergeAfter (merged fs r0 []).key loopFuel
        (s1.vm.node (merged fs r0 []).key).next s1.toPhys = .ok k2 := hrun2
    have h' : kvmMergeAfter (merged fs r0 []).key loopFuel
        (s1.vm.node (merged fs r0 []).key).next s1 = .ok s' := h
    rw [h', hrun2', Except.map] at hsim2
    injection hsim2 with hsim2
    subst hsim2
    have hm : merged [] (merged fs r0 []) gs = merged fs r gs := by
      cases fs <;> simp [merged, total, r0]
    rw [hm] at hi2
    refine ⟨_, hi2, tiles_merged hi.tiles, ?_⟩
    have hhead : fs.headD r ∈ xs ++ fs ++ r :: (gs ++ ys) := by
      cases fs with
      | nil => simp
      | cons f fs => simp
    have := forall_replace (fun s => 4096 ∣ s.base) xs (fs ++ r :: gs) [merged fs r gs] ys
      (by simpa using hi.aligned) (by
        rw [List.forall_mem_singleton]
        exact hi.aligned (fs.headD r) hhead)
    simpa using this

theorem VmInv.heap {s : VmKernel} {k : Kernel} {rs : List PRegion} (hi : VmInv s rs)
    (hs : HeapStep s.kernel k) (hl : ∀ ps, VmTiling s.vm ps → ∀ p ∈ ps, p ∈ k.heap.live) :
    VmInv { s with kernel := k } rs where
  phys := by
    obtain ⟨bs, hh⟩ := hi.phys.heap
    refine ⟨hs.inv hh, hi.phys.listing, ?_, hi.phys.ascending, hi.phys.bounded, by simp,
      hi.phys.back⟩
    intro r hr
    rw [List.append_nil] at hr
    exact hl _ hi.tiling r.key (List.mem_map_of_mem hr)
  tiles := hi.tiles
  aligned := hi.aligned

theorem VmInv.step {s s' : VmKernel} {ret ret' : List ℕ} {rs : List PRegion} (hi : VmInv s rs)
    (h : VmStep (s, ret) (s', ret')) : ∃ rs', VmInv s' rs' := by
  cases h with
  | reserve hs h =>
    obtain ⟨rs', r, hi', -⟩ := hi.reserve hs h
    exact ⟨rs', hi'⟩
  | free _ h => exact hi.free h
  | heap hs hl => exact ⟨rs, hi.heap hs hl⟩

/-! ## Whole runs -/

theorem vmInv_kvmheapInstall {k : Kernel} {node : ℕ → VmBlock} {fuel : ℕ} {s : VmKernel}
    (hr : HeapReachable k) (h : kvmheapInstall fuel k node = .ok s) :
    VmInv s [⟨s.vm.firstBlock, freeKvmStart, 0xFFFFFFFF - freeKvmStart, physFreeBlockType⟩] := by
  obtain ⟨⟨p, k1⟩, hk1, h⟩ := bind_eq_ok.mp h
  injection h with h
  subst h
  obtain ⟨bs, hh⟩ := hr.inv
  obtain ⟨-, hp0, hk1', hkept, hlive, -⟩ := hh.kmalloc_node hk1
  refine ⟨⟨hkept.inv, ?_, ?_, by simp [Ascending], ?_, by simp, ?_⟩, ?_, ?_⟩
  · refine ⟨⟨p, ?_⟩, by simp, ?_⟩
    · simp [Seg, VmKernel.toPhys, VmMem.toPhys, VmMem.set, PhysMem.links, VmBlock.toPBlock, hp0]
    · simp [VmKernel.toPhys, VmMem.toPhys, VmMem.set, VmBlock.toPBlock, PBlock.region]
  · simp [VmKernel.toPhys, VmMem.set, hlive]
  · rw [List.forall_mem_singleton]
    intro _
    unfold Region.stop freeKvmStart
    dsimp only
    omega
  · intro q hq
    exact absurd hq id
  · rw [List.map_singleton, Tiles, Tiles]
    unfold vmBlock Block.stop freeKvmStart
    dsimp only
    exact ⟨rfl, by omega⟩
  · rw [List.forall_mem_singleton]
    unfold freeKvmStart
    dsimp only
    omega

theorem VmInv.run {s0 s : VmKernel} {ret0 ret : List ℕ} {rs0 : List PRegion} (hi : VmInv s0 rs0)
    (hrun : Relation.ReflTransGen VmStep (s0, ret0) (s, ret)) : ∃ rs, VmInv s rs := by
  generalize hs : (s, ret) = t at hrun
  induction hrun generalizing s ret with
  | refl =>
    injection hs with hs
    rw [hs]
    exact ⟨rs0, hi⟩
  | @tail t1 t2 _ hstep ih =>
    obtain ⟨s1, ret1⟩ := t1
    subst hs
    obtain ⟨rs1, hi1⟩ := ih rfl
    exact hi1.step hstep

/-- In every run the blocks tile the range, and a reservation that returns leaves them
tiling the range with a block of its own for the caller. -/
theorem kvm_blocks_tile {k0 : Kernel} {node : ℕ → VmBlock} {fuel0 : ℕ} {s0 s : VmKernel} {ret : List ℕ}
    (hr : HeapReachable k0) (h0 : kvmheapInstall fuel0 k0 node = .ok s0)
    (hrun : Relation.ReflTransGen VmStep (s0, []) (s, ret)) :
    (∃ ps, VmTiling s.vm ps) ∧
    ∀ fuel size a s', size ≤ 0xFFFFF000 → kvmReserveBlock fuel size s = .ok (a, s') →
      ∃ ps p, VmTiling s'.vm ps ∧ VmReserved size a s'.vm ps p := by
  obtain ⟨rs, hi⟩ := (vmInv_kvmheapInstall hr h0).run hrun
  refine ⟨⟨_, hi.tiling⟩, ?_⟩
  intro fuel size a s' hs h
  obtain ⟨rs', r, hi', hmem, hbase, hsize, htag⟩ := hi.reserve hs h
  have hdata : ∀ t ∈ rs', (s'.vm.node t.key).vaddr = t.base ∧ (s'.vm.node t.key).size = t.size ∧
      ((s'.vm.node t.key).status = 0 ↔ t.tag = physFreeBlockType) := by
    intro t ht
    obtain ⟨h1, h2, h3⟩ := hi'.phys.data_at ht
    refine ⟨h1, h2, ?_⟩
    rw [← h3]
    exact toPBlock_type_eq_free.symm
  obtain ⟨hvaddr, hnsize, hstatus⟩ := hdata r hmem
  refine ⟨_, r.key, hi'.tiling, List.mem_map_of_mem hmem, ?_, hvaddr.trans hbase, ?_, ?_, ?_⟩
  · intro h0
    have hfree := hstatus.mp h0
    rw [htag] at hfree
    cases hfree
  · rw [← hbase]
    exact hi'.aligned r hmem
  · rw [hnsize, hsize]
    exact (alignup_page hs).2.1
  · intro q hq hne _
    obtain ⟨t, ht, rfl⟩ := List.mem_map.mp hq
    obtain ⟨htv, hts, -⟩ := hdata t ht
    rw [htv, hts, hnsize, ← hbase]
    apply hi'.phys.ascending.apart ht hmem
    intro heq
    exact hne (by rw [heq])

/-- One page reserved in a new list. -/
theorem kvm_blocks_tile_one_page : ∃ s s' a, kvmheapInstall 1 installedKernel (fun _ => ⟨0, 0, 0, 0, 0⟩) = .ok s ∧
    kvmReserveBlock 1 4096 s = .ok (a, s') ∧ ∃ ps, VmTiling s'.vm ps := by
  have hk := kmalloc_installed 0 sizeofVmBlock (by decide)
  obtain ⟨s, hs⟩ : ∃ s, kvmheapInstall 1 installedKernel (fun _ => ⟨0, 0, 0, 0, 0⟩) = .ok s := by
    rw [kvmheapInstall, hk, ok_bind]
    exact ⟨_, rfl⟩
  have hi := vmInv_kvmheapInstall heapReachable_installedKernel hs
  have hroom : s.kernel.heap.Room 32 := by
    rw [kvmheapInstall, hk, ok_bind] at hs
    injection hs with hs
    rw [← hs]
    exact room_oneBlockKernel.mono (by decide)
  obtain ⟨a, s', hrun⟩ := @VmInv.reserve_of_room _ _ hi 4096 _ List.mem_cons_self
    (by simp [alignup_of_dvd, vmAvailable, freeKvmStart]) hroom
  obtain ⟨htiles, -⟩ := kvm_blocks_tile heapReachable_installedKernel hs
    (Relation.ReflTransGen.single (.reserve (by decide) hrun))
  exact ⟨s, s', a, hs, hrun, htiles⟩

end VkKernel
