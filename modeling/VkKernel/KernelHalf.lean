import VkKernel.HeapGrowth
import VkKernel.PageMapping

/-!
# The kernel half

`get_kernel_pd_clone` copies the kernel half of the kernel page directory once. It stays the same
in all directories as long as nothing is mapped in the kernel half while one of them is in use; a
heap that grows maps other frames in each of them.
-/

namespace VkKernel
open Outcome

/-! ## Calls -/

/-- The calls that map and unmap a range of a directory. -/
inductive RangeCall
  | mapMemory (n size virt : ℕ)
  | mapMemoryIfNotMapped (n size virt : ℕ)
  | mapFlexible (size physical virt : ℕ)
  | unmapFlexible (size virt : ℕ)
  | unmapMemoryIfMapped (size virt : ℕ)
deriving DecidableEq, Repr

namespace RangeCall

def size : RangeCall → ℕ
  | mapMemory _ size _ | mapMemoryIfNotMapped _ size _ | mapFlexible size _ _
  | unmapFlexible size _ | unmapMemoryIfMapped size _ => size

def virt : RangeCall → ℕ
  | mapMemory _ _ virt | mapMemoryIfNotMapped _ _ virt | mapFlexible _ _ virt
  | unmapFlexible _ virt | unmapMemoryIfMapped _ virt => virt

def run : RangeCall → ℕ → Kernel → Result Kernel
  | mapMemory n size virt, d, k => VkKernel.mapMemory (kmalloc n) size virt d k
  | mapMemoryIfNotMapped n size virt, d, k => VkKernel.mapMemoryIfNotMapped (kmalloc n) size virt d k
  | mapFlexible size physical virt, d, k => do
    let g ← VkKernel.mapFlexible size physical virt d k.paging
    .ok { k with paging := g }
  | unmapFlexible size virt, d, k => do
    let g ← VkKernel.unmapFlexible size virt d k.paging
    .ok { k with paging := g }
  | unmapMemoryIfMapped size virt, d, k => do
    let g ← VkKernel.unmapMemoryIfMapped size virt d k.paging
    .ok { k with paging := g }

def unmaps : RangeCall → Bool
  | unmapFlexible _ _ | unmapMemoryIfMapped _ _ => true
  | mapMemory _ _ _ | mapMemoryIfNotMapped _ _ _ | mapFlexible _ _ _ => false

/-- The pages of the range are in the user half. -/
def InUserHalf (c : RangeCall) : Prop :=
  aligndown c.virt 4096 + rangeSize c.size c.virt ≤ kernelVirtualBase

end RangeCall

/-- `pd_switch` -/
def pdSwitch (pd : ℕ) (g : Paging) : Paging := { g with currentPageDirectory := pd }

/-- What happens to the memory of the kernel and its processes. -/
inductive HalfCall
  | getKernelPdClone
  | user (c : RangeCall) (d : ℕ)
  | kernel (c : RangeCall)
  | kmalloc (size : ℕ)
  | krealloc (p size : ℕ)
  | kfree (p : ℕ)
  | write (p : ℕ)
  | pdSwitch (d : ℕ)
  | ptFree (d : ℕ)
  | other
deriving DecidableEq, Repr

/-- One completed call. The list has the directories that come from `get_kernel_pd_clone` and are
in use: those of the processes, and any that `copy_adress_space` is building. `exit_process` frees
the directory of the process. -/
inductive HalfStep : HalfCall → Kernel × List ℕ → Kernel × List ℕ → Prop
  | getKernelPdClone {k : Kernel} {ds : List ℕ} {d : ℕ} {g : Paging} :
      getKernelPdClone k.paging = .ok (d, g) →
      HalfStep .getKernelPdClone (k, ds) ({ k with paging := g }, d :: ds)
  | user {k k' : Kernel} {ds : List ℕ} {c : RangeCall} {d : ℕ} : d ∈ ds → c.run d k = .ok k' →
      HalfStep (.user c d) (k, ds) (k', ds)
  | kernel {k k' : Kernel} {ds : List ℕ} {c : RangeCall} :
      c.run k.paging.kernelPageDirectory k = .ok k' → HalfStep (.kernel c) (k, ds) (k', ds)
  | kmalloc {k k' : Kernel} {ds : List ℕ} {n size p : ℕ} : size ≤ 0xFFFFFFFC →
      kmalloc n size k = .ok (p, k') → HalfStep (.kmalloc size) (k, ds) (k', ds)
  | krealloc {k k' : Kernel} {ds : List ℕ} {n p size np : ℕ} : p ∈ k.heap.live →
      size ≤ 0xFFFFFFFC → krealloc n p size k = .ok (np, k') →
      HalfStep (.krealloc p size) (k, ds) (k', ds)
  | kfree {k k' : Kernel} {ds : List ℕ} {p : ℕ} : p ∈ k.heap.live → k.kfree p = .ok k' →
      HalfStep (.kfree p) (k, ds) (k', ds)
  | write {k : Kernel} {ds : List ℕ} {p x : ℕ} {v : UInt8} : p ∈ k.heap.live → p ≤ x →
      x < p + k.heap.size (p - 8) →
      HalfStep (.write p) (k, ds)
        ({ k with heap := { k.heap with mem := Function.update k.heap.mem x v } }, ds)
  | pdSwitch {k : Kernel} {ds : List ℕ} {d : ℕ} :
      HalfStep (.pdSwitch d) (k, ds) ({ k with paging := VkKernel.pdSwitch d k.paging }, ds)
  | ptFree {k : Kernel} {ds : List ℕ} {d : ℕ} : d ∈ ds →
      HalfStep (.ptFree d) (k, ds) ({ k with paging := VkKernel.ptFree d k.paging }, ds.erase d)
  | other {k k' : Kernel} {ds : List ℕ} : k'.heap = k.heap → k'.paging = k.paging →
      HalfStep .other (k, ds) (k', ds)

/-- Nothing is mapped in the kernel half while a directory is in use: an allocation finds a block
without growing the heap, or there is no directory, and a range of a directory is in its user
half. -/
def HalfCall.Harmless : HalfCall → Kernel × List ℕ → Prop
  | .kmalloc size, (k, ds) | .krealloc _ size, (k, ds) =>
    ds = [] ∨ ∃ r, kmallocScan k.heap (alignup size 4) loopFuel kheapBaseStart = .ok (some r)
  | .kernel _, (_, ds) => ds = []
  | .user c _, _ => c.InUserHalf
  | _, _ => True

/-- The runs from a kernel without directories of processes. -/
def HalfRun (k0 : Kernel) (s : Kernel × List ℕ) : Prop :=
  Relation.ReflTransGen (fun s s' => ∃ c, HalfStep c s s') (k0, []) s

/-- The runs whose steps all leave the kernel half alone while a directory is in use. -/
def HarmlessRun (k0 : Kernel) (s : Kernel × List ℕ) : Prop :=
  Relation.ReflTransGen (fun s s' => ∃ c, HalfStep c s s' ∧ c.Harmless s) (k0, []) s

/-- Every address of the kernel half has the same frame in all directories, for `get_physical` and
for the processor. -/
def OneKernelHalf (s : Kernel × List ℕ) : Prop :=
  ∀ d ∈ s.2, ∀ virt, kernelVirtualBase ≤ virt → virt < 2 ^ 32 →
    getPhysical virt d s.1.paging = getPhysical virt s.1.paging.kernelPageDirectory s.1.paging ∧
    s.1.paging.translate virt d = s.1.paging.translate virt s.1.paging.kernelPageDirectory

/-! ## Ranges -/

/-- One page or one 4 MiB page of a range. -/
inductive PageStep (virt d : ℕ) (g g' : Paging) : Prop
  | mapPageTable (phys : ℕ) : VkKernel.mapPageTable phys virt d g = .ok g' → PageStep virt d g g'
  | mapPage (phys : ℕ) : VkKernel.mapPage phys virt d g = .ok g' → PageStep virt d g g'
  | unmapPageTable : VkKernel.unmapPageTable virt d g = .ok g' → PageStep virt d g g'
  | unmapPage : VkKernel.unmapPage virt d g = .ok g' → PageStep virt d g g'

/-- The loops over a range. -/
theorem forRange_rule (P : Paging → Prop) {large small : ℕ → Paging → Result Paging} {size virt : ℕ}
    {g g' : Paging} (hlarge : ∀ add < size, ∀ g1 g2, P g1 → large add g1 = .ok g2 → P g2)
    (hsmall : ∀ add < size, ∀ g1 g2, P g1 → small add g1 = .ok g2 → P g2) (h0 : P g)
    (hr : forRange large small size virt g = .ok g') : P g' := by
  have hloop : ∀ {step n add : ℕ} {f : ℕ → Paging → Result Paging} {g0 g1 : Paging},
      (∀ i < n, add + i * step < size) →
      (∀ add < size, ∀ g1 g2, P g1 → f add g1 = .ok g2 → P g2) → P g0 →
      stepLoop step f n add g0 = .ok g1 → P g1 := by
    intro step n add f g0 g1 hbelow hf h0 hr1
    have hrule : Holds (stepLoop step f n add g0) P fun _ => True := by
      refine stepLoop_rule (fun _ => P) (fun i hi g1 h1 => ?_) h0
      cases hstep : f (add + i * step) g1 with
      | error e => trivial
      | ok g2 => exact hf _ (hbelow i hi) g1 g2 h1 hstep
    exact hrule.of_ok hr1
  have hpages : largePages size virt * 0x400000 ≤ size := by
    unfold largePages
    split_ifs
    · exact (Nat.div_mul_le_self _ _).trans (Nat.sub_le _ _)
    · rw [Nat.zero_mul]
      exact Nat.zero_le _
  obtain ⟨g1, hg1, hr⟩ := bind_eq_ok.mp hr
  have h1 := hloop (fun i hi => by omega) hlarge h0 hg1
  exact hloop (fun i hi => by omega) hsmall h1 hr

/-- What the pages that it maps or unmaps keep is kept by a call. -/
theorem RangeCall.run_pages (P : Paging → Prop) {c : RangeCall} {d : ℕ} {k k' : Kernel}
    (hmap : c.unmaps = false → ∀ add < rangeSize c.size c.virt, ∀ phys g1 g2, P g1 →
      (VkKernel.mapPageTable phys (u32 (aligndown c.virt 4096 + add)) d g1 = .ok g2 ∨
        VkKernel.mapPage phys (u32 (aligndown c.virt 4096 + add)) d g1 = .ok g2) → P g2)
    (hunmap : c.unmaps = true → ∀ add < rangeSize c.size c.virt, ∀ g1 g2, P g1 →
      (VkKernel.unmapPageTable (u32 (aligndown c.virt 4096 + add)) d g1 = .ok g2 ∨
        VkKernel.unmapPage (u32 (aligndown c.virt 4096 + add)) d g1 = .ok g2) → P g2)
    (h0 : P k.paging) (hheap : ∃ bs, HeapInv k.heap bs) (hr : c.run d k = .ok k') :
    P k'.paging ∧ ∃ bs, HeapInv k'.heap bs := by
  have hlarge : c.unmaps = false → ∀ phys : ℕ → ℕ, ∀ add < rangeSize c.size c.virt, ∀ g1 g2, P g1 →
      VkKernel.mapPageTable (phys add) (u32 (aligndown c.virt 4096 + add)) d g1 = .ok g2 → P g2 :=
    fun hc phys add hadd g1 g2 h1 h2 => hmap hc add hadd _ g1 g2 h1 (.inl h2)
  have hsmall : c.unmaps = false → ∀ phys : ℕ → ℕ, ∀ add < rangeSize c.size c.virt, ∀ g1 g2, P g1 →
      VkKernel.mapPage (phys add) (u32 (aligndown c.virt 4096 + add)) d g1 = .ok g2 → P g2 :=
    fun hc phys add hadd g1 g2 h1 h2 => hmap hc add hadd _ g1 g2 h1 (.inr h2)
  have hunlarge : c.unmaps = true → ∀ add < rangeSize c.size c.virt, ∀ g1 g2, P g1 →
      VkKernel.unmapPageTable (u32 (aligndown c.virt 4096 + add)) d g1 = .ok g2 → P g2 :=
    fun hc add hadd g1 g2 h1 h2 => hunmap hc add hadd g1 g2 h1 (.inl h2)
  have hunsmall : c.unmaps = true → ∀ add < rangeSize c.size c.virt, ∀ g1 g2, P g1 →
      VkKernel.unmapPage (u32 (aligndown c.virt 4096 + add)) d g1 = .ok g2 → P g2 :=
    fun hc add hadd g1 g2 h1 h2 => hunmap hc add hadd g1 g2 h1 (.inr h2)
  -- the pages that are skipped
  have hite : ∀ {p : Bool} {r r' : Result Paging} {g2 : Paging}, (∀ g, r = .ok g → P g) →
      (∀ g, r' = .ok g → P g) → (if p then r else r') = .ok g2 → P g2 := by
    intro p r r' g2 h h' hr
    split_ifs at hr
    · exact h g2 hr
    · exact h' g2 hr
  have hskip : ∀ {g1 : Paging}, P g1 → ∀ g, Except.ok (ε := Stop) g1 = .ok g → P g :=
    fun h1 g hg => Except.ok.inj hg ▸ h1
  obtain ⟨bs, hi⟩ := hheap
  cases c with
  | mapMemory n size virt =>
    obtain ⟨⟨phys, k1⟩, hres, hr⟩ := bind_eq_ok.mp hr
    obtain ⟨hg, hheap⟩ := hi.reserveBlock_paging hres
    obtain ⟨g, hg', hr⟩ := bind_eq_ok.mp hr
    injection hr with hr
    subst hr
    rw [hg] at hg'
    exact ⟨forRange_rule P (hlarge rfl _) (hsmall rfl _) h0 hg', hheap⟩
  | mapMemoryIfNotMapped n size virt =>
    obtain ⟨⟨phys, k1⟩, hres, hr⟩ := bind_eq_ok.mp hr
    obtain ⟨hg, hheap⟩ := hi.reserveBlock_paging hres
    obtain ⟨g, hg', hr⟩ := bind_eq_ok.mp hr
    injection hr with hr
    subst hr
    rw [hg] at hg'
    refine ⟨forRange_rule P ?_ ?_ h0 hg', hheap⟩
    · intro add hadd g1 g2 h1
      exact hite (hskip h1) fun g => hlarge rfl (fun add => u32 (phys + add)) add hadd g1 g h1
    · intro add hadd g1 g2 h1
      exact hite (hskip h1) fun g => hsmall rfl (fun add => u32 (phys + add)) add hadd g1 g h1
  | mapFlexible size physical virt =>
    obtain ⟨g, hg, hr⟩ := bind_eq_ok.mp hr
    injection hr with hr
    subst hr
    exact ⟨forRange_rule P (hlarge rfl _) (hsmall rfl _) h0 hg, bs, hi⟩
  | unmapFlexible size virt =>
    obtain ⟨g, hg, hr⟩ := bind_eq_ok.mp hr
    injection hr with hr
    subst hr
    exact ⟨forRange_rule P (hunlarge rfl) (hunsmall rfl) h0 hg, bs, hi⟩
  | unmapMemoryIfMapped size virt =>
    obtain ⟨g, hg, hr⟩ := bind_eq_ok.mp hr
    injection hr with hr
    subst hr
    refine ⟨forRange_rule P ?_ ?_ h0 hg, bs, hi⟩
    · exact fun add hadd g1 g2 h1 => hite (fun g => hunlarge rfl add hadd g1 g h1) (hskip h1)
    · exact fun add hadd g1 g2 h1 => hite (fun g => hunsmall rfl add hadd g1 g h1) (hskip h1)

/-- What every page of its range keeps is kept by a call. -/
theorem RangeCall.run_rule (P : Paging → Prop) {c : RangeCall} {d : ℕ} {k k' : Kernel}
    (hpage : ∀ add < rangeSize c.size c.virt, ∀ g1 g2, P g1 →
      PageStep (u32 (aligndown c.virt 4096 + add)) d g1 g2 → P g2)
    (h0 : P k.paging) (hheap : ∃ bs, HeapInv k.heap bs) (hr : c.run d k = .ok k') :
    P k'.paging ∧ ∃ bs, HeapInv k'.heap bs := by
  refine run_pages P (fun _ add hadd phys g1 g2 h1 hp => ?_) (fun _ add hadd g1 g2 h1 hp => ?_)
    h0 hheap hr
  · exact hpage add hadd g1 g2 h1 (hp.elim (.mapPageTable phys) (.mapPage phys))
  · exact hpage add hadd g1 g2 h1 (hp.elim .unmapPageTable .unmapPage)

/-- No page moves the kernel page directory. -/
theorem PageStep.kernelPageDirectory {virt d : ℕ} {g g' : Paging} (h : PageStep virt d g g') :
    g'.kernelPageDirectory = g.kernelPageDirectory := by
  cases h with
  | mapPageTable phys hr => exact ((mapPageTable_keepsSlots phys virt d g).of_ok hr).kernel
  | mapPage phys hr => exact ((mapPage_keepsSlots phys virt d g).of_ok hr).kernel
  | unmapPageTable hr =>
    rw [VkKernel.unmapPageTable] at hr
    dsimp only at hr
    split_ifs at hr <;> cases hr <;> rfl
  | unmapPage hr =>
    rw [VkKernel.unmapPage] at hr
    dsimp only at hr
    split_ifs at hr <;> cases hr <;> rfl

/-! ## The user half -/

/-- The entries of the kernel half. -/
def halfWord (kd : ℕ) (ds : List ℕ) (a : ℕ) : Prop :=
  ∃ d ∈ kd :: ds, ∃ j, 768 ≤ j ∧ j < 1024 ∧ a = d + 4 * j

section Ranges
variable {keep : ℕ → Prop} {ds : List ℕ} {g g' : Paging} {d : ℕ}

/-- A change of the paging structures that leaves the words to keep alone. -/
def KeepsSpaces (keep : ℕ → Prop) (ds : List ℕ) (g g' : Paging) : Prop :=
  Spaces True keep ds g' ∧ PagingFrame keep g g'

/-- The directory entries and the words to keep are in the kernel half. -/
theorem Spaces.high (h : Spaces True keep ds g) (hkeep : ∀ b, keep b → kernelVirtualBase ≤ b) {b : ℕ}
    (hb : userEntry ds b ∨ keep b) : kernelVirtualBase ≤ b := by
  rcases hb with ⟨c, hc, j, hj, rfl⟩ | hb
  · obtain ⟨i, hi, rfl, -⟩ := h.dirs c hc
    unfold slotAddr kpheapVirtBase kernelVirtualBase
    omega
  · exact hkeep b hb

/-- A page of the user half. -/
theorem Spaces.page_keeps (h : Spaces True keep ds g) (hkeep : ∀ b, keep b → kernelVirtualBase ≤ b)
    (hd : d ∈ ds) {virt : ℕ} (hv : virt < kernelVirtualBase) (hp : PageStep virt d g g') :
    KeepsSpaces keep ds g g' := by
  cases hp with
  | mapPageTable phys hr =>
    obtain ⟨ht, hf⟩ := h.tables.mapPageTable (fun b hb => h.high hkeep hb) (userEntry_of_mem hd hv) hr
    exact ⟨h.of_frame ht hf, hf⟩
  | mapPage phys hr =>
    obtain ⟨-, hs, hf, -⟩ := h.mapPage hd hv hr
    exact ⟨hs, hf⟩
  | unmapPageTable hr =>
    obtain ⟨ht, hf⟩ := h.tables.unmapPageTable (userEntry_of_mem hd hv) hr
    exact ⟨h.of_frame ht hf, hf⟩
  | unmapPage hr =>
    obtain ⟨hs, hf, -⟩ := h.unmapPage hd hv hr
    exact ⟨hs, hf⟩

/-- The calls on the user half of a directory leave the words to keep alone. -/
theorem RangeCall.run_keeps {k k' : Kernel} {c : RangeCall} (h : Spaces True keep ds k.paging)
    (hkeep : ∀ b, keep b → kernelVirtualBase ≤ b) (hheap : ∃ bs, HeapInv k.heap bs) (hd : d ∈ ds)
    (hu : c.InUserHalf) (hr : c.run d k = .ok k') :
    KeepsSpaces keep ds k.paging k'.paging ∧ ∃ bs, HeapInv k'.heap bs := by
  refine run_rule (KeepsSpaces keep ds k.paging) (fun add hadd g1 g2 h1 hp => ?_) ⟨h, .refl _ _⟩ hheap hr
  have hlt : aligndown c.virt 4096 + add < kernelVirtualBase := lt_of_lt_of_le (by omega) hu
  have hv : u32 (aligndown c.virt 4096 + add) = aligndown c.virt 4096 + add := by
    unfold kernelVirtualBase at hlt
    exact u32_of_lt (by omega)
  rw [hv] at hp
  obtain ⟨h2, hf2⟩ := h1.1.page_keeps hkeep hd hlt hp
  exact ⟨h2, h1.2.trans hf2⟩

end Ranges

/-! ## The invariant -/

/-- The directories in use have copies of the kernel half, and their tables are apart from it. -/
structure HalfInv (k : Kernel) (ds : List ℕ) : Prop where
  heap : ∃ bs, HeapInv k.heap bs
  image : kernelVirtualBase ≤ k.paging.kernelPageDirectory ∧
    k.paging.kernelPageDirectory + 4096 ≤ kpheapVirtBase
  nodup : ds.Nodup
  spaces : Spaces True (halfWord k.paging.kernelPageDirectory ds) ds k.paging
  copies : ∀ d ∈ ds, ∀ j, 768 ≤ j → j < 1024 →
    k.paging.word (d + 4 * j) = k.paging.word (k.paging.kernelPageDirectory + 4 * j)

variable {k k' : Kernel} {ds : List ℕ} {d : ℕ}

/-- The lookups of the kernel half begin at the copies. -/
theorem HalfInv.oneKernelHalf (h : HalfInv k ds) : OneKernelHalf (k, ds) := by
  intro d hd virt hv hv'
  have hlt : pdIndex virt < 1024 := by
    unfold pdIndex
    omega
  have hentry := h.copies d hd (pdIndex virt) (kernelVirtualBase_le_of_pdIndex hv) hlt
  unfold getPhysical Paging.translate
  dsimp only
  rw [hentry]
  exact ⟨rfl, rfl⟩

theorem HalfInv.high (h : HalfInv k ds) {b : ℕ} (hb : halfWord k.paging.kernelPageDirectory ds b) :
    kernelVirtualBase ≤ b := by
  obtain ⟨c, hc, j, -, -, rfl⟩ := hb
  rcases List.mem_cons.mp hc with rfl | hc
  · exact h.image.1.trans (Nat.le_add_right _ _)
  · obtain ⟨i, -, rfl, -⟩ := h.spaces.dirs c hc
    unfold slotAddr kpheapVirtBase kernelVirtualBase
    omega

/-- Without a directory only the place of the kernel page directory matters. -/
theorem HalfInv.of_empty (hheap : ∃ bs, HeapInv k.heap bs)
    (himage : kernelVirtualBase ≤ k.paging.kernelPageDirectory ∧
      k.paging.kernelPageDirectory + 4096 ≤ kpheapVirtBase) : HalfInv k [] := by
  have hnone : ∀ a, ¬userEntry [] a := by
    rintro a ⟨c, hc, -⟩
    cases hc
  refine ⟨hheap, himage, List.nodup_nil, ⟨by simp, ?_, ?_, ?_, ?_⟩, by simp⟩
  · rintro a (ha | ⟨c, hc, j, hj, hj', rfl⟩) i hi hfree
    · exact absurd ha (hnone a)
    · -- the image is below the page heap
      rw [List.mem_singleton.mp hc]
      unfold OffSlot slotAddr
      omega
  · exact fun a ha => absurd ha (hnone a)
  · exact fun a b i ha => absurd ha (hnone a)
  · exact fun a ha => absurd ha (hnone a)

/-- A change that leaves the entries of the kernel half alone. -/
theorem HalfInv.of_keeps (h : HalfInv k ds)
    (hk : KeepsSpaces (halfWord k.paging.kernelPageDirectory ds) ds k.paging k'.paging)
    (hheap : ∃ bs, HeapInv k'.heap bs) : HalfInv k' ds := by
  obtain ⟨hs, hf⟩ := hk
  have hkd := hf.kernel
  refine ⟨hheap, hkd ▸ h.image, h.nodup, hkd ▸ hs, fun c hc j hj hj' => ?_⟩
  rw [hkd, hf.words _ ⟨c, List.mem_cons_of_mem _ hc, j, hj, hj', rfl⟩,
    hf.words _ ⟨_, List.mem_cons_self, j, hj, hj', rfl⟩]
  exact h.copies c hc j hj hj'

theorem HalfInv.of_paging (h : HalfInv k ds) (hg : k'.paging = k.paging)
    (hheap : ∃ bs, HeapInv k'.heap bs) : HalfInv k' ds :=
  h.of_keeps ⟨hg ▸ h.spaces, hg ▸ .refl _ _⟩ hheap

/-- A new directory gets the entries of the kernel half. -/
theorem HalfInv.clone (h : HalfInv k ds) {g : Paging} (hr : getKernelPdClone k.paging = .ok (d, g)) :
    HalfInv { k with paging := g } (d :: ds) := by
  have hsub : ∀ b, halfWord k.paging.kernelPageDirectory (d :: ds) b →
      halfWord k.paging.kernelPageDirectory ds b ∨ ∃ j, 768 ≤ j ∧ j < 1024 ∧ b = d + 4 * j := by
    rintro b ⟨c, hc, j, hj, hj', rfl⟩
    rcases List.mem_cons.mp hc with hc | hc
    · exact .inl ⟨c, hc ▸ List.mem_cons_self, j, hj, hj', rfl⟩
    · rcases List.mem_cons.mp hc with rfl | hc
      · exact .inr ⟨j, hj, hj', rfl⟩
      · exact .inl ⟨c, List.mem_cons_of_mem _ hc, j, hj, hj', rfl⟩
  have hkernel : ∀ j, 768 ≤ j → j < 1024 → halfWord k.paging.kernelPageDirectory ds
      (k.paging.kernelPageDirectory + 4 * j) := fun j hj hj' => ⟨_, List.mem_cons_self, j, hj, hj', rfl⟩
  obtain ⟨hnew, hs, hf, -, -⟩ := h.spaces.clone hr _ hsub
  have hkd : g.kernelPageDirectory = k.paging.kernelPageDirectory := hf.kernel
  refine ⟨h.heap, ?_, List.nodup_cons.mpr ⟨hnew, h.nodup⟩, ?_, fun c hc j hj hj' => ?_⟩
  · dsimp only
    rw [hkd]
    exact h.image
  · dsimp only
    rw [hkd]
    exact hs
  · dsimp only
    rw [hkd, hf.words _ (hkernel j hj hj')]
    rcases List.mem_cons.mp hc with rfl | hc
    · rw [getKernelPdClone_word h.spaces hkernel hr hj', if_neg (not_lt.mpr hj)]
    · rw [hf.words _ ⟨c, List.mem_cons_of_mem _ hc, j, hj, hj', rfl⟩]
      exact h.copies c hc j hj hj'

/-- `exit_process` frees the slot of the directory, which nothing else is in. -/
theorem HalfInv.ptFree (h : HalfInv k ds) (hd : d ∈ ds) :
    HalfInv { k with paging := VkKernel.ptFree d k.paging } (ds.erase d) := by
  obtain ⟨i, hi, hdi, hused⟩ := h.spaces.dirs d hd
  have hmem : ∀ c ∈ ds.erase d, c ≠ d ∧ c ∈ ds := fun c hc => (h.nodup.mem_erase_iff).mp hc
  have hblocks : (VkKernel.ptFree d k.paging).kpheapBlocks = Function.update k.paging.kpheapBlocks i false := by
    have hslot : sub32 d kpheapVirtBase / kpheapBlockSize = i := by
      have hlt : slotAddr i < 2 ^ 32 := by
        unfold slotAddr kpheapVirtBase kpheapBlockSize
        omega
      have hle : kpheapVirtBase ≤ slotAddr i := Nat.le_add_right _ _
      rw [hdi, sub32_of_le hlt hle]
      unfold slotAddr kpheapBlockSize
      omega
    rw [VkKernel.ptFree, hslot]
  -- the other directories are in other slots
  have hoff : ∀ c ∈ k.paging.kernelPageDirectory :: ds.erase d, ∀ j < 1024, OffSlot i (c + 4 * j) := by
    intro c hc j hj
    rcases List.mem_cons.mp hc with rfl | hc
    · have := h.image.2
      unfold OffSlot slotAddr
      omega
    · obtain ⟨i', -, rfl, -⟩ := h.spaces.dirs c (hmem c hc).2
      have hne : i' ≠ i := by
        rintro rfl
        exact (hmem _ hc).1 hdi.symm
      unfold OffSlot slotAddr kpheapBlockSize
      omega
  have hown : ∀ a, userEntry (ds.erase d) a → userEntry ds a := by
    rintro a ⟨c, hc, j, hj, rfl⟩
    exact ⟨c, (hmem c hc).2, j, hj, rfl⟩
  have hkeep : ∀ a, halfWord k.paging.kernelPageDirectory (ds.erase d) a →
      halfWord k.paging.kernelPageDirectory ds a := by
    rintro a ⟨c, hc, j, hj, hj', rfl⟩
    refine ⟨c, ?_, j, hj, hj', rfl⟩
    rcases List.mem_cons.mp hc with rfl | hc
    · exact List.mem_cons_self
    · exact List.mem_cons_of_mem _ (hmem c hc).2
  have hboth : ∀ a, userEntry (ds.erase d) a ∨ halfWord k.paging.kernelPageDirectory (ds.erase d) a →
      OffSlot i a ∧ (userEntry ds a ∨ halfWord k.paging.kernelPageDirectory ds a) := by
    intro a ha
    refine ⟨?_, ha.imp (hown a) (hkeep a)⟩
    rcases ha with ⟨c, hc, j, hj, rfl⟩ | ⟨c, hc, j, -, hj, rfl⟩
    · exact hoff c (List.mem_cons_of_mem _ hc) j (by omega)
    · exact hoff c hc j hj
  have ht := h.spaces.tables
  refine ⟨h.heap, h.image, h.nodup.erase d, ⟨?_, ?_, ?_, ?_, ?_⟩, fun c hc => h.copies c (hmem c hc).2⟩
  · intro c hc
    obtain ⟨i', hi', hci, hu⟩ := h.spaces.dirs c (hmem c hc).2
    refine ⟨i', hi', hci, ?_⟩
    dsimp only
    rw [hblocks, Function.update_of_ne _ _ _]
    · exact hu
    · rintro rfl
      exact (hmem c hc).1 (hci.trans hdi.symm)
  · intro a ha i' hi' hfree
    obtain ⟨haoff, ha⟩ := hboth a ha
    dsimp only at hfree
    rw [hblocks, Function.update_apply] at hfree
    split_ifs at hfree with heq
    · exact heq ▸ haoff
    · exact ht.apart a ha i' hi' hfree
  · intro a ha hne
    obtain hlarge | ⟨i', hi', hu, hentry, haway⟩ := ht.table a (hown a ha) hne
    · exact .inl hlarge
    · refine .inr ⟨i', hi', ?_, hentry, fun b hb => haway b (hboth b hb).2⟩
      dsimp only
      rw [hblocks, Function.update_of_ne _ _ _]
      · exact hu
      · -- the slot of the directory has no table
        rintro rfl
        have hself := haway d (.inl ⟨d, hd, 0, by omega, rfl⟩)
        rw [hdi] at hself
        unfold OffSlot at hself
        omega
  · exact fun a b j ha hb => ht.unshared a b j (hown a ha) (hown b hb)
  · exact fun a ha hk => ht.disjoint a (hown a ha) (hkeep a hk)

/-! ## Allocations -/

/-- An allocation that finds a block works on the heap only. -/
theorem kmalloc_paging_of_found {n size p : ℕ} {r : ℕ × Heap}
    (hscan : kmallocScan k.heap (alignup size 4) loopFuel kheapBaseStart = .ok (some r))
    (hr : kmalloc n size k = .ok (p, k')) : k'.paging = k.paging := by
  cases n with
  | zero => cases hr
  | succ n =>
    rw [kmalloc, hscan, ok_bind] at hr
    have hpair := Except.ok.inj hr
    rw [← (Prod.mk.inj hpair).2]

/-- The call inside `krealloc`. -/
theorem krealloc_kmalloc {n p size np : ℕ} (hr : krealloc n p size k = .ok (np, k')) :
    ∃ k1, kmalloc n size k = .ok (np, k1) ∧ k'.paging = k1.paging := by
  unfold krealloc at hr
  dsimp only at hr
  split_ifs at hr
  · cases hr
  · obtain ⟨⟨np', k1⟩, hk1, hr⟩ := bind_eq_ok.mp hr
    obtain ⟨k2, hk2, hr⟩ := bind_eq_ok.mp hr
    obtain ⟨h, -, hk2⟩ := bind_eq_ok.mp hk2
    have hpair := Prod.mk.inj (Except.ok.inj hr)
    rw [← hpair.1, ← hpair.2, ← Except.ok.inj hk2]
    exact ⟨k1, hk1, rfl⟩

theorem HalfInv.alloc (h : HalfInv k ds) {k1 : Kernel} {n size p : ℕ} (hk : kmalloc n size k = .ok (p, k1))
    (hg : k'.paging = k1.paging) (hheap : ∃ bs, HeapInv k'.heap bs)
    (hharm : ds = [] ∨ ∃ r, kmallocScan k.heap (alignup size 4) loopFuel kheapBaseStart = .ok (some r)) :
    HalfInv k' ds := by
  rcases hharm with rfl | ⟨r, hr⟩
  · refine .of_empty hheap ?_
    rw [hg, (allocFrame_kmalloc n _ _ _ _ hk).paging.kernel]
    exact h.image
  · exact h.of_paging (hg.trans (kmalloc_paging_of_found hr hk)) hheap

/-! ## Runs -/

theorem HalfStep.inv {c : HalfCall} {s s' : Kernel × List ℕ} (hs : HalfStep c s s') (hc : c.Harmless s)
    (h : HalfInv s.1 s.2) : HalfInv s'.1 s'.2 := by
  obtain ⟨bs, hi⟩ := h.heap
  cases hs with
  | getKernelPdClone hr => exact h.clone hr
  | user hd hr =>
    obtain ⟨hk, hheap⟩ := RangeCall.run_keeps h.spaces (fun b => h.high) h.heap hd hc hr
    exact h.of_keeps hk hheap
  | @kernel k k' _ c hr =>
    obtain rfl := hc
    obtain ⟨hkd, hheap⟩ := RangeCall.run_rule
      (fun g => g.kernelPageDirectory = k.paging.kernelPageDirectory)
      (fun add _ g1 g2 h1 hp => hp.kernelPageDirectory.trans h1) rfl h.heap hr
    exact .of_empty hheap (hkd ▸ h.image)
  | kmalloc hsize hr => exact h.alloc hr rfl (HeapStep.inv (.kmalloc hsize hr) hi) hc
  | krealloc hp hsize hr =>
    obtain ⟨k1, hk1, hg⟩ := krealloc_kmalloc hr
    exact h.alloc hk1 hg (HeapStep.inv (.krealloc hp hsize hr) hi) hc
  | kfree hp hr =>
    have hk' := ((hi.kfree_holds hp).of_ok hr).2.2.2.2
    exact h.of_paging (congrArg Kernel.paging hk' :) (HeapStep.inv (.kfree hp hr) hi)
  | write hp hx hx' => exact h.of_paging rfl (HeapStep.inv (.write hp hx hx') hi)
  | pdSwitch =>
    have ht := h.spaces.tables
    exact ⟨h.heap, h.image, h.nodup, ⟨h.spaces.dirs, ⟨ht.apart, ht.table, ht.unshared, ht.disjoint⟩⟩, h.copies⟩
  | ptFree hd => exact h.ptFree hd
  | other hheap hg => exact h.of_paging hg ⟨bs, hheap ▸ hi⟩

theorem HarmlessRun.inv {k0 : Kernel} (h0 : HeapReachable k0)
    (himage : kernelVirtualBase ≤ k0.paging.kernelPageDirectory ∧
      k0.paging.kernelPageDirectory + 4096 ≤ kpheapVirtBase)
    {s : Kernel × List ℕ} (hrun : HarmlessRun k0 s) : HalfInv s.1 s.2 := by
  induction hrun with
  | refl => exact .of_empty h0.inv himage
  | tail _ hstep ih =>
    obtain ⟨c, hs, hc⟩ := hstep
    exact hs.inv hc ih

/-- As long as nothing is mapped in the kernel half while a directory is in use, all directories
have one kernel half. -/
theorem oneKernelHalf_of_harmless {k0 : Kernel} (h0 : HeapReachable k0)
    (himage : kernelVirtualBase ≤ k0.paging.kernelPageDirectory ∧
      k0.paging.kernelPageDirectory + 4096 ≤ kpheapVirtBase)
    {s : Kernel × List ℕ} (hrun : HarmlessRun k0 s) : OneKernelHalf s :=
  (hrun.inv h0 himage).oneKernelHalf

/-- The first directory. -/
theorem oneKernelHalf_of_harmless_first : ∃ g,
    HarmlessRun oneBlockKernel ({ oneBlockKernel with paging := g }, [slotAddr 0]) ∧
    OneKernelHalf ({ oneBlockKernel with paging := g }, [slotAddr 0]) := by
  obtain ⟨g, hclone, -⟩ := getKernelPdClone_oneBlock
  have hrun : HarmlessRun oneBlockKernel ({ oneBlockKernel with paging := g }, [slotAddr 0]) :=
    .single ⟨.getKernelPdClone, .getKernelPdClone hclone, trivial⟩
  exact ⟨g, hrun, oneKernelHalf_of_harmless initialList_oneBlockKernel.heap ⟨by decide, by decide⟩ hrun⟩

/-- A heap that grows while there is a process: the kernel and the process get different frames. -/
theorem not_oneKernelHalf_growth : HeapReachable oneBlockKernel ∧
    ∃ s, HalfRun oneBlockKernel s ∧ ¬OneKernelHalf s := by
  refine ⟨initialList_oneBlockKernel.heap, ?_⟩
  obtain ⟨g, p, k', hclone, hgrow, hkernel, hprocess, -⟩ := kmalloc_grows
  have hnew : HalfRun oneBlockKernel ({ oneBlockKernel with paging := g }, [slotAddr 0]) :=
    .single ⟨.getKernelPdClone, .getKernelPdClone hclone⟩
  have hlisted : HalfRun oneBlockKernel (clonedKernel g, [slotAddr 0]) :=
    hnew.tail ⟨.other, .other rfl rfl⟩
  have hgrown : HalfRun oneBlockKernel (k', [slotAddr 0]) :=
    hlisted.tail ⟨.kmalloc 0x3FFFF8, .kmalloc (by decide) hgrow⟩
  refine ⟨_, hgrown, fun hone => ?_⟩
  have hsame := (hone (slotAddr 0) List.mem_cons_self 0xC0C00000 (by decide) (by decide)).1
  dsimp only at hsame
  rw [hkernel, hprocess] at hsame
  exact absurd hsame (by decide)

end VkKernel
