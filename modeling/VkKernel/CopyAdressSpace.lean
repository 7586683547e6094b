import VkKernel.HeapClients
import VkKernel.KernelHalf
import VkKernel.PageMapping
import VkKernel.PhysicalRun

/-!
# Copying an address space

`copy_adress_space` maps a frame of its own for every page of user memory that another directory
maps, and moves the bytes of the page through a buffer of the heap. The kernel half, and with it
the heap, is the same memory in every directory while the heap does not grow.
-/

namespace VkKernel
open ByteMemory BlockLayout RegionList Outcome IntervalUpdate

def Kernel.switchTo (k : Kernel) (pd : ℕ) : Kernel := { k with paging := pdSwitch pd k.paging }

/-- `memcpy` of `n` bytes at `src` in user memory to the heap. -/
def memcpyFromUser (dst src : ℕ) : ℕ → Kernel → Result Kernel
  | 0, k => .ok k
  | n + 1, k => do
    let k ← memcpyFromUser dst src n k
    match k.paging.translate (src + n) k.paging.currentPageDirectory with
    | none => fatalKernelError "Page fault" "Unknown"
    | some a =>
      .ok { k with heap := { k.heap with mem := Function.update k.heap.mem (dst + n) (k.ram a) } }

/-- `memcpy` of `n` bytes of the heap to `dst` in user memory. -/
def memcpyToUser (dst src : ℕ) : ℕ → Kernel → Result Kernel
  | 0, k => .ok k
  | n + 1, k => do
    let k ← memcpyToUser dst src n k
    match k.paging.translate (dst + n) k.paging.currentPageDirectory with
    | none => fatalKernelError "Page fault" "Unknown"
    | some a => .ok { k with ram := Function.update k.ram a (k.heap.mem (src + n)) }

/-- New memory for `size` bytes at `virt` in `tr`, with the bytes of `pd`, and the buffer used.
The fuel is that of `kmalloc`. -/
def copyRange (fuel size virt pd tr cpd : ℕ) (k : Kernel) : Result (ℕ × Kernel) := do
  let k ← mapMemory (kmalloc fuel) size virt tr k
  let (kbuffer, k) ← kmalloc fuel size k
  let k ← memcpyFromUser kbuffer virt size (k.switchTo pd)
  let k ← memcpyToUser virt kbuffer size (k.switchTo tr)
  .ok (kbuffer, k.switchTo cpd)

/-- A 4 KiB page. -/
def copyPage (fuel virt pd tr cpd : ℕ) (k : Kernel) : Result Kernel := do
  let (kbuffer, k) ← copyRange fuel 4096 virt pd tr cpd k
  k.kfree kbuffer

/-- A 4 MiB page, whose buffer is not freed. -/
def copyLargePage (fuel virt pd tr cpd : ℕ) (k : Kernel) : Result Kernel := do
  let (_, k) ← copyRange fuel 0x400000 virt pd tr cpd k
  .ok k

/-- Entry `j` of the page table at `pt`, behind directory entry `i`. -/
def copyTableEntry (fuel pt i j pd tr cpd : ℕ) (k : Kernel) : Result Kernel :=
  if k.paging.word (pt + 4 * j) = 0 then .ok k
  else copyPage fuel (i * 2 ^ 22 + j * 2 ^ 12) pd tr cpd k

/-- The loop over a page table, from entry `j` on. -/
def copyTable (fuel pt i pd tr cpd : ℕ) : ℕ → ℕ → Kernel → Result Kernel
  | 0, _, k => .ok k
  | n + 1, j, k => do
    let k ← copyTableEntry fuel pt i j pd tr cpd k
    copyTable fuel pt i pd tr cpd n (j + 1) k

/-- Entry `i` of the directory. -/
def copyEntry (fuel i pd tr cpd : ℕ) (k : Kernel) : Result Kernel :=
  let entry := k.paging.word (pd + 4 * i)
  if entry = 0 then .ok k
  else if pageSizeBit entry = 1 then copyLargePage fuel (i * 2 ^ 22) pd tr cpd k
  else copyTable fuel (u32 (frameOf entry + kernelVirtualBase)) i pd tr cpd 1024 0 k

/-- The loop over the user half, from entry `i` on. -/
def copyEntries (fuel pd tr cpd : ℕ) : ℕ → ℕ → Kernel → Result Kernel
  | 0, _, k => .ok k
  | n + 1, i, k => do
    let k ← copyEntry fuel i pd tr cpd k
    copyEntries fuel pd tr cpd n (i + 1) k

def copyAdressSpace (fuel pageDirectory : ℕ) (k : Kernel) : Result (ℕ × Kernel) := do
  let cpd := k.paging.currentPageDirectory
  let (tr, g) ← getKernelPdClone k.paging
  let k ← copyEntries fuel pageDirectory tr cpd (kernelVirtualBase / 2 ^ 22) 0 { k with paging := g }
  .ok (tr, k.switchTo cpd)

/-! ## The two ways through the buffer -/

section Memcpy
variable {k : Kernel} {dst src n f : ℕ}

theorem memcpyFromUser_eq (h : ∀ i < n,
    k.paging.translate (src + i) k.paging.currentPageDirectory = some (f + i)) :
    memcpyFromUser dst src n k = .ok { k with heap := { k.heap with
      mem := overwrite k.heap.mem dst n fun i => k.ram (f + i) } } := by
  induction n with
  | zero => rw [memcpyFromUser, overwrite_zero]
  | succ n ih =>
    rw [memcpyFromUser, ih fun i hi => h i (by omega), ok_bind]
    dsimp only
    rw [h n (by omega), overwrite_succ_eq_update]

theorem memcpyToUser_eq (h : ∀ i < n,
    k.paging.translate (dst + i) k.paging.currentPageDirectory = some (f + i)) :
    memcpyToUser dst src n k =
      .ok { k with ram := overwrite k.ram f n fun i => k.heap.mem (src + i) } := by
  induction n with
  | zero => rw [memcpyToUser, overwrite_zero]
  | succ n ih =>
    rw [memcpyToUser, ih fun i hi => h i (by omega), ok_bind]
    dsimp only
    rw [h n (by omega), overwrite_succ_eq_update]

end Memcpy

/-! ## Growth of the heap -/

/-- The heap is in order, and no smaller than before. -/
def GrownFrom (k k' : Kernel) : Prop := k'.heap.Sound ∧ k.heap.baseEnd ≤ k'.heap.baseEnd

section Growth
variable {k k' k₁ : Kernel} {n fuel p : ℕ}

theorem GrownFrom.trans (h : GrownFrom k k₁) (h' : GrownFrom k₁ k') : GrownFrom k k' :=
  ⟨h'.1, h.2.trans h'.2⟩

theorem Expanded.baseEnd_le (h : Expanded n k k') : k.heap.baseEnd ≤ k'.heap.baseEnd := by
  induction h with
  | refl => exact le_rfl
  | step _ _ hlt _ ih => exact hlt.le.trans ih

theorem Expanded.eq_of_baseEnd (h : Expanded n k k') (he : k'.heap.baseEnd = k.heap.baseEnd) :
    k' = k := by
  cases h with
  | refl => rfl
  | step _ _ hlt hex =>
    have := hex.baseEnd_le
    omega

/-- An allocation that leaves the end of the heap in place changes the heap only. -/
theorem Heap.Sound.kmalloc_grown (hs : k.heap.Sound) (hn : n ≤ 0xFFFFFFFC)
    (hm : VkKernel.kmalloc fuel n k = .ok (p, k')) :
    GrownFrom k k' ∧ (k'.heap.baseEnd = k.heap.baseEnd → k' = { k with heap := k'.heap }) := by
  have hsound := (hs.kmalloc hn hm).sound
  obtain ⟨bs, hi⟩ := hs
  obtain ⟨k₁, bs₁, b, hex, -, -, -, -, hk'⟩ := (VkKernel.kmalloc_holds hi hn).of_ok hm
  dsimp only at hk'
  have hend : k'.heap.baseEnd = k₁.heap.baseEnd := by
    rw [hk']
    exact takeBlock_baseEnd
  refine ⟨⟨hsound, hend ▸ hex.baseEnd_le⟩, fun he => ?_⟩
  have hk₁ := hex.eq_of_baseEnd (hend.symm.trans he)
  rw [hk', hk₁]

theorem mapMemory_grown (hs : k.heap.Sound) {size virt d : ℕ}
    (hr : mapMemory (kmalloc fuel) size virt d k = .ok k') : GrownFrom k k' := by
  obtain ⟨bs, hi⟩ := hs
  obtain ⟨hkept, hend⟩ := (mapMemory_kept (smallAlloc_kmalloc fuel) hi).of_ok hr
  exact ⟨hkept.inv, hend.ge⟩

/-- The bytes outside the buffer stay. -/
theorem memcpyFromUser_frame {dst src : ℕ} (hr : memcpyFromUser dst src n k = .ok k') :
    ∃ m : Mem, k' = { k with heap := { k.heap with mem := m } } ∧
      ∀ x, x < dst ∨ dst + n ≤ x → m x = k.heap.mem x := by
  induction n generalizing k' with
  | zero =>
    cases hr
    exact ⟨k.heap.mem, rfl, fun _ _ => rfl⟩
  | succ n ih =>
    rw [memcpyFromUser] at hr
    obtain ⟨k₁, hk₁, hr⟩ := bind_eq_ok.mp hr
    obtain ⟨m, rfl, hm⟩ := ih hk₁
    split at hr
    · cases hr
    · injection hr with hr
      refine ⟨_, hr.symm, fun x hx => ?_⟩
      rw [Function.update_of_ne (by omega)]
      exact hm x (by omega)

theorem memcpyToUser_frame {dst src : ℕ} (hr : memcpyToUser dst src n k = .ok k') :
    k' = { k with ram := k'.ram } := by
  induction n generalizing k' with
  | zero =>
    cases hr
    rfl
  | succ n ih =>
    rw [memcpyToUser] at hr
    obtain ⟨k₁, hk₁, hr⟩ := bind_eq_ok.mp hr
    split at hr
    · cases hr
    · injection hr with hr
      rw [← hr, ih hk₁]

theorem copyRange_grown (hs : k.heap.Sound) {size virt pd tr cpd : ℕ} (hsize : size ≤ 0xFFFFFFFC)
    (hr : copyRange fuel size virt pd tr cpd k = .ok (p, k')) :
    GrownFrom k k' ∧ p ∈ k'.heap.live := by
  obtain ⟨k₁, hk₁, hr⟩ := bind_eq_ok.mp hr
  have h₁ := mapMemory_grown hs hk₁
  obtain ⟨⟨b, k₂⟩, hk₂, hr⟩ := bind_eq_ok.mp hr
  have hnew := h₁.1.kmalloc hsize hk₂
  have h₂ := (h₁.1.kmalloc_grown hsize hk₂).1
  obtain ⟨k₃, hk₃, hr⟩ := bind_eq_ok.mp hr
  obtain ⟨m, rfl, hm⟩ := memcpyFromUser_frame hk₃
  obtain ⟨k₄, hk₄, hr⟩ := bind_eq_ok.mp hr
  have h₄ := memcpyToUser_frame hk₄
  injection hr with hr
  rw [Prod.mk.injEq] at hr
  obtain ⟨rfl, rfl⟩ := hr
  have hstored := hnew.sound.store hnew.live (m := m) fun x hx => hm x (by
    have := hnew.enough
    omega)
  refine ⟨h₁.trans (h₂.trans ?_), ?_⟩
  · rw [h₄]
    exact ⟨hstored.sound, le_rfl⟩
  · rw [h₄]
    exact hnew.live

theorem copyPage_grown (hs : k.heap.Sound) {virt pd tr cpd : ℕ}
    (hr : copyPage fuel virt pd tr cpd k = .ok k') : GrownFrom k k' := by
  obtain ⟨⟨b, k₁⟩, hk₁, hr⟩ := bind_eq_ok.mp hr
  obtain ⟨h₁, hlive⟩ := copyRange_grown hs (by norm_num) hk₁
  obtain ⟨bs, hi⟩ := h₁.1
  obtain ⟨hi', hend, -⟩ := (hi.kfree_holds hlive).of_ok hr
  exact h₁.trans ⟨⟨_, hi'⟩, hend.ge⟩

theorem copyTableEntry_grown (hs : k.heap.Sound) {pt i j pd tr cpd : ℕ}
    (hr : copyTableEntry fuel pt i j pd tr cpd k = .ok k') : GrownFrom k k' := by
  unfold copyTableEntry at hr
  split_ifs at hr
  · cases hr
    exact ⟨hs, le_rfl⟩
  · exact copyPage_grown hs hr

theorem copyTable_grown (hs : k.heap.Sound) {pt i pd tr cpd j : ℕ}
    (hr : copyTable fuel pt i pd tr cpd n j k = .ok k') : GrownFrom k k' := by
  induction n generalizing k j with
  | zero =>
    cases hr
    exact ⟨hs, le_rfl⟩
  | succ n ih =>
    obtain ⟨k₁, hk₁, hr⟩ := bind_eq_ok.mp hr
    have h₁ := copyTableEntry_grown hs hk₁
    exact h₁.trans (ih h₁.1 hr)

theorem copyEntry_grown (hs : k.heap.Sound) {i pd tr cpd : ℕ}
    (hr : copyEntry fuel i pd tr cpd k = .ok k') : GrownFrom k k' := by
  unfold copyEntry at hr
  dsimp only at hr
  split_ifs at hr
  · cases hr
    exact ⟨hs, le_rfl⟩
  · obtain ⟨⟨b, k₁⟩, hk₁, hr⟩ := bind_eq_ok.mp hr
    cases hr
    exact (copyRange_grown hs (by norm_num) hk₁).1
  · exact copyTable_grown hs hr

theorem copyEntries_grown (hs : k.heap.Sound) {pd tr cpd i : ℕ}
    (hr : copyEntries fuel pd tr cpd n i k = .ok k') : GrownFrom k k' := by
  induction n generalizing k i with
  | zero =>
    cases hr
    exact ⟨hs, le_rfl⟩
  | succ n ih =>
    obtain ⟨k₁, hk₁, hr⟩ := bind_eq_ok.mp hr
    have h₁ := copyEntry_grown hs hk₁
    exact h₁.trans (ih h₁.1 hr)

end Growth

/-! ## Frames of user memory -/

section Represents
variable {k k' : Kernel} {ds : List ℕ} {σ : Translations}

/-- The processor reads the map of translations. -/
theorem Represents.translate_eq (h : Represents k ds σ) {d v : ℕ} (hd : d ∈ ds)
    (hv : v < kernelVirtualBase) :
    k.paging.translate v d = (σ d (v / 4096)).map (· + v % 4096) := by
  have hentry := h.entries d hd _ (page_lt hv)
  have hsmall : ¬(k.paging.word (d + 4 * pdIndex v) ≠ 0 ∧
      pageSizeBit (k.paging.word (d + 4 * pdIndex v)) = 1) := by
    rintro ⟨hz, hbit⟩
    rw [(h.spaces.pageEntry_eq hd hv hz).1] at hbit
    cases hbit
  rw [translate_eq_leaf, if_neg hsmall, leafAt_eq_pageEntry, hentry]
  cases hp : σ d (v / 4096) with
  | none => exact if_pos rfl
  | some f =>
    have hf := h.aligned d hd _ f hp
    have hpos := pageFlags_pos k.paging d
    rw [entryOf, if_neg (by omega), frameOf_add hf (pageFlags_lt _ _)]
    rfl

/-- What the map of translations says about the heap and the tables depends on nothing else. -/
theorem Represents.congr (h : Represents k ds σ) (hheap : k'.heap.Sound) {d : ℕ}
    (hg : k'.paging = pdSwitch d k.paging) : Represents k' ds σ := by
  have ht := h.spaces.tables
  refine ⟨hheap, ?_, h.aligned, ?_⟩
  · rw [hg]
    exact ⟨h.spaces.dirs, ht.apart, ht.table, ht.unshared, ht.disjoint⟩
  · rw [hg]
    exact h.entries

theorem Represents.of_paging (h : Represents k ds σ) (hheap : k'.heap.Sound)
    (hg : k'.paging = k.paging) : Represents k' ds σ := h.congr hheap (d := k.paging.currentPageDirectory) hg

theorem Represents.translate_page (h : Represents k ds σ) {d p f i : ℕ} (hd : d ∈ ds)
    (hp : p < userPages) (hf : σ d p = some f) (hi : i < 4096) :
    k.paging.translate (p * 4096 + i) d = some (f + i) := by
  have hlt : p * 4096 + i < kernelVirtualBase := by
    unfold userPages at hp
    unfold kernelVirtualBase
    omega
  rw [h.translate_eq hd hlt, show (p * 4096 + i) / 4096 = p by omega, hf,
    show (p * 4096 + i) % 4096 = i by omega]
  rfl

/-- The bytes of a page of `pd` go through the buffer at `b` to the same page of `tr`. -/
theorem Represents.copyBytes (h : Represents k ds σ) {b pd tr p f a : ℕ} (hb : b ∈ k.heap.live)
    (hsize : 4096 ≤ k.heap.size (b - 8)) (hpd : pd ∈ ds) (htr : tr ∈ ds) (hp : p < userPages)
    (hf : σ pd p = some f) (ha : σ tr p = some a) :
    ∃ m : Mem, (∀ x, x < b ∨ b + k.heap.size (b - 8) ≤ x → m x = k.heap.mem x) ∧
      memcpyFromUser b (p * 4096) 4096 (k.switchTo pd) =
        .ok { k with paging := pdSwitch pd k.paging, heap := { k.heap with mem := m } } ∧
      memcpyToUser (p * 4096) b 4096
          { k with paging := pdSwitch tr k.paging, heap := { k.heap with mem := m } } =
        .ok { k with
          paging := pdSwitch tr k.paging
          heap := { k.heap with mem := m }
          ram := overwrite k.ram a 4096 fun i => k.ram (f + i) } := by
  let m := overwrite k.heap.mem b 4096 fun i => k.ram (f + i)
  have hsound : k.heap.Sound := h.heap
  have hm : ∀ x, x < b ∨ b + k.heap.size (b - 8) ≤ x → m x = k.heap.mem x :=
    fun x hx => overwrite_of_notMem (by omega)
  have h₃ : Represents { k with paging := pdSwitch tr k.paging, heap := { k.heap with mem := m } }
      ds σ := h.congr (hsound.store hb hm).sound rfl
  have h₁ : Represents (k.switchTo pd) ds σ := h.congr hsound rfl
  refine ⟨m, hm, memcpyFromUser_eq fun i hi => h₁.translate_page hpd hp hf hi, ?_⟩
  have hbytes : (overwrite k.ram a 4096 fun i => m (b + i)) =
      overwrite k.ram a 4096 fun i => k.ram (f + i) := by
    funext y
    by_cases hy : a ≤ y ∧ y < a + 4096
    · rw [overwrite_of_mem hy.1 hy.2, overwrite_of_mem hy.1 hy.2]
      dsimp only [m]
      rw [overwrite_of_mem (by omega) (by omega), Nat.add_sub_cancel_left]
    · rw [overwrite_of_notMem (by omega), overwrite_of_notMem (by omega)]
  rw [memcpyToUser_eq fun i hi => h₃.translate_page htr hp ha hi, ← hbytes]

end Represents

section Blocks
variable {k k' : Kernel} {types : ℕ → Prop} {rv : List (ℕ × ℕ)} {rs : List PRegion}

/-- The reservations while the nodes of their list stay allocated. -/
theorem RunInv.congr (hi : RunInv noStale [] types k rv rs) (hheap : k'.heap.Sound)
    (hp : k'.phys = k.phys) (hl : ∀ r ∈ rs, r.key ∈ k'.heap.live) :
    RunInv noStale [] types k' rv rs := by
  have hphys := hi.phys
  refine ⟨⟨hheap, hp ▸ hphys.listing, ?_, hphys.ascending, hphys.bounded, hphys.tail,
    hphys.back⟩, hi.nodup, hi.held⟩
  rwa [List.append_nil]

/-- Two reservations share no byte. -/
theorem RunInv.apart (hi : RunInv noStale [] types k rv rs) {v w : ℕ × ℕ} (hv : v ∈ rv)
    (hw : w ∈ rv) (hne : v ≠ w) : v.1 + v.2 ≤ w.1 ∨ w.1 + w.2 ≤ v.1 := by
  obtain ⟨-, -, r, hr, hrb, hrs, -⟩ := hi.held v hv
  obtain ⟨-, -, s, hs, hsb, hss, -⟩ := hi.held w hw
  have hrs' : r ≠ s := by
    rintro rfl
    exact hne (Prod.ext (hrb.symm.trans hsb) (hrs.symm.trans hss))
  have := hi.phys.ascending.apart hr hs hrs'
  simp only [Region.stop] at this
  omega

end Blocks

/-- `reserve_block` gives out blocks of these types. -/
def ReservedType (t : ℕ) : Prop := t = physKernelfBlockType ∨ t = physUserBlockType

theorem ReservedType.ne_free {t : ℕ} (h : ReservedType t) : t ≠ physFreeBlockType := by
  rcases h with rfl | rfl <;> decide

theorem reservedType_blockTypeFor (d : ℕ) (g : Paging) : ReservedType (blockTypeFor d g) := by
  unfold blockTypeFor
  split_ifs
  · exact .inl rfl
  · exact .inr rfl

/-- The frames of user memory are in live reservations, and the pages that show one reservation
are neighbours in one directory. -/
structure PrivateFrames (k : Kernel) (ds : List ℕ) (σ : Translations) (rv : List (ℕ × ℕ)) :
    Prop where
  spaces : Represents k ds σ
  blocks : ∃ rs, RunInv noStale [] ReservedType k rv rs
  owned : ∀ d ∈ ds, ∀ p f, σ d p = some f → ∃ v ∈ rv, v.1 ≤ f ∧ f + 4096 ≤ v.1 + v.2
  placed : ∀ v ∈ rv, ∀ d ∈ ds, ∀ e ∈ ds, ∀ p q f g, σ d p = some f → σ e q = some g →
    v.1 ≤ f → f < v.1 + v.2 → v.1 ≤ g → g < v.1 + v.2 → d = e ∧ f + 4096 * q = g + 4096 * p

section PrivateFrames
variable {k k' : Kernel} {ds : List ℕ} {σ : Translations} {rv : List (ℕ × ℕ)}

/-- A frame is shown by one page only. -/
theorem PrivateFrames.unique (h : PrivateFrames k ds σ rv) {d e p q f : ℕ} (hd : d ∈ ds)
    (he : e ∈ ds) (hp : σ d p = some f) (hq : σ e q = some f) : d = e ∧ p = q := by
  obtain ⟨v, hv, hlo, hhi⟩ := h.owned d hd p f hp
  obtain ⟨rfl, heq⟩ := h.placed v hv d hd e he p q f f hp hq hlo (by omega) hlo (by omega)
  exact ⟨rfl, by omega⟩

/-- So is every byte of it. -/
theorem PrivateFrames.byte_unique (h : PrivateFrames k ds σ rv) {d e v w a : ℕ} (hd : d ∈ ds)
    (he : e ∈ ds) (hv : v < kernelVirtualBase) (hw : w < kernelVirtualBase)
    (hva : k.paging.translate v d = some a) (hwa : k.paging.translate w e = some a) :
    d = e ∧ v = w := by
  rw [h.spaces.translate_eq hd hv, Option.map_eq_some_iff] at hva
  rw [h.spaces.translate_eq he hw, Option.map_eq_some_iff] at hwa
  obtain ⟨f, hf, hfa⟩ := hva
  obtain ⟨g, hg, hga⟩ := hwa
  have hf4 := h.spaces.aligned d hd _ f hf
  have hg4 := h.spaces.aligned e he _ g hg
  have hfg : f = g := by omega
  subst hfg
  obtain ⟨rfl, hpq⟩ := h.unique hd he hf hg
  exact ⟨rfl, by omega⟩

theorem PrivateFrames.sound (h : PrivateFrames k ds σ rv) : k.heap.Sound := h.spaces.heap

/-- Work on the heap, on the bytes and on the current directory. -/
theorem PrivateFrames.congr (h : PrivateFrames k ds σ rv) (hheap : k'.heap.Sound)
    (hp : k'.phys = k.phys) {d : ℕ} (hg : k'.paging = pdSwitch d k.paging)
    (hl : ∀ rs, RunInv noStale [] ReservedType k rv rs → ∀ r ∈ rs, r.key ∈ k'.heap.live) :
    PrivateFrames k' ds σ rv := by
  obtain ⟨rs, hi⟩ := h.blocks
  exact ⟨h.spaces.congr hheap hg, ⟨rs, hi.congr hheap hp (hl rs hi)⟩, h.owned, h.placed⟩

theorem PrivateFrames.switchTo (h : PrivateFrames k ds σ rv) (d : ℕ) :
    PrivateFrames (k.switchTo d) ds σ rv :=
  h.congr h.sound rfl rfl fun rs hi r hr => hi.phys.live r (by simpa using hr)

/-- A block that is reserved is apart from all reservations, and no page shows it. -/
structure NewReservation (a m : ℕ) (k k' : Kernel) (rv : List (ℕ × ℕ)) : Prop where
  paging : k'.paging = k.paging
  ram : k'.ram = k.ram
  baseEnd : k'.heap.baseEnd = k.heap.baseEnd
  apart : ∀ v ∈ rv, a + m ≤ v.1 ∨ v.1 + v.2 ≤ a
  lt : a + m < 2 ^ 32

theorem PrivateFrames.reserve (h : PrivateFrames k ds σ rv) {n size type a : ℕ} (h0 : 0 < size)
    (hsize : size ≤ 0xFFFFF000) (ht : ReservedType type)
    (hr : reserveBlock (kmalloc n) size type k = .ok (a, k')) :
    NewReservation a (alignup size 4096) k k' rv ∧
      PrivateFrames k' ds σ ((a, alignup size 4096) :: rv) := by
  obtain ⟨rs, hi⟩ := h.blocks
  obtain ⟨rs', hi', -, -⟩ := @RunInv.reserve noStale [] ReservedType (fun _ _ => True) k k' rv rs n
    size type a hi (fun t ht => ht.ne_free) h0 hsize ht hr
  obtain ⟨-, -, -, -, -, -, -, -, -, hkept, -, hend, hk'⟩ := hi.phys.reserveBlock_spec hr
  have hnotmem := (List.nodup_cons.mp hi'.nodup).1
  have hnew : NewReservation a (alignup size 4096) k k' rv := by
    refine ⟨by rw [hk'], by rw [hk'], hend, fun v hv => ?_, ?_⟩
    · exact hi'.apart List.mem_cons_self (List.mem_cons_of_mem _ hv) fun heq => hnotmem (heq ▸ hv)
    · obtain ⟨-, -, r, hr, hrb, hrs, htag⟩ := hi'.held _ List.mem_cons_self
      have hstop := hi'.phys.bounded r hr (.inr htag)
      unfold Region.stop at hstop
      dsimp only at hrb hrs
      omega
  refine ⟨hnew, h.spaces.of_paging hkept.inv hnew.paging, ⟨rs', hi'⟩, fun d hd p f hp => ?_, ?_⟩
  · obtain ⟨v, hv, hin⟩ := h.owned d hd p f hp
    exact ⟨v, List.mem_cons_of_mem _ hv, hin⟩
  · intro v hv d hd e he p q f g hp hq hf hf' hg hg'
    rcases List.mem_cons.mp hv with rfl | hv
    · obtain ⟨w, hw, hlo, hhi⟩ := h.owned d hd p f hp
      have := hnew.apart w hw
      dsimp only at hf hf'
      omega
    · exact h.placed v hv d hd e he p q f g hp hq hf hf' hg hg'

/-- New pages of one directory show a new block in order. -/
theorem PrivateFrames.showBlock (h : PrivateFrames k ds σ rv) {a m d s : ℕ} {σ' : Translations}
    {k₀ k₁ : Kernel} (hnew : NewReservation a m k₀ k₁ rv) (h' : Represents k' ds σ')
    (hblocks : ∃ rs, RunInv noStale [] ReservedType k' ((a, m) :: rv) rs)
    (hσ : ∀ e p f, σ' e p = some f → σ e p = some f ∨
      e = d ∧ ∃ i, p = s + i ∧ i * 4096 + 4096 ≤ m ∧ f = a + i * 4096) :
    PrivateFrames k' ds σ' ((a, m) :: rv) := by
  -- an old page shows an old block
  have hold : ∀ e ∈ ds, ∀ p f, σ e p = some f → f < a ∨ a + m ≤ f := by
    intro e he p f hp
    obtain ⟨v, hv, hlo, hhi⟩ := h.owned e he p f hp
    have := hnew.apart v hv
    omega
  refine ⟨h', hblocks, fun e he p f hp => ?_, fun v hv e he e' he' p q f g hp hq hf hf' hg hg' => ?_⟩
  · rcases hσ e p f hp with hp | ⟨rfl, i, rfl, hi, rfl⟩
    · obtain ⟨v, hv, hin⟩ := h.owned e he p f hp
      exact ⟨v, List.mem_cons_of_mem _ hv, hin⟩
    · exact ⟨(a, m), List.mem_cons_self, by dsimp only; omega⟩
  · rcases List.mem_cons.mp hv with rfl | hv
    · dsimp only at hf hf' hg hg'
      rcases hσ e p f hp with hp | ⟨rfl, i, rfl, hi, rfl⟩
      · have := hold e he p f hp
        omega
      · rcases hσ e' q g hq with hq | ⟨rfl, j, rfl, hj, rfl⟩
        · have := hold e' he' q g hq
          omega
        · exact ⟨rfl, by omega⟩
    · have hapart := hnew.apart v hv
      rcases hσ e p f hp with hp | ⟨rfl, i, rfl, hi, rfl⟩
      · rcases hσ e' q g hq with hq | ⟨rfl, j, rfl, hj, rfl⟩
        · exact h.placed v hv e he e' he' p q f g hp hq hf hf' hg hg'
        · omega
      · omega

/-- `map_memory` of a range of user memory gives it a block of its own. -/
theorem PrivateFrames.mapMemory (h : PrivateFrames k ds σ rv) {n size virt d : ℕ} (hd : d ∈ ds)
    (hu : UserRange size virt) (h0 : 0 < size) (hr : mapMemory (kmalloc n) size virt d k = .ok k') :
    ∃ a k₁, reserveBlock (kmalloc n) (alignup size 4096) (blockTypeFor d k.paging) k = .ok (a, k₁) ∧
      NewReservation a (alignup size 4096) k k₁ rv ∧
      PrivateFrames k' ds (σ.set d size virt fun i => some (a + i * 4096))
        ((a, alignup size 4096) :: rv) ∧
      k' = { k₁ with paging := k'.paging } := by
  obtain ⟨⟨a, k₁⟩, hres, hr'⟩ := bind_eq_ok.mp hr
  have hsize := hu.small
  rw [hu.rangeSize_eq] at hres
  have hpages := hu.alignup_eq
  have hres' : reserveBlock (kmalloc n) (alignup size 4096) (blockTypeFor d k.paging) k =
      .ok (a, k₁) := hres
  have hround : alignup (alignup size 4096) 4096 = alignup size 4096 :=
    alignup_of_dvd ⟨pageCount size, by rw [hpages.1, Nat.mul_comm]⟩
  obtain ⟨hnew, h₁⟩ := h.reserve (alignup_page_pos h0 (by omega)) (by omega)
    (reservedType_blockTypeFor _ _) hres
  rw [hround] at hnew h₁
  obtain ⟨g, -, hk'⟩ := bind_eq_ok.mp hr'
  injection hk' with hk'
  have hframes : (σ.set d size virt fun i => some (u32 (a + i * 4096))) =
      σ.set d size virt fun i => some (a + i * 4096) := by
    unfold Translations.set
    congr 1
    funext p
    by_cases hp : virt / 4096 ≤ p ∧ p < virt / 4096 + pageCount size
    · have hlt := hnew.lt
      rw [overwrite_of_mem hp.1 hp.2, overwrite_of_mem hp.1 hp.2, u32_of_lt (by omega)]
    · rw [overwrite_of_notMem (by omega), overwrite_of_notMem (by omega)]
  have hspaces := (SpaceStep.mapMemory hd hu hres' hr).represents h.spaces
  rw [hframes] at hspaces
  refine ⟨a, k₁, hres', hnew, h.showBlock hnew hspaces ?_ (d := d) (s := virt / 4096) ?_, ?_⟩
  · obtain ⟨rs, hi⟩ := h₁.blocks
    subst hk'
    exact ⟨rs, hi.congr h₁.sound rfl fun r hr => hi.phys.live r (by simpa using hr)⟩
  · intro e p f hp
    unfold Translations.set at hp
    by_cases hed : e = d
    · subst hed
      rw [Function.update_self] at hp
      by_cases hin : virt / 4096 ≤ p ∧ p < virt / 4096 + pageCount size
      · rw [overwrite_of_mem hin.1 hin.2, Option.some.injEq] at hp
        exact .inr ⟨rfl, p - virt / 4096, by omega, by omega, hp.symm⟩
      · rw [overwrite_of_notMem (by omega)] at hp
        exact .inl hp
    · rw [Function.update_of_ne hed] at hp
      exact .inl hp
  · rw [← hk']

/-- One page of a directory leaves the entries of all others alone. -/
theorem PrivateFrames.mapMemory_words (h : PrivateFrames k ds σ rv) {n virt d : ℕ} (hd : d ∈ ds)
    (hu : UserRange 4096 virt) (hr : VkKernel.mapMemory (kmalloc n) 4096 virt d k = .ok k') :
    k'.paging.currentPageDirectory = k.paging.currentPageDirectory ∧
      ∀ c ∈ ds, c ≠ d → ∀ i < 768, k'.paging.word (c + 4 * i) = k.paging.word (c + 4 * i) := by
  have hone : pageCount 4096 = 1 := by rw [pageCount, alignup_of_dvd (by decide)]
  obtain ⟨⟨a, k₁⟩, hres, hr⟩ := bind_eq_ok.mp hr
  obtain ⟨bs, hi⟩ := h.sound
  have hg := (hi.reserveBlock_paging hres).1
  obtain ⟨g, hmap, hk'⟩ := bind_eq_ok.mp hr
  injection hk' with hk'
  subst hk'
  dsimp only at hmap ⊢
  rw [hu.rangeSize_eq, hu.aligndown_eq, hu.forRange_eq, hone, hg] at hmap
  obtain ⟨g', hg', hmap⟩ := bind_eq_ok.mp hmap
  injection hmap with hmap
  subst hmap
  have hlt : virt < kernelVirtualBase := by
    have := (hu.lt (i := 0) (by omega)).1
    omega
  have hv : u32 (virt + 0) = virt := by
    unfold kernelVirtualBase at hlt
    exact u32_of_lt (by omega)
  dsimp only at hg'
  rw [hv] at hg'
  obtain ⟨-, hmaps⟩ := h.spaces.spaces.tables.mapPage_maps (userEntry_of_mem hd hlt) hg'
  refine ⟨hmaps.frame.current, fun c hc hcd i hi => hmaps.entries _ ⟨c, hc, i, hi, rfl⟩ ?_⟩
  obtain ⟨x, -, rfl, -⟩ := h.spaces.spaces.dirs c hc
  obtain ⟨y, -, rfl, -⟩ := h.spaces.spaces.dirs d hd
  have hpd : pdIndex virt < 768 := by
    unfold pdIndex
    unfold kernelVirtualBase at hlt
    omega
  unfold slotAddr kpheapBlockSize at hcd ⊢
  omega

theorem Translations.set_page (σ : Translations) (d p : ℕ) (frame : ℕ → Option ℕ) :
    σ.set d 4096 (p * 4096) frame = Function.update σ d (Function.update (σ d) p (frame 0)) := by
  have hone : pageCount 4096 = 0 + 1 := by rw [pageCount, alignup_of_dvd (by decide)]
  rw [Translations.set, hone, overwrite_succ_eq_update, overwrite_zero, Nat.add_zero,
    Nat.mul_div_cancel _ (by norm_num)]

theorem userRange_page {p : ℕ} (hp : p < userPages) : UserRange 4096 (p * 4096) := by
  refine ⟨Nat.mul_mod_left _ _, by norm_num, ?_⟩
  rw [alignup_of_dvd (by decide)]
  unfold userPages at hp
  unfold kernelVirtualBase
  omega

/-- One page of the copy: a new frame with the bytes of the old one. -/
structure CopiedPage (p f pd tr cpd : ℕ) (k k' : Kernel) (ds : List ℕ) (σ : Translations)
    (rv : List (ℕ × ℕ)) (a : ℕ) : Prop where
  frames : PrivateFrames k' ds (Function.update σ tr (Function.update (σ tr) p (some a)))
    ((a, 4096) :: rv)
  fresh : ∀ v ∈ rv, a + 4096 ≤ v.1 ∨ v.1 + v.2 ≤ a
  ram : k'.ram = overwrite k.ram a 4096 fun i => k.ram (f + i)
  current : k'.paging.currentPageDirectory = cpd
  words : ∀ c ∈ ds, c ≠ tr → ∀ i < 768, k'.paging.word (c + 4 * i) = k.paging.word (c + 4 * i)

theorem PrivateFrames.copyPage (h : PrivateFrames k ds σ rv) {fuel p f pd tr cpd : ℕ}
    (hpd : pd ∈ ds) (htr : tr ∈ ds) (hne : pd ≠ tr) (hp : p < userPages) (hf : σ pd p = some f)
    (hr : copyPage fuel (p * 4096) pd tr cpd k = .ok k')
    (hend : k'.heap.baseEnd = k.heap.baseEnd) :
    ∃ a, CopiedPage p f pd tr cpd k k' ds σ rv a := by
  have hu := userRange_page hp
  obtain ⟨⟨b, k₅⟩, hrange, hfree⟩ := bind_eq_ok.mp hr
  obtain ⟨k₁, hmap, hrange⟩ := bind_eq_ok.mp hrange
  obtain ⟨⟨b', k₂⟩, halloc, hrange⟩ := bind_eq_ok.mp hrange
  obtain ⟨k₃, hfrom, hrange⟩ := bind_eq_ok.mp hrange
  obtain ⟨k₄, hto, hrange⟩ := bind_eq_ok.mp hrange
  cases hrange
  dsimp only at hfrom hto hfree
  -- the new frame
  obtain ⟨a, k₀, -, hnew, h₁, hk₁⟩ := h.mapMemory htr hu (by norm_num) hmap
  obtain ⟨hcurrent, hwords⟩ := h.mapMemory_words htr hu hmap
  rw [Translations.set_page, Nat.zero_mul, Nat.add_zero] at h₁
  rw [alignup_of_dvd (by decide)] at hnew h₁
  have hram₁ : k₁.ram = k.ram := by
    rw [hk₁]
    exact hnew.ram
  -- the buffer
  have hblock := h₁.sound.kmalloc (by norm_num) halloc
  obtain ⟨hgrown, hsame⟩ := h₁.sound.kmalloc_grown (by norm_num) halloc
  have hmapgrown := mapMemory_grown h.sound hmap
  -- it was there, since the heap has not grown
  have hk₂ : k₂ = { k₁ with heap := k₂.heap } := by
    obtain ⟨m, hm, hmem⟩ := memcpyFromUser_frame hfrom
    have hk₄ := memcpyToUser_frame hto
    have hheap : (k₄.switchTo cpd).heap = { k₂.heap with mem := m } := by
      rw [Kernel.switchTo, hk₄, hm]
      rfl
    have hstored := hblock.sound.store hblock.live (m := m) fun x hx => hmem x (by
      have := hblock.enough
      omega)
    obtain ⟨bs, hi⟩ := hheap ▸ hstored.sound
    obtain ⟨-, hend', -⟩ := (hi.kfree_holds (hheap ▸ hblock.live)).of_ok hfree
    rw [hheap] at hend'
    dsimp only at hend'
    have h₂ := hgrown.2
    have h₁ := hmapgrown.2
    apply hsame
    omega
  have h₂ : Represents k₂ ds (Function.update σ tr (Function.update (σ tr) p (some a))) :=
    h₁.spaces.of_paging hblock.sound (by rw [hk₂])
  have hold : Function.update σ tr (Function.update (σ tr) p (some a)) pd p = some f := by
    rw [Function.update_of_ne hne]
    exact hf
  have hcopy : Function.update σ tr (Function.update (σ tr) p (some a)) tr p = some a := by
    rw [Function.update_self, Function.update_self]
  obtain ⟨m, hm, hbytes, hbytes'⟩ :=
    h₂.copyBytes hblock.live hblock.enough hpd htr hp hold hcopy
  have hstored := hblock.sound.store hblock.live hm
  rw [hbytes] at hfrom
  injection hfrom with hfrom
  subst hfrom
  change memcpyToUser _ _ _
    { k₂ with paging := pdSwitch tr k₂.paging, heap := { k₂.heap with mem := m } } = _ at hto
  rw [hbytes'] at hto
  injection hto with hto
  subst hto
  obtain ⟨bs, hi⟩ := hstored.sound
  obtain ⟨hi', -, hlive', -, hk'⟩ := (hi.kfree_holds (k := Kernel.switchTo
    { k₂ with
      paging := pdSwitch tr k₂.paging
      heap := { k₂.heap with mem := m }
      ram := overwrite k₂.ram a 4096 fun i => k₂.ram (f + i) } cpd) hblock.live).of_ok hfree
  have hpaging : k'.paging = pdSwitch cpd k₁.paging := by
    rw [hk', hk₂]
    rfl
  have hphys : k'.phys = k₁.phys := by
    rw [hk', hk₂]
    rfl
  refine ⟨a, ⟨h₁.congr ⟨_, hi'⟩ hphys hpaging fun rs hi r hr => ?_, hnew.apart, ?_, ?_, ?_⟩⟩
  · -- a node of the list of blocks is not the buffer
    have hnode : r.key ∈ k₁.heap.live := hi.phys.live r (by simpa using hr)
    rw [hlive']
    refine (List.mem_erase_of_ne ?_).mpr ?_
    · rintro rfl
      exact hblock.fresh hnode
    · exact (hblock.keeps _ hnode).1
  · have hram : k₂.ram = k.ram := by
      rw [hk₂]
      exact hram₁
    rw [hk', ← hram]
    rfl
  · rw [hpaging]
    rfl
  · intro c hc hcd i hi
    rw [hpaging]
    exact hwords c hc hcd i hi

end PrivateFrames

/-! ## The loops -/

/-- The state of the copy before page `m`; it started at `k₀`. -/
structure CopiedUpTo (m pd tr cpd : ℕ) (k₀ : Kernel) (ds : List ℕ) (σ₀ : Translations)
    (rv₀ : List (ℕ × ℕ)) (k : Kernel) (σ : Translations) (rv : List (ℕ × ℕ)) : Prop where
  frames : PrivateFrames k ds σ rv
  others : ∀ c, c ≠ tr → σ c = σ₀ c
  behind : ∀ p, m ≤ p → σ tr p = none
  absent : ∀ p < m, σ₀ pd p = none → σ tr p = none
  copied : ∀ p < m, ∀ f, σ₀ pd p = some f → ∃ a, σ tr p = some a ∧
    ∀ i < 4096, k.ram (a + i) = k₀.ram (f + i)
  members : ∀ v, v ∈ rv ↔ v ∈ rv₀ ∨ ∃ p < m, σ tr p = some v.1 ∧ v.2 = 4096
  bytes : ∀ v ∈ rv₀, ∀ y, v.1 ≤ y → y < v.1 + v.2 → k.ram y = k₀.ram y
  fresh : ∀ p a, σ tr p = some a → ∀ v ∈ rv₀, a + 4096 ≤ v.1 ∨ v.1 + v.2 ≤ a
  current : k.paging.currentPageDirectory = cpd
  words : ∀ i < 768, k.paging.word (pd + 4 * i) = k₀.paging.word (pd + 4 * i)
  baseEnd : k.heap.baseEnd = k₀.heap.baseEnd

section Copy
variable {k₀ k k' : Kernel} {ds : List ℕ} {σ₀ σ : Translations} {rv₀ rv : List (ℕ × ℕ)}
  {m pd tr cpd fuel : ℕ}

theorem CopiedUpTo.kept (h : CopiedUpTo m pd tr cpd k₀ ds σ₀ rv₀ k σ rv) {v : ℕ × ℕ}
    (hv : v ∈ rv₀) : v ∈ rv := (h.members v).mpr (.inl hv)

/-- Pages that are not mapped are passed over. -/
theorem CopiedUpTo.skip (h : CopiedUpTo m pd tr cpd k₀ ds σ₀ rv₀ k σ rv) {m' : ℕ} (hm : m ≤ m')
    (hnone : ∀ p, m ≤ p → p < m' → σ₀ pd p = none) :
    CopiedUpTo m' pd tr cpd k₀ ds σ₀ rv₀ k σ rv := by
  refine { h with
    behind := fun p hp => h.behind p (hm.trans hp)
    absent := fun p hp hz => ?_
    copied := fun p hp f hf => ?_
    members := fun v => (h.members v).trans (or_congr_right ?_) }
  · rcases Nat.lt_or_ge p m with hlt | hge
    · exact h.absent p hlt hz
    · exact h.behind p hge
  · rcases Nat.lt_or_ge p m with hlt | hge
    · exact h.copied p hlt f hf
    · rw [hnone p hge hp] at hf
      cases hf
  · constructor
    · rintro ⟨p, hp, hv⟩
      exact ⟨p, hp.trans_le hm, hv⟩
    · rintro ⟨p, -, hv⟩
      refine ⟨p, Nat.lt_of_not_ge fun hge => ?_, hv⟩
      rw [h.behind p hge] at hv
      cases hv.1

/-- A page that is mapped gets a frame and its bytes. -/
theorem CopiedUpTo.page (h : CopiedUpTo m pd tr cpd k₀ ds σ₀ rv₀ k σ rv)
    (h₀ : PrivateFrames k₀ ds σ₀ rv₀) (hpd : pd ∈ ds) (htr : tr ∈ ds) (hne : pd ≠ tr)
    (hm : m < userPages) {f : ℕ} (hf : σ₀ pd m = some f)
    (hr : copyPage fuel (m * 4096) pd tr cpd k = .ok k')
    (hend : k'.heap.baseEnd = k₀.heap.baseEnd) :
    ∃ σ' rv', CopiedUpTo (m + 1) pd tr cpd k₀ ds σ₀ rv₀ k' σ' rv' := by
  have hf' : σ pd m = some f := by
    rw [h.others pd hne]
    exact hf
  obtain ⟨a, hpage⟩ := h.frames.copyPage hpd htr hne hm hf' hr (hend.trans h.baseEnd.symm)
  -- the bytes of older reservations stay
  have hstay : ∀ v ∈ rv, ∀ y, v.1 ≤ y → y < v.1 + v.2 → k'.ram y = k.ram y := by
    intro v hv y hy hy'
    have := hpage.fresh v hv
    rw [hpage.ram, overwrite_of_notMem (by omega)]
  have hnew : ∀ p, p ≠ m → Function.update σ tr (Function.update (σ tr) m (some a)) tr p = σ tr p := by
    intro p hp
    rw [Function.update_self, Function.update_of_ne hp]
  have hself : Function.update σ tr (Function.update (σ tr) m (some a)) tr m = some a := by
    rw [Function.update_self, Function.update_self]
  refine ⟨_, _, hpage.frames, fun c hc => ?_, fun p hp => ?_, fun p hp hz => ?_, fun p hp g hg => ?_,
    fun v => ?_, fun v hv y hy hy' => ?_, fun p b hb v hv => ?_,
    hpage.current, fun i hi => (hpage.words pd hpd hne i hi).trans (h.words i hi), hend⟩
  · rw [Function.update_of_ne hc, h.others c hc]
  · rw [hnew p (by omega)]
    exact h.behind p (by omega)
  · have hpm : p ≠ m := by
      rintro rfl
      rw [hf] at hz
      cases hz
    rw [hnew p hpm]
    exact h.absent p (by omega) hz
  · rcases Nat.lt_succ_iff_lt_or_eq.mp hp with hlt | rfl
    · obtain ⟨b, hb, hbytes⟩ := h.copied p hlt g hg
      refine ⟨b, (hnew p (by omega)).trans hb, fun i hi => ?_⟩
      obtain ⟨v, hv, hlo, hhi⟩ := h.frames.owned tr htr p b hb
      rw [hstay v hv _ (by omega) (by omega)]
      exact hbytes i hi
    · rw [hf, Option.some.injEq] at hg
      subst hg
      refine ⟨a, hself, fun i hi => ?_⟩
      rw [hpage.ram, overwrite_of_mem (by omega) (by omega), Nat.add_sub_cancel_left]
      obtain ⟨v, hv, hlo, hhi⟩ := h₀.owned pd hpd p f hf
      exact h.bytes v hv _ (by omega) (by omega)
  · rw [List.mem_cons, h.members v]
    constructor
    · rintro (rfl | hv | ⟨p, hp, hpv, hv⟩)
      · exact .inr ⟨m, by omega, hself, rfl⟩
      · exact .inl hv
      · exact .inr ⟨p, by omega, (hnew p (by omega)).trans hpv, hv⟩
    · rintro (hv | ⟨p, hp, hpv, hv⟩)
      · exact .inr (.inl hv)
      · rcases Nat.lt_succ_iff_lt_or_eq.mp hp with hlt | rfl
        · rw [hnew p (by omega)] at hpv
          exact .inr (.inr ⟨p, hlt, hpv, hv⟩)
        · rw [hself, Option.some.injEq] at hpv
          exact .inl (Prod.ext hpv.symm hv)
  · rw [hstay v (h.kept hv) y hy hy']
    exact h.bytes v hv y hy hy'
  · by_cases hpm : p = m
    · subst hpm
      rw [hself, Option.some.injEq] at hb
      exact hb ▸ hpage.fresh v (h.kept hv)
    · rw [hnew p hpm] at hb
      exact h.fresh p b hb v hv

/-- A table entry is zero exactly if its page is not mapped. -/
theorem CopiedUpTo.entry_zero_iff (h : CopiedUpTo m pd tr cpd k₀ ds σ₀ rv₀ k σ rv) (hpd : pd ∈ ds)
    (hne : pd ≠ tr) {p s : ℕ} (hp : p < userPages) (hs : s < 1024)
    (ht : IsTable (k₀.paging.word (pd + 4 * (p / 1024))) s) :
    k.paging.word (slotAddr s + 4 * (p % 1024)) = 0 ↔ σ₀ pd p = none := by
  have hrange : p / 1024 < 768 := by
    unfold userPages at hp
    omega
  rw [← h.words _ hrange] at ht
  have hleaf := leafAt_of_isTable ht hs (Nat.mod_lt p (by norm_num : 0 < 1024))
  have hentry := h.frames.spaces.entries pd hpd p hp
  rw [Paging.pageEntry, hleaf, h.others pd hne] at hentry
  have hiff := entryOf_ne_zero_iff (pageFlags_pos k.paging pd) (σ₀ pd p)
  rw [← hentry] at hiff
  rw [← not_iff_not, ← ne_eq, hiff, Option.isSome_iff_ne_none]

theorem CopiedUpTo.tableEntry {i j s : ℕ}
    (h : CopiedUpTo (i * 1024 + j) pd tr cpd k₀ ds σ₀ rv₀ k σ rv)
    (h₀ : PrivateFrames k₀ ds σ₀ rv₀) (hpd : pd ∈ ds) (htr : tr ∈ ds) (hne : pd ≠ tr) (hi : i < 768)
    (hj : j < 1024) (hs : s < 1024) (ht : IsTable (k₀.paging.word (pd + 4 * i)) s)
    (hr : copyTableEntry fuel (slotAddr s) i j pd tr cpd k = .ok k')
    (hend : k'.heap.baseEnd = k₀.heap.baseEnd) :
    ∃ σ' rv', CopiedUpTo (i * 1024 + (j + 1)) pd tr cpd k₀ ds σ₀ rv₀ k' σ' rv' := by
  have hp : i * 1024 + j < userPages := by
    unfold userPages
    omega
  have hdiv : (i * 1024 + j) / 1024 = i := by omega
  have hmod : (i * 1024 + j) % 1024 = j := by omega
  have hzero := h.entry_zero_iff hpd hne hp hs (by rwa [hdiv])
  rw [hmod] at hzero
  unfold copyTableEntry at hr
  split_ifs at hr with hz
  · cases hr
    refine ⟨σ, rv, h.skip (by omega) fun p hp hp' => ?_⟩
    have hpj : p = i * 1024 + j := by omega
    rw [hpj]
    exact hzero.mp hz
  · obtain ⟨f, hf⟩ := Option.ne_none_iff_exists'.mp (hzero.not.mp hz)
    rw [show i * 2 ^ 22 + j * 2 ^ 12 = (i * 1024 + j) * 4096 by ring] at hr
    obtain ⟨σ', rv', h'⟩ := h.page h₀ hpd htr hne hp hf hr hend
    rw [Nat.add_assoc] at h'
    exact ⟨σ', rv', h'⟩

theorem CopiedUpTo.table {i j n s : ℕ}
    (h : CopiedUpTo (i * 1024 + j) pd tr cpd k₀ ds σ₀ rv₀ k σ rv)
    (h₀ : PrivateFrames k₀ ds σ₀ rv₀) (hpd : pd ∈ ds) (htr : tr ∈ ds) (hne : pd ≠ tr) (hi : i < 768)
    (hj : j + n ≤ 1024) (hs : s < 1024) (ht : IsTable (k₀.paging.word (pd + 4 * i)) s)
    (hr : copyTable fuel (slotAddr s) i pd tr cpd n j k = .ok k')
    (hend : k'.heap.baseEnd = k₀.heap.baseEnd) :
    ∃ σ' rv', CopiedUpTo (i * 1024 + (j + n)) pd tr cpd k₀ ds σ₀ rv₀ k' σ' rv' := by
  induction n generalizing k σ rv j with
  | zero =>
    cases hr
    exact ⟨σ, rv, h⟩
  | succ n ih =>
    obtain ⟨k₁, hk₁, hr⟩ := bind_eq_ok.mp hr
    have hgrown := copyTableEntry_grown h.frames.sound hk₁
    have hrest := copyTable_grown hgrown.1 hr
    obtain ⟨σ₁, rv₁, h₁⟩ := h.tableEntry h₀ hpd htr hne hi (by omega) hs ht hk₁ (by
      have := h.baseEnd
      have := hgrown.2
      have := hrest.2
      omega)
    rw [show j + (n + 1) = j + 1 + n by ring]
    exact ih h₁ (by omega) hr

/-- The table of an entry, as the loop finds it. -/
theorem tableAddr_eq {entry s : ℕ} (hs : s < 1024) (ht : IsTable entry s) :
    u32 (frameOf entry + kernelVirtualBase) = slotAddr s := by
  rw [ht.frameOf_eq]
  exact entryAddr_eq (q := 0) hs (by norm_num)

/-- One directory entry: its pages are not mapped, or in a table. -/
theorem CopiedUpTo.dirEntry {i : ℕ} (h : CopiedUpTo (i * 1024) pd tr cpd k₀ ds σ₀ rv₀ k σ rv)
    (h₀ : PrivateFrames k₀ ds σ₀ rv₀) (hpd : pd ∈ ds) (htr : tr ∈ ds) (hne : pd ≠ tr) (hi : i < 768)
    (hr : copyEntry fuel i pd tr cpd k = .ok k') (hend : k'.heap.baseEnd = k₀.heap.baseEnd) :
    ∃ σ' rv', CopiedUpTo ((i + 1) * 1024) pd tr cpd k₀ ds σ₀ rv₀ k' σ' rv' := by
  have hown : userEntry ds (pd + 4 * i) := ⟨pd, hpd, i, hi, rfl⟩
  unfold copyEntry at hr
  dsimp only at hr
  rw [h.words i hi] at hr
  by_cases hz : k₀.paging.word (pd + 4 * i) = 0
  · rw [if_pos hz] at hr
    cases hr
    refine ⟨σ, rv, h.skip (by omega) fun p hp hp' => ?_⟩
    have hentry := h₀.spaces.entries pd hpd p (by
      unfold userPages
      omega)
    rw [Paging.pageEntry, Paging.leafAt, show p / 1024 = i by omega, if_pos (.inl hz)] at hentry
    by_contra hsome
    exact (entryOf_ne_zero_iff (pageFlags_pos _ _) _).mpr
      (Option.isSome_iff_ne_none.mpr hsome) hentry.symm
  · obtain ⟨hlarge, -⟩ | ⟨s, hs, -, ht, -⟩ := h₀.spaces.spaces.tables.table _ hown hz
    · exact hlarge.elim
    · rw [if_neg hz, ht.pageSizeBit_eq, if_neg (by norm_num), tableAddr_eq hs ht] at hr
      rw [← Nat.add_zero (i * 1024)] at h
      obtain ⟨σ', rv', h'⟩ := h.table h₀ hpd htr hne hi (Nat.zero_add 1024).le hs ht hr hend
      rw [Nat.zero_add, ← Nat.succ_mul] at h'
      exact ⟨σ', rv', h'⟩

theorem CopiedUpTo.entries {i n : ℕ} (h : CopiedUpTo (i * 1024) pd tr cpd k₀ ds σ₀ rv₀ k σ rv)
    (h₀ : PrivateFrames k₀ ds σ₀ rv₀) (hpd : pd ∈ ds) (htr : tr ∈ ds) (hne : pd ≠ tr)
    (hi : i + n ≤ 768) (hr : copyEntries fuel pd tr cpd n i k = .ok k')
    (hend : k'.heap.baseEnd = k₀.heap.baseEnd) :
    ∃ σ' rv', CopiedUpTo ((i + n) * 1024) pd tr cpd k₀ ds σ₀ rv₀ k' σ' rv' := by
  induction n generalizing k σ rv i with
  | zero =>
    cases hr
    exact ⟨σ, rv, h⟩
  | succ n ih =>
    obtain ⟨k₁, hk₁, hr⟩ := bind_eq_ok.mp hr
    have hgrown := copyEntry_grown h.frames.sound hk₁
    have hrest := copyEntries_grown hgrown.1 hr
    obtain ⟨σ₁, rv₁, h₁⟩ := h.dirEntry h₀ hpd htr hne (by omega) hk₁ (by
      have := h.baseEnd
      have := hgrown.2
      have := hrest.2
      omega)
    rw [show i + (n + 1) = i + 1 + n by ring]
    exact ih h₁ (by omega) hr

/-- A new directory maps no page. -/
theorem PrivateFrames.clone (h : PrivateFrames k ds σ rv) {d : ℕ} {g : Paging}
    (hr : getKernelPdClone k.paging = .ok (d, g)) : d ∉ ds ∧
      PrivateFrames { k with paging := g } (d :: ds) (Function.update σ d fun _ => none) rv := by
  have hnew := (h.spaces.spaces.clone hr (fun _ => False) fun _ hb => hb.elim).1
  obtain ⟨rs, hi⟩ := h.blocks
  have hold : ∀ c ∈ d :: ds, ∀ p f, Function.update σ d (fun _ => none) c p = some f →
      c ∈ ds ∧ σ c p = some f := by
    intro c hc p f hf
    rcases List.mem_cons.mp hc with rfl | hc
    · rw [Function.update_self] at hf
      cases hf
    · have hcd : c ≠ d := fun hcd => hnew (hcd ▸ hc)
      rw [Function.update_of_ne hcd] at hf
      exact ⟨hc, hf⟩
  refine ⟨hnew, (SpaceStep.getKernelPdClone hr).represents h.spaces,
    ⟨rs, hi.congr h.sound rfl fun r hr => hi.phys.live r (by simpa using hr)⟩, ?_, ?_⟩
  · intro c hc p f hf
    obtain ⟨hc, hf⟩ := hold c hc p f hf
    exact h.owned c hc p f hf
  · intro v hv c hc e he p q f g hf hg
    obtain ⟨hc, hf⟩ := hold c hc p f hf
    obtain ⟨he, hg⟩ := hold e he q g hg
    exact h.placed v hv c hc e he p q f g hf hg

/-- Nothing has been copied yet. -/
theorem CopiedUpTo.start (pd : ℕ) (h : PrivateFrames k ds σ rv) {g : Paging}
    (hclone : getKernelPdClone k.paging = .ok (tr, g)) :
    CopiedUpTo 0 pd tr k.paging.currentPageDirectory { k with paging := g } (tr :: ds)
      (Function.update σ tr fun _ => none) rv { k with paging := g }
      (Function.update σ tr fun _ => none) rv := by
  have hcurrent : g.currentPageDirectory = k.paging.currentPageDirectory :=
    (h.spaces.spaces.clone hclone (fun _ => False) fun _ hb => hb.elim).2.2.1.current
  refine ⟨(h.clone hclone).2, fun _ _ => rfl, fun p _ => by rw [Function.update_self],
    fun p hp => ?_, fun p hp => ?_, fun v => ?_, fun _ _ _ _ _ => rfl, fun p a ha => ?_, hcurrent,
    fun _ _ => rfl, rfl⟩
  · omega
  · omega
  · simp
  · rw [Function.update_self] at ha
    cases ha

/-- The directory that `copy_adress_space` returns. -/
theorem PrivateFrames.copyAdressSpace (h : PrivateFrames k ds σ rv) (hpd : pd ∈ ds)
    (hr : copyAdressSpace fuel pd k = .ok (tr, k')) (hend : k'.heap.baseEnd = k.heap.baseEnd) :
    tr ∉ ds ∧ ∃ g σ' rv', CopiedUpTo userPages pd tr k.paging.currentPageDirectory
      { k with paging := g } (tr :: ds) (Function.update σ tr fun _ => none) rv k' σ' rv' := by
  obtain ⟨⟨d, g⟩, hclone, hr⟩ := bind_eq_ok.mp hr
  obtain ⟨k₁, hcopy, hr⟩ := bind_eq_ok.mp hr
  cases hr
  obtain ⟨hnew, h₀⟩ := h.clone hclone
  have hne : pd ≠ tr := fun heq => hnew (heq ▸ hpd)
  have hstart := CopiedUpTo.start pd h hclone
  rw [← Nat.zero_mul 1024] at hstart
  obtain ⟨σ', rv', h'⟩ := hstart.entries h₀ (List.mem_cons_of_mem _ hpd) List.mem_cons_self hne
    (by decide) hcopy hend
  exact ⟨hnew, g, σ', rv', { h' with
    frames := h'.frames.switchTo _
    current := rfl }⟩

end Copy

end VkKernel
