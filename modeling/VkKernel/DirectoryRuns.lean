import VkKernel.FreeRanges

/-!
# Directories that calls have led to

Boot maps the image, the page heap and the first heap of the kernel through three tables of its
own. All other tables are in slots of the page heap, and every entry of a directory has one of
its own, whatever ranges have been mapped and unmapped. So `map_memory` maps a free range exactly
if `MapsRange` holds.
-/

namespace VkKernel
open Outcome

/-! ## Boot -/

/-- The entries that the loader, `install_page_heap` and `kheap_install` write. -/
def BootEntry (j : ℕ) : Prop := 768 ≤ j ∧ j < 771

instance (j : ℕ) : Decidable (BootEntry j) := inferInstanceAs (Decidable (768 ≤ j ∧ j < 771))

/-- The kernel page directory and the tables `kernel_page_table`, `kpheap_page_table` and
`kheap_page_table` are pages of the kernel image. -/
structure KernelImage (table : ℕ → ℕ) (kd : ℕ) : Prop where
  directory : kernelVirtualBase ≤ kd ∧ kd + 4096 ≤ kpheapVirtBase
  aligned : kd % 4096 = 0
  tables : ∀ j, BootEntry j → kernelVirtualBase ≤ table j ∧ table j + 4096 ≤ kpheapVirtBase
  tablesAligned : ∀ j, BootEntry j → table j % 4096 = 0
  apart : ∀ j, BootEntry j → table j ≠ kd

/-- The entry for a table of the image. -/
def bootWord (table : ℕ → ℕ) (j : ℕ) : ℕ := table j - kernelVirtualBase + 3

/-- The paging structures that boot leaves. -/
structure BootTables (table : ℕ → ℕ) (g : Paging) : Prop where
  image : KernelImage table g.kernelPageDirectory
  entries : ∀ j < 1024,
    g.word (g.kernelPageDirectory + 4 * j) = if BootEntry j then bootWord table j else 0
  pages : ∀ j, BootEntry j → ∀ q < 1024, g.word (table j + 4 * q) ≠ 0

/-! ## Calls -/

/-- The three tables of boot stay full. -/
def RangeCall.SparesBoot (c : RangeCall) : Prop :=
  c.unmaps = true → ∀ add < rangeSize c.size c.virt,
    ¬BootEntry (pdIndex (u32 (aligndown c.virt 4096 + add)))

/-- One completed call, with the list of the directories that are in use. Ranges can be mapped and
unmapped in all of them and in the kernel page directory, in both halves. -/
inductive DirectoryStep : Kernel × List ℕ → Kernel × List ℕ → Prop
  | getKernelPdClone {k : Kernel} {ds : List ℕ} {d : ℕ} {g : Paging} :
      getKernelPdClone k.paging = .ok (d, g) →
        DirectoryStep (k, ds) ({ k with paging := g }, d :: ds)
  | range {k k' : Kernel} {ds : List ℕ} {c : RangeCall} {d : ℕ} :
      d ∈ k.paging.kernelPageDirectory :: ds → c.SparesBoot → c.run d k = .ok k' →
      DirectoryStep (k, ds) (k', ds)
  | pdSwitch {k : Kernel} {ds : List ℕ} {d : ℕ} :
      DirectoryStep (k, ds) ({ k with paging := pdSwitch d k.paging }, ds)
  | ptFree {k : Kernel} {ds : List ℕ} {d : ℕ} : d ∈ ds →
      DirectoryStep (k, ds) ({ k with paging := ptFree d k.paging }, ds.erase d)
  | kheapExpand {k k' : Kernel} {ds : List ℕ} {n : ℕ} :
      (∀ p, some p ∈ k.processes.drop 1 → p.pageDirectory ∈ k.paging.kernelPageDirectory :: ds) →
      kheapExpand (kmalloc n) k = .ok k' → DirectoryStep (k, ds) (k', ds)
  | heap {k k' : Kernel} {ds : List ℕ} : HeapStep k k' → k'.paging = k.paging →
      DirectoryStep (k, ds) (k', ds)

/-- The runs from a kernel without directories of processes. -/
def DirectoryRun (k0 : Kernel) (s : Kernel × List ℕ) : Prop :=
  Relation.ReflTransGen DirectoryStep (k0, []) s

/-! ## The invariant -/

/-- The pages of directories and of the tables of boot. -/
def PagingPage (table : ℕ → ℕ) (ds : List ℕ) (p : ℕ) : Prop :=
  p ∈ ds ∨ ∃ j, BootEntry j ∧ p = table j

def pagingWord (table : ℕ → ℕ) (ds : List ℕ) (a : ℕ) : Prop :=
  ∃ p, PagingPage table ds p ∧ ∃ q < 1024, a = p + 4 * q

/-- The entries of a directory that calls can change. -/
def ownWord (d a : ℕ) : Prop := ∃ j < 1024, ¬BootEntry j ∧ a = d + 4 * j

/-- The words of all directories, and of the tables of boot, that are no such entries. -/
def otherWord (table : ℕ → ℕ) (ds : List ℕ) (d a : ℕ) : Prop := pagingWord table ds a ∧ ¬ownWord d a

/-- Every directory has tables of its own, apart from all directories. -/
structure Directories (table : ℕ → ℕ) (ds : List ℕ) (g : Paging) : Prop where
  image : KernelImage table g.kernelPageDirectory
  nodup : ds.Nodup
  slots : ∀ d ∈ ds, ∃ i < 1024, d = slotAddr i ∧ g.kpheapBlocks i = true
  tables : ∀ d ∈ g.kernelPageDirectory :: ds,
    Tables True (ownWord d) (otherWord table (g.kernelPageDirectory :: ds) d) g
  entries : ∀ d ∈ g.kernelPageDirectory :: ds, ∀ j, BootEntry j →
    g.word (d + 4 * j) = bootWord table j
  pages : ∀ j, BootEntry j → ∀ q < 1024, g.word (table j + 4 * q) ≠ 0

section Words
variable {table : ℕ → ℕ} {ds : List ℕ} {g g' : Paging} {d : ℕ}

theorem Directories.aligned (h : Directories table ds g) (hd : d ∈ g.kernelPageDirectory :: ds) :
    d % 4096 = 0 ∧ kernelVirtualBase ≤ d := by
  rcases List.mem_cons.mp hd with rfl | hd
  · exact ⟨h.image.aligned, h.image.directory.1⟩
  · obtain ⟨i, hi, rfl, -⟩ := h.slots d hd
    unfold slotAddr kpheapVirtBase kpheapBlockSize kernelVirtualBase
    omega

theorem ownWord.pagingWord {a : ℕ} (ha : ownWord d a) (hd : d ∈ ds) : pagingWord table ds a := by
  obtain ⟨j, hj, -, rfl⟩ := ha
  exact ⟨d, .inl hd, j, hj, rfl⟩

theorem Directories.page_aligned (h : Directories table ds g) {p : ℕ}
    (hp : PagingPage table (g.kernelPageDirectory :: ds) p) :
    p % 4096 = 0 ∧ kernelVirtualBase ≤ p := by
  rcases hp with hp | ⟨j, hj, rfl⟩
  · exact h.aligned hp
  · exact ⟨h.image.tablesAligned j hj, (h.image.tables j hj).1⟩

theorem Directories.high (h : Directories table ds g) {a : ℕ} (hd : d ∈ g.kernelPageDirectory :: ds)
    (ha : ownWord d a ∨ otherWord table (g.kernelPageDirectory :: ds) d a) :
    kernelVirtualBase ≤ a := by
  have hword : pagingWord table (g.kernelPageDirectory :: ds) a :=
    ha.elim (fun ha => ha.pagingWord hd) And.left
  obtain ⟨p, hp, q, -, rfl⟩ := hword
  exact (h.page_aligned hp).2.trans (Nat.le_add_right _ _)

/-- The words of another page are other words. -/
theorem Directories.other_of_ne (h : Directories table ds g) (hd : d ∈ g.kernelPageDirectory :: ds)
    {p q : ℕ}
    (hp : PagingPage table (g.kernelPageDirectory :: ds) p) (hne : p ≠ d) (hq : q < 1024) :
    otherWord table (g.kernelPageDirectory :: ds) d (p + 4 * q) := by
  refine ⟨⟨p, hp, q, hq, rfl⟩, ?_⟩
  rintro ⟨j, hj, -, heq⟩
  have hpa := (h.page_aligned hp).1
  have hda := (h.aligned hd).1
  omega

/-- So are the entries of boot. -/
theorem Directories.other_of_boot (hd : d ∈ ds) {j : ℕ} (hj : BootEntry j) :
    otherWord table ds d (d + 4 * j) := by
  have hlt : j < 1024 := lt_trans hj.2 (by norm_num)
  refine ⟨⟨d, .inl hd, j, hlt, rfl⟩, ?_⟩
  rintro ⟨l, -, hl, heq⟩
  have hjl : j = l := by omega
  exact hl (hjl ▸ hj)

theorem Directories.table_ne (h : Directories table ds g) (hd : d ∈ g.kernelPageDirectory :: ds)
    {j : ℕ}
    (hj : BootEntry j) : table j ≠ d := by
  rcases List.mem_cons.mp hd with rfl | hd
  · exact h.image.apart j hj
  · obtain ⟨i, -, rfl, -⟩ := h.slots d hd
    have hlow := (h.image.tables j hj).2
    unfold slotAddr
    omega

/-- Tables do not depend on more than their entries and the slots in use. -/
theorem Tables.of_words {large : Prop} {own keep : ℕ → Prop} (h : Tables large own keep g)
    (hw : ∀ b, own b → g'.word b = g.word b)
    (hused : ∀ i < 1024, g.kpheapBlocks i = true → g'.kpheapBlocks i = true)
    (hpse : g'.cpuPse = g.cpuPse) : Tables large own keep g' := by
  refine ⟨fun a ha i hi hfree => h.apart a ha i hi ?_, fun a ha hne => ?_,
    fun a b i ha hb hta htb => ?_,
    h.disjoint⟩
  · cases hu : g.kpheapBlocks i with
    | false => rfl
    | true =>
      rw [hused i hi hu] at hfree
      cases hfree
  · rw [hw a ha] at hne ⊢
    rw [hpse]
    exact (h.table a ha hne).imp_right fun ⟨i, hi, hu, ht, hoff⟩ => ⟨i, hi, hused i hi hu, ht, hoff⟩
  · rw [hw a ha] at hta
    rw [hw b hb] at htb
    exact h.unshared a b i ha hb hta htb

/-- A change in one directory. -/
theorem Directories.of_frame (h : Directories table ds g) (hd : d ∈ g.kernelPageDirectory :: ds)
    (ht : Tables True (ownWord d) (otherWord table (g.kernelPageDirectory :: ds) d) g')
    (hf : PagingFrame (otherWord table (g.kernelPageDirectory :: ds) d) g g') :
    Directories table ds g' := by
  have hkd := hf.kernel
  refine ⟨hkd ▸ h.image, h.nodup, fun c hc => ?_, fun c hc => ?_, fun c hc j hj => ?_,
    fun j hj q hq => ?_⟩
  · obtain ⟨i, hi, hci, hu⟩ := h.slots c hc
    exact ⟨i, hi, hci, hf.used i hi hu⟩
  · rw [hkd] at hc ⊢
    by_cases hcd : c = d
    · exact hcd ▸ ht
    · refine (h.tables c hc).of_words (fun b hb => hf.words b ?_) hf.used hf.pse
      obtain ⟨j, hj, -, rfl⟩ := hb
      exact h.other_of_ne hd (.inl hc) hcd hj
  · rw [hkd] at hc
    have hlt : j < 1024 := lt_trans hj.2 (by norm_num)
    rw [← h.entries c hc j hj]
    apply hf.words
    by_cases hcd : c = d
    · rw [hcd]
      exact other_of_boot hd hj
    · exact h.other_of_ne hd (.inl hc) hcd hlt
  · rw [hf.words _ (h.other_of_ne hd (.inr ⟨j, hj, rfl⟩) (h.table_ne hd hj) hq)]
    exact h.pages j hj q hq

/-! ## The entries of boot -/

/-- What boot has mapped is mapped in every directory. -/
theorem Directories.isMapped_boot (h : Directories table ds g)
    (hd : d ∈ g.kernelPageDirectory :: ds) {virt : ℕ}
    (hv : BootEntry (pdIndex virt)) : isMapped virt d g = true := by
  have hlow := h.image.tables _ hv
  have haligned := h.image.tablesAligned _ hv
  have hq := ptIndex_lt virt
  have hpage := h.pages _ hv _ hq
  have hentry := h.entries d hd _ hv
  unfold bootWord at hentry
  unfold kernelVirtualBase kpheapVirtBase at hlow
  have haddr : pageAddr (frameOf (g.word (d + 4 * pdIndex virt))) virt =
      table (pdIndex virt) + 4 * ptIndex virt := by
    rw [hentry]
    unfold pageAddr frameOf kernelVirtualBase
    rw [u32_of_lt (by omega)]
    omega
  unfold isMapped
  dsimp only
  rw [haddr, hentry, if_neg (by omega), if_neg (by unfold kernelVirtualBase; omega)]
  exact decide_eq_true hpage

theorem pdIndex_lt {virt : ℕ} (hv : virt < 2 ^ 32) : pdIndex virt < 1024 := by
  unfold pdIndex
  omega

theorem Directories.own (h : Directories table ds g) (hd : d ∈ g.kernelPageDirectory :: ds)
    {virt : ℕ}
    (hv : virt < 2 ^ 32) (hm : isMapped virt d g = false) : ownWord d (d + 4 * pdIndex virt) := by
  refine ⟨pdIndex virt, pdIndex_lt hv, fun hboot => ?_, rfl⟩
  rw [h.isMapped_boot hd hboot] at hm
  cases hm

/-! ## Pages -/

theorem Directories.mapPageTable (h : Directories table ds g) (hd : d ∈ g.kernelPageDirectory :: ds)
    {phys virt : ℕ} (hv : virt < 2 ^ 32) (hr : mapPageTable phys virt d g = .ok g') :
    Directories table ds g' := by
  by_cases hboot : BootEntry (pdIndex virt)
  · -- the entry is not empty
    have hentry := h.entries d hd _ hboot
    have hne : g.word (d + 4 * pdIndex virt) ≠ 0 := by
      rw [hentry]
      unfold bootWord
      omega
    rw [VkKernel.mapPageTable] at hr
    split_ifs at hr <;> cases hr
  · obtain ⟨ht, hf⟩ := (h.tables d hd).mapPageTable (fun b => h.high hd)
      ⟨_, pdIndex_lt hv, hboot, rfl⟩ hr
    exact h.of_frame hd ht hf

theorem Directories.mapPage (h : Directories table ds g) (hd : d ∈ g.kernelPageDirectory :: ds)
    {phys virt : ℕ}
    (hv : virt < 2 ^ 32) (hr : mapPage phys virt d g = .ok g') : Directories table ds g' := by
  by_cases hboot : BootEntry (pdIndex virt)
  · exact absurd ⟨g', hr⟩ (mapPage_of_isMapped (h.isMapped_boot hd hboot))
  · obtain ⟨-, ht, hf, -⟩ := (h.tables d hd).mapPage ⟨_, pdIndex_lt hv, hboot, rfl⟩ hr
    exact h.of_frame hd ht hf

theorem Directories.unmapPageTable (h : Directories table ds g)
    (hd : d ∈ g.kernelPageDirectory :: ds)
    {virt : ℕ} (hv : virt < 2 ^ 32) (hboot : ¬BootEntry (pdIndex virt))
    (hr : unmapPageTable virt d g = .ok g') : Directories table ds g' := by
  obtain ⟨ht, hf⟩ := (h.tables d hd).unmapPageTable ⟨_, pdIndex_lt hv, hboot, rfl⟩ hr
  exact h.of_frame hd ht hf

theorem Directories.unmapPage (h : Directories table ds g) (hd : d ∈ g.kernelPageDirectory :: ds)
    {virt : ℕ}
    (hv : virt < 2 ^ 32) (hboot : ¬BootEntry (pdIndex virt)) (hr : unmapPage virt d g = .ok g') :
    Directories table ds g' := by
  obtain ⟨ht, hf, -⟩ := (h.tables d hd).unmapPage ⟨_, pdIndex_lt hv, hboot, rfl⟩ hr
  exact h.of_frame hd ht hf

/-! ## Calls keep the invariant -/

/-- One call on a range. -/
theorem Directories.run {k k' : Kernel} {c : RangeCall} (h : Directories table ds k.paging)
    (hd : d ∈ k.paging.kernelPageDirectory :: ds) (hheap : ∃ bs, HeapInv k.heap bs)
    (hc : c.SparesBoot) (hr : c.run d k = .ok k') :
    Directories table ds k'.paging ∧ ∃ bs, HeapInv k'.heap bs := by
  -- the directory stays one of them
  have hrun := RangeCall.run_pages
    (fun g => g.kernelPageDirectory = k.paging.kernelPageDirectory ∧ Directories table ds g)
    (fun hmaps add hadd phys g1 g2 h1 hp => ?_) (fun hunmaps add hadd g1 g2 h1 hp => ?_)
    ⟨rfl, h⟩ hheap hr
  · exact ⟨hrun.1.2, hrun.2⟩
  · have hd1 : d ∈ g1.kernelPageDirectory :: ds := h1.1 ▸ hd
    have hkept : PageStep (u32 (aligndown c.virt 4096 + add)) d g1 g2 :=
      hp.elim (.mapPageTable phys) (.mapPage phys)
    refine ⟨hkept.kernelPageDirectory.trans h1.1, ?_⟩
    exact hp.elim (h1.2.mapPageTable hd1 (u32_lt _)) (h1.2.mapPage hd1 (u32_lt _))
  · have hd1 : d ∈ g1.kernelPageDirectory :: ds := h1.1 ▸ hd
    have hkept : PageStep (u32 (aligndown c.virt 4096 + add)) d g1 g2 :=
      hp.elim .unmapPageTable .unmapPage
    have hspared := hc hunmaps add hadd
    refine ⟨hkept.kernelPageDirectory.trans h1.1, ?_⟩
    exact hp.elim (h1.2.unmapPageTable hd1 (u32_lt _) hspared)
      (h1.2.unmapPage hd1 (u32_lt _) hspared)

/-- The heap maps its new end in all directories. -/
theorem Directories.mapInProcesses {k k' : Kernel} {n : ℕ} {ps : List (Option Process)}
    (h : Directories table ds k.paging) (hheap : ∃ bs, HeapInv k.heap bs)
    (hps : ∀ p, some p ∈ ps → p.pageDirectory ∈ k.paging.kernelPageDirectory :: ds)
    (hr : mapInProcesses (kmalloc n) ps k = .ok k') : Directories table ds k'.paging := by
  induction ps generalizing k with
  | nil => exact Except.ok.inj hr ▸ h
  | cons p ps ih =>
    cases p with
    | none => exact ih h hheap (fun q hq => hps q (List.mem_cons_of_mem _ hq)) hr
    | some p =>
      obtain ⟨k1, hk1, hr⟩ := bind_eq_ok.mp hr
      have hkd := ((allocFrame_kmalloc n).mapMemory hk1).paging.kernel
      obtain ⟨h1, hheap1⟩ :=
        h.run (c := .mapMemory n 0x400000 k.heap.baseEnd) (hps p List.mem_cons_self) hheap
        nofun hk1
      exact ih h1 hheap1 (fun q hq => hkd ▸ hps q (List.mem_cons_of_mem _ hq)) hr

theorem Directories.kheapExpand {k k' : Kernel} {n : ℕ} (h : Directories table ds k.paging)
    (hheap : ∃ bs, HeapInv k.heap bs)
    (hps : ∀ p, some p ∈ k.processes.drop 1 → p.pageDirectory ∈ k.paging.kernelPageDirectory :: ds)
    (hr : kheapExpand (kmalloc n) k = .ok k') : Directories table ds k'.paging := by
  unfold VkKernel.kheapExpand at hr
  split_ifs at hr
  · cases hr
  · obtain ⟨k1, hk1, hr⟩ := bind_eq_ok.mp hr
    obtain ⟨k2, hk2, hr⟩ := bind_eq_ok.mp hr
    obtain ⟨h3, -, hr⟩ := bind_eq_ok.mp hr
    have hpaging : k'.paging = k2.paging := by rw [← Except.ok.inj hr]
    rw [hpaging]
    have hframe := (allocFrame_kmalloc n).mapMemory hk1
    obtain ⟨h1, hheap1⟩ :=
      h.run (c := .mapMemory n 0x400000 k.heap.baseEnd) List.mem_cons_self hheap nofun hk1
    refine h1.mapInProcesses hheap1 (fun p hp => ?_) hk2
    rw [hframe.processes] at hp
    rw [hframe.paging.kernel]
    exact hps p hp

theorem otherWord_or {a : ℕ} (ha : pagingWord table ds a) (d : ℕ) :
    ownWord d a ∨ otherWord table ds d a := by
  by_cases hown : ownWord d a
  · exact .inl hown
  · exact .inr ⟨ha, hown⟩

/-- The tables of one directory among others. -/
theorem Tables.of_directory (hd : d ∈ ds)
    (hapart : ∀ a, pagingWord table ds a → ∀ i < 1024, g.kpheapBlocks i = false → OffSlot i a)
    (htable : ∀ j < 1024, ¬BootEntry j → g.word (d + 4 * j) ≠ 0 →
      (True ∧ g.cpuPse = true ∧ pageSizeBit (g.word (d + 4 * j)) = 1) ∨
      ∃ i < 1024, g.kpheapBlocks i = true ∧ IsTable (g.word (d + 4 * j)) i ∧
        ∀ b, pagingWord table ds b → OffSlot i b)
    (hunshared : ∀ j < 1024, ¬BootEntry j → ∀ l < 1024, ¬BootEntry l → ∀ i,
      IsTable (g.word (d + 4 * j)) i → IsTable (g.word (d + 4 * l)) i → j = l) :
    Tables True (ownWord d) (otherWord table ds d) g := by
  have hword : ∀ a, ownWord d a ∨ otherWord table ds d a → pagingWord table ds a :=
    fun a ha => ha.elim (fun ha => ha.pagingWord hd) And.left
  refine ⟨fun a ha => hapart a (hword a ha), ?_, ?_, fun a ha hk => hk.2 ha⟩
  · rintro a ⟨j, hj, hboot, rfl⟩ hne
    exact (htable j hj hboot hne).imp_right fun ⟨i, hi, hu, ht, hoff⟩ =>
      ⟨i, hi, hu, ht, fun b hb => hoff b (hword b hb)⟩
  · rintro a b i ⟨j, hj, hboot, rfl⟩ ⟨l, hl, hboot', rfl⟩ hta htb
    rw [hunshared j hj hboot l hl hboot' i hta htb]

/-- What `get_kernel_pd_clone` does with slot `i`. -/
structure ClonedInto (i : ℕ) (g g' : Paging) : Prop where
  lt : i < 1024
  free : g.kpheapBlocks i = false
  taken : g'.kpheapBlocks i = true
  used : ∀ l < 1024, g.kpheapBlocks l = true → g'.kpheapBlocks l = true
  kernel : g'.kernelPageDirectory = g.kernelPageDirectory
  pse : g'.cpuPse = g.cpuPse
  others : ∀ a, OffSlot i a → g'.word a = g.word a
  low : ∀ j < 768, g'.word (slotAddr i + 4 * j) = 0
  high : ∀ j < 1024, 768 ≤ j → g'.word (slotAddr i + 4 * j) = g.word (g.kernelPageDirectory + 4 * j)

theorem getKernelPdClone_into (hr : getKernelPdClone g = .ok (d, g'))
    (hoff : ∀ i < 1024, g.kpheapBlocks i = false →
      ∀ j < 1024, OffSlot i (g.kernelPageDirectory + 4 * j)) :
    ∃ i, d = slotAddr i ∧ ClonedInto i g g' := by
  obtain ⟨⟨tr, g1⟩, hpt, hr⟩ := bind_eq_ok.mp hr
  obtain ⟨i, hi, hfree, rfl, hg1⟩ := ptAlloc_eq_ok hpt
  obtain ⟨rfl, rfl⟩ := Prod.mk.inj (Except.ok.inj hr)
  have hbase : kernelVirtualBase / 2 ^ 22 = 768 := by decide
  rw [hbase]
  have hkernel1 : g1.kernelPageDirectory = g.kernelPageDirectory := by rw [hg1]; rfl
  have hpse1 : g1.cpuPse = g.cpuPse := by rw [hg1]; rfl
  have hblocks1 : g1.kpheapBlocks = Function.update g.kpheapBlocks i true := by rw [hg1]
  have hsame1 : ∀ a, OffSlot i a → g1.word a = g.word a := by
    intro a ha
    rw [hg1]
    exact clearPage_of_offSlot ha
  have hzero1 : ∀ j < 1024, g1.word (slotAddr i + 4 * j) = 0 := by
    intro j hj
    rw [hg1]
    exact clearPage_entry hj
  obtain ⟨hw, hblocks, hkernel, -, hpse⟩ :=
    copyKernelHalf_frame (g := g1) (slotAddr i) (1024 - 768) 768
  refine ⟨i, rfl, hi, hfree, ?_, fun l hl hu => ?_, hkernel.trans hkernel1, hpse.trans hpse1,
    fun a ha => ?_,
    fun j hj => ?_, fun j hj hj' => ?_⟩
  · rw [hblocks, hblocks1]
    exact Function.update_self _ _ _
  · rw [hblocks, hblocks1, Function.update_apply, hu]
    exact ite_self _
  · rw [hw a fun j _ hj => ha.ne (by omega), hsame1 a ha]
  · rw [hw _ fun l hl _ => by omega]
    exact hzero1 j (by omega)
  · rw [copyKernelHalf_copy _ hj' (by omega), hkernel1, hsame1 _ (hoff i hi hfree j hj)]
    -- the copy does not write to its source
    intro l _ hl m _ hm
    rw [hkernel1]
    exact (hoff i hi hfree l (by omega)).ne (by omega)

/-- A new directory. -/
theorem Directories.clone (h : Directories table ds g) (hr : getKernelPdClone g = .ok (d, g')) :
    Directories table (d :: ds) g' := by
  have hkd : g.kernelPageDirectory ∈ g.kernelPageDirectory :: ds := List.mem_cons_self
  have hkt := h.tables _ hkd
  have hfreeOff : ∀ i < 1024, g.kpheapBlocks i = false →
      ∀ a, pagingWord table (g.kernelPageDirectory :: ds) a → OffSlot i a :=
    fun i hi hf a ha => hkt.apart a (otherWord_or ha _) i hi hf
  obtain ⟨i, rfl, hs⟩ := getKernelPdClone_into hr fun i hi hf j hj =>
    hfreeOff i hi hf _ ⟨_, .inl hkd, j, hj, rfl⟩
  have hoff := hfreeOff i hs.lt hs.free
  have hnot : ∀ l, g.kpheapBlocks l = true → l ≠ i := by
    rintro l hl rfl
    rw [hs.free] at hl
    cases hl
  have hin : ∀ q < 1024, ¬OffSlot i (slotAddr i + 4 * q) := by
    intro q hq
    unfold OffSlot
    omega
  have hfree : ∀ l < 1024, g'.kpheapBlocks l = false → g.kpheapBlocks l = false ∧ l ≠ i := by
    intro l hl hf
    constructor
    · cases hu : g.kpheapBlocks l with
      | false => rfl
      | true =>
        rw [hs.used l hl hu] at hf
        cases hf
    · rintro rfl
      rw [hs.taken] at hf
      cases hf
  -- a slot apart from the old words is apart from the new ones
  have hwords : ∀ a, pagingWord table (g.kernelPageDirectory :: slotAddr i :: ds) a →
      pagingWord table (g.kernelPageDirectory :: ds) a ∨ ¬OffSlot i a := by
    rintro a ⟨p, hp | hp, q, hq, rfl⟩
    · rcases List.mem_cons.mp hp with hp | hp
      · exact .inl ⟨p, .inl (hp ▸ hkd), q, hq, rfl⟩
      · rcases List.mem_cons.mp hp with rfl | hp
        · exact .inr (hin q hq)
        · exact .inl ⟨p, .inl (List.mem_cons_of_mem _ hp), q, hq, rfl⟩
    · exact .inl ⟨p, .inr hp, q, hq, rfl⟩
  have hfar : ∀ l, l ≠ i → (∀ b, pagingWord table (g.kernelPageDirectory :: ds) b → OffSlot l b) →
      ∀ b, pagingWord table (g.kernelPageDirectory :: slotAddr i :: ds) b → OffSlot l b := by
    intro l hl hb b hb'
    rcases hwords b hb' with hb' | hb'
    · exact hb b hb'
    · exact offSlot_of_inside hb' hl
  have hapart : ∀ a, pagingWord table (g.kernelPageDirectory :: slotAddr i :: ds) a → ∀ l < 1024,
      g'.kpheapBlocks l = false → OffSlot l a := by
    intro a ha l hl hf
    obtain ⟨hfl, hli⟩ := hfree l hl hf
    exact hfar l hli (hfreeOff l hl hfl) a ha
  refine ⟨hs.kernel.symm ▸ h.image, ?_, ?_, ?_, ?_, ?_⟩
  · refine List.nodup_cons.mpr ⟨fun hmem => ?_, h.nodup⟩
    obtain ⟨l, hl, heq, hu⟩ := h.slots _ hmem
    apply hnot l hu
    unfold slotAddr kpheapBlockSize at heq
    omega
  · intro c hc
    rcases List.mem_cons.mp hc with rfl | hc
    · exact ⟨i, hs.lt, rfl, hs.taken⟩
    · obtain ⟨l, hl, hcl, hu⟩ := h.slots c hc
      exact ⟨l, hl, hcl, hs.used l hl hu⟩
  · intro c hc
    rw [hs.kernel] at hc ⊢
    by_cases hci : c = slotAddr i
    · -- the entries of the kernel half are copies
      have hcopy : ∀ j < 1024, g'.word (c + 4 * j) ≠ 0 →
          g'.word (c + 4 * j) = g.word (g.kernelPageDirectory + 4 * j) := by
        intro j hj hne
        rw [hci] at hne ⊢
        by_cases hj' : j < 768
        · exact absurd (hs.low j hj') hne
        · exact hs.high j hj (not_lt.mp hj')
      refine Tables.of_directory hc hapart (fun j hj hboot hne => ?_)
        fun j hj hboot l hl hboot' m hta htb => ?_
      · have hword := hcopy j hj hne
        rw [hword] at hne ⊢
        rw [hs.pse]
        refine (hkt.table _ ⟨j, hj, hboot, rfl⟩ hne).imp_right fun ⟨m, hm, hu, ht, hb⟩ => ?_
        exact ⟨m, hm, hs.used m hm hu, ht, hfar m (hnot m hu) fun b hb' =>
          hb b (otherWord_or hb' _)⟩
      · rw [hcopy j hj hta.ne_zero] at hta
        rw [hcopy l hl htb.ne_zero] at htb
        have heq := hkt.unshared _ _ m ⟨j, hj, hboot, rfl⟩ ⟨l, hl, hboot', rfl⟩ hta htb
        omega
    · have hc' : c ∈ g.kernelPageDirectory :: ds := by
        rcases List.mem_cons.mp hc with hc | hc
        · exact hc ▸ hkd
        · exact List.mem_cons_of_mem _ ((List.mem_cons.mp hc).resolve_left hci)
      have hct := h.tables c hc'
      have hword : ∀ j < 1024, g'.word (c + 4 * j) = g.word (c + 4 * j) :=
        fun j hj => hs.others _ (hoff _ ⟨c, .inl hc', j, hj, rfl⟩)
      refine Tables.of_directory hc hapart (fun j hj hboot hne => ?_)
        fun j hj hboot l hl hboot' m hta htb => ?_
      · rw [hword j hj] at hne ⊢
        rw [hs.pse]
        refine (hct.table _ ⟨j, hj, hboot, rfl⟩ hne).imp_right fun ⟨m, hm, hu, ht, hb⟩ => ?_
        exact ⟨m, hm, hs.used m hm hu, ht, hfar m (hnot m hu) fun b hb' =>
          hb b (otherWord_or hb' _)⟩
      · rw [hword j hj] at hta
        rw [hword l hl] at htb
        have heq := hct.unshared _ _ m ⟨j, hj, hboot, rfl⟩ ⟨l, hl, hboot', rfl⟩ hta htb
        omega
  · intro c hc j hj
    have hlt : j < 1024 := lt_trans hj.2 (by norm_num)
    rw [hs.kernel] at hc
    by_cases hci : c = slotAddr i
    · rw [hci, hs.high j hlt hj.1]
      exact h.entries _ hkd j hj
    · have hc' : c ∈ g.kernelPageDirectory :: ds := by
        rcases List.mem_cons.mp hc with hc | hc
        · exact hc ▸ hkd
        · exact List.mem_cons_of_mem _ ((List.mem_cons.mp hc).resolve_left hci)
      rw [hs.others _ (hoff _ ⟨c, .inl hc', j, hlt, rfl⟩)]
      exact h.entries c hc' j hj
  · intro j hj q hq
    rw [hs.others _ (hoff _ ⟨_, .inr ⟨j, hj, rfl⟩, q, hq, rfl⟩)]
    exact h.pages j hj q hq

/-- `exit_process` frees the slot of the directory. -/
theorem Directories.ptFree (h : Directories table ds g) (hd : d ∈ ds) :
    Directories table (ds.erase d) (VkKernel.ptFree d g) := by
  obtain ⟨i, hi, rfl, hu⟩ := h.slots d hd
  have hmem : ∀ c ∈ ds.erase (slotAddr i), c ≠ slotAddr i ∧ c ∈ ds :=
    fun c hc => (h.nodup.mem_erase_iff).mp hc
  have hdirs : ∀ c ∈ g.kernelPageDirectory :: ds.erase (slotAddr i),
      c ≠ slotAddr i ∧ c ∈ g.kernelPageDirectory :: ds := by
    intro c hc
    rcases List.mem_cons.mp hc with rfl | hc
    · refine ⟨?_, List.mem_cons_self⟩
      have hlow := h.image.directory.2
      unfold slotAddr
      omega
    · exact ⟨(hmem c hc).1, List.mem_cons_of_mem _ (hmem c hc).2⟩
  have hblocks : (VkKernel.ptFree (slotAddr i) g).kpheapBlocks =
      Function.update g.kpheapBlocks i false := by
    have hindex : sub32 (slotAddr i) kpheapVirtBase / kpheapBlockSize = i := by
      have hlt : slotAddr i < 2 ^ 32 := by
        unfold slotAddr kpheapVirtBase kpheapBlockSize
        omega
      have hle : kpheapVirtBase ≤ slotAddr i := Nat.le_add_right _ _
      rw [sub32_of_le hlt hle]
      unfold slotAddr kpheapBlockSize
      omega
    rw [VkKernel.ptFree, hindex]
  -- the words that stay are those of other pages
  have hwords : ∀ a, pagingWord table (g.kernelPageDirectory :: ds.erase (slotAddr i)) a →
      pagingWord table (g.kernelPageDirectory :: ds) a ∧ OffSlot i a := by
    rintro a ⟨p, hp, q, hq, rfl⟩
    have hpage : PagingPage table (g.kernelPageDirectory :: ds) p ∧ p ≠ slotAddr i := by
      rcases hp with hp | ⟨j, hj, rfl⟩
      · exact ⟨.inl (hdirs p hp).2, (hdirs p hp).1⟩
      · exact ⟨.inr ⟨j, hj, rfl⟩, h.table_ne (List.mem_cons_of_mem _ hd) hj⟩
    refine ⟨⟨p, hpage.1, q, hq, rfl⟩, ?_⟩
    have haligned := (h.page_aligned hpage.1).1
    have hne := hpage.2
    unfold OffSlot slotAddr kpheapVirtBase kpheapBlockSize at *
    omega
  have hapart : ∀ a, pagingWord table (g.kernelPageDirectory :: ds.erase (slotAddr i)) a →
      ∀ l < 1024,
      (VkKernel.ptFree (slotAddr i) g).kpheapBlocks l = false → OffSlot l a := by
    intro a ha l hl hf
    obtain ⟨hold, hoff⟩ := hwords a ha
    rw [hblocks, Function.update_apply] at hf
    split_ifs at hf with hli
    · exact hli ▸ hoff
    · exact (h.tables _ List.mem_cons_self).apart a (otherWord_or hold _) l hl hf
  have hused : ∀ l, g.kpheapBlocks l = true →
      (∀ b, pagingWord table (g.kernelPageDirectory :: ds) b → OffSlot l b) →
      (VkKernel.ptFree (slotAddr i) g).kpheapBlocks l = true := by
    intro l hl hoff
    rw [hblocks, Function.update_of_ne _ _ _]
    · exact hl
    · -- the slot of the directory has no table
      rintro rfl
      have hself := hoff (slotAddr l)
        ⟨slotAddr l, .inl (List.mem_cons_of_mem _ hd), 0, by norm_num, rfl⟩
      unfold OffSlot at hself
      omega
  refine ⟨h.image, h.nodup.erase _, fun c hc => ?_, fun c hc => ?_, fun c hc => ?_, h.pages⟩
  · obtain ⟨hne, hc⟩ := hmem c hc
    obtain ⟨l, hl, rfl, hul⟩ := h.slots c hc
    refine ⟨l, hl, rfl, ?_⟩
    rw [hblocks, Function.update_of_ne _ _ _]
    · exact hul
    · rintro rfl
      exact hne rfl
  · have hct := h.tables c (hdirs c hc).2
    refine Tables.of_directory hc hapart (fun j hj hboot hne => ?_)
      fun j hj hboot l hl hboot' m hta htb => ?_
    · apply (hct.table _ ⟨j, hj, hboot, rfl⟩ hne).imp_right
      rintro ⟨m, hm, hum, ht, hb⟩
      have hoff : ∀ b, pagingWord table (g.kernelPageDirectory :: ds) b → OffSlot m b :=
        fun b hb' => hb b (otherWord_or hb' _)
      exact ⟨m, hm, hused m hum hoff, ht, fun b hb' => hoff b (hwords b hb').1⟩
    · have heq := hct.unshared _ _ m ⟨j, hj, hboot, rfl⟩ ⟨l, hl, hboot', rfl⟩ hta htb
      omega
  · exact h.entries c (hdirs c hc).2

/-- After boot no entry has a table of the page heap. -/
theorem BootTables.directories (h : BootTables table g) : Directories table [] g := by
  have hzero : ∀ j < 1024, ¬BootEntry j → g.word (g.kernelPageDirectory + 4 * j) = 0 := by
    intro j hj hboot
    rw [h.entries j hj, if_neg hboot]
  refine ⟨h.image, List.nodup_nil, nofun, fun c hc => ?_, fun c hc j hj => ?_, h.pages⟩
  · rw [List.mem_singleton.mp hc]
    refine Tables.of_directory (List.mem_singleton_self _) ?_ (fun j hj hboot hne => ?_)
      fun j hj hboot l hl hboot' m hta htb => ?_
    · -- the image is below the page heap
      rintro a ⟨p, hp | ⟨j, hj, rfl⟩, q, hq, rfl⟩ i hi _
      · have hlow := h.image.directory.2
        rw [List.mem_singleton.mp hp]
        unfold OffSlot slotAddr
        omega
      · have hlow := (h.image.tables j hj).2
        unfold OffSlot slotAddr
        omega
    · exact absurd (hzero j hj hboot) hne
    · exact absurd (hzero j hj hboot) hta.ne_zero
  · rw [List.mem_singleton.mp hc, h.entries j (lt_trans hj.2 (by norm_num)), if_pos hj]

end Words

/-! ## Runs -/

section Runs
variable {table : ℕ → ℕ} {k0 : Kernel} {s s' : Kernel × List ℕ}

theorem DirectoryStep.inv (hs : DirectoryStep s s') (h : Directories table s.2 s.1.paging)
    (hheap : ∃ bs, HeapInv s.1.heap bs) :
    Directories table s'.2 s'.1.paging ∧ ∃ bs, HeapInv s'.1.heap bs := by
  cases hs with
  | getKernelPdClone hr => exact ⟨h.clone hr, hheap⟩
  | range hd hc hr => exact h.run hd hheap hc hr
  | @pdSwitch k ds d =>
    refine ⟨⟨h.image, h.nodup, h.slots, fun c hc => ?_, h.entries, h.pages⟩, hheap⟩
    exact (h.tables c hc).of_words (fun _ _ => rfl) (fun _ _ hu => hu) rfl
  | ptFree hd => exact ⟨h.ptFree hd, hheap⟩
  | kheapExpand hps hr =>
    obtain ⟨bs, hi⟩ := hheap
    exact ⟨h.kheapExpand ⟨bs, hi⟩ hps hr, HeapStep.inv (.kheapExpand hr) hi⟩
  | heap hstep hg =>
    obtain ⟨bs, hi⟩ := hheap
    refine ⟨?_, hstep.inv hi⟩
    dsimp only
    rw [hg]
    exact h

theorem DirectoryRun.inv (hk : HeapReachable k0) (hb : BootTables table k0.paging)
    (hrun : DirectoryRun k0 s) :
    Directories table s.2 s.1.paging ∧ ∃ bs, HeapInv s.1.heap bs := by
  induction hrun with
  | refl => exact ⟨hb.directories, hk.inv⟩
  | tail _ hstep ih => exact hstep.inv ih.1 ih.2

/-! ## Free ranges -/

/-- Rounding up ends at a multiple, possibly at zero. -/
theorem alignupLoop_page {fuel i : ℕ} (hi : i < 2 ^ 32)
    (hf : i % 4096 = 0 ∨ 4096 ≤ i % 4096 + fuel) :
    alignupLoop 4096 fuel i % 4096 = 0 ∧ alignupLoop 4096 fuel i < 2 ^ 32 := by
  induction fuel generalizing i with
  | zero =>
    rw [alignupLoop]
    omega
  | succ fuel ih =>
    rw [alignupLoop]
    split_ifs with hz
    · exact ⟨hz, hi⟩
    · apply ih (u32_lt _)
      unfold u32
      omega

theorem rangeSize_page (size virt : ℕ) :
    rangeSize size virt % 4096 = 0 ∧ rangeSize size virt < 2 ^ 32 := by
  apply alignupLoop_page (u32_lt _)
  omega

/-- `map_memory` returns, and `get_physical` finds the block at `b` behind the range. -/
def MapsTo (n size virt d b : ℕ) (k : Kernel) : Prop :=
  ∃ k', mapMemory (kmalloc n) size virt d k = .ok k' ∧
    ∀ j < rangeSize size virt, getPhysical (u32 (aligndown virt 4096 + j)) d k'.paging = u32 (b + j)

/-- In every directory that calls have led to, `map_memory` maps a free range exactly if `MapsRange`
holds of the block that it is given. -/
theorem mapMemory_mapsTo_iff (hk : HeapReachable k0) (hb : BootTables table k0.paging)
    (hrun : DirectoryRun k0 s)
    {d : ℕ} (hd : d ∈ s.1.paging.kernelPageDirectory :: s.2) {n size virt b : ℕ} {k1 : Kernel}
    (hfree : ∀ j < rangeSize size virt,
      isMapped (u32 (aligndown virt 4096 + j)) d s.1.paging = false)
    (hmem : reserveBlock (kmalloc n) (rangeSize size virt) (blockTypeFor d s.1.paging) s.1 =
      .ok (b, k1))
    (hslots : emptyEntries s.1.paging d (rangeEntries (rangeSize size virt) (aligndown virt 4096)) ≤
      freeSlots s.1.paging) :
    MapsTo n size virt d b s.1 ↔
      MapsRange s.1.paging d b (rangeSize size virt) (aligndown virt 4096) := by
  obtain ⟨h, bs, hi⟩ := hrun.inv hk hb
  obtain ⟨hsize, hlt⟩ := rangeSize_page size virt
  have hvirt : aligndown virt 4096 % 4096 = 0 := by
    unfold aligndown
    omega
  have haligned := (h.aligned hd).1
  have hpaging := (hi.reserveBlock_paging hmem).1
  have hiff := @Tables.forRange_iff _ _ _ _ (h.tables d hd) b _ _ (fun a => h.high hd) (by omega)
    hvirt hsize hlt (fun j hj => h.own hd (u32_lt _) (hfree j hj)) hfree hslots
  rw [← hiff]
  unfold MapsTo mapMemory
  dsimp only
  rw [hmem, ok_bind]
  dsimp only
  rw [hpaging]
  constructor
  · intro ⟨k', hk', hget⟩
    obtain ⟨g, hg, hk'⟩ := bind_eq_ok.mp hk'
    rw [← Except.ok.inj hk'] at hget
    exact ⟨g, hg, hget⟩
  · intro ⟨g, hg, hget⟩
    refine ⟨{ k1 with paging := g }, ?_, hget⟩
    rw [hg]
    rfl

end Runs
/-! ## After boot -/

/-- The kernel page directory and its tables, which map the first 12 MiB. -/
def bootedTable (j : ℕ) : ℕ := 0xC0200000 + (j - 768) * 4096

def bootedPaging : Paging where
  word a :=
    if 0xC0200000 ≤ a ∧ a < 0xC0203000 then (a - 0xC0200000) / 4 * 4096 + 3
    else if a = 0xC0300C00 then 0x200003
    else if a = 0xC0300C04 then 0x201003
    else if a = 0xC0300C08 then 0x202003
    else 0
  kpheapBlocks _ := false
  kernelPageDirectory := 0xC0300000
  currentPageDirectory := 0xC0300000
  cpuPse := true

def bootedKernel : Kernel := { oneBlockKernel with paging := bootedPaging }

/-- Only the three entries of boot are used. -/
theorem bootedPaging_word {a : ℕ} (ha : 0xC0300000 ≤ a) (hne : a < 0xC0300C00 ∨ 0xC0300C08 < a) :
    bootedPaging.word a = 0 := by
  unfold bootedPaging
  dsimp only
  rw [if_neg (by omega), if_neg (by omega), if_neg (by omega), if_neg (by omega)]

theorem bootedPaging_booted : BootTables bootedTable bootedPaging := by
  have hkd : bootedPaging.kernelPageDirectory = 0xC0300000 := rfl
  have hdirectory : kernelVirtualBase ≤ 0xC0300000 ∧ 0xC0300000 + 4096 ≤ kpheapVirtBase := by decide
  refine ⟨⟨hdirectory, ?_, fun j hj => ?_, fun j hj => ?_, fun j hj => ?_⟩, fun j hj => ?_,
    fun j hj q hq => ?_⟩
  · rw [hkd]
  · unfold BootEntry at hj
    unfold bootedTable kernelVirtualBase kpheapVirtBase
    omega
  · unfold bootedTable
    omega
  · unfold BootEntry at hj
    rw [hkd]
    unfold bootedTable
    omega
  · rw [hkd]
    by_cases hboot : BootEntry j
    · rw [if_pos hboot]
      unfold BootEntry at hboot
      obtain rfl | rfl | rfl : j = 768 ∨ j = 769 ∨ j = 770 := by omega
      · decide
      · decide
      · decide
    · rw [if_neg hboot]
      unfold BootEntry at hboot
      exact bootedPaging_word (by omega) (by omega)
  · unfold BootEntry at hj
    unfold bootedPaging bootedTable
    dsimp only
    rw [if_pos (by omega)]
    omega

theorem oneBlockKernel_withPaging {g : Paging} (h : g.currentPageDirectory = 0xC0300000) :
    HeapReachable { oneBlockKernel with paging := g } :=
  initialList_oneBlockKernel.heap.tail (.other rfl h)

theorem bootedKernel_reachable : HeapReachable bootedKernel := by
  have hcurrent : bootedPaging.currentPageDirectory = 0xC0300000 := rfl
  have hbooted : HeapReachable { oneBlockKernel with paging := bootedPaging } :=
    oneBlockKernel_withPaging hcurrent
  exact hbooted

/-- Nothing is mapped between 0xD0000000 and the end of an 8 MiB range there. -/
theorem bootedPaging_free {j : ℕ} (hj : j < 0x800000) :
    (pdIndex (u32 (0xD0000000 + j)) = 832 ∨ pdIndex (u32 (0xD0000000 + j)) = 833) ∧
      isMapped (u32 (0xD0000000 + j)) 0xC0300000 bootedPaging = false := by
  have hindex : pdIndex (u32 (0xD0000000 + j)) = 832 ∨ pdIndex (u32 (0xD0000000 + j)) = 833 := by
    unfold pdIndex u32
    omega
  have hzero : bootedPaging.word (0xC0300000 + 4 * pdIndex (u32 (0xD0000000 + j))) = 0 :=
    bootedPaging_word (by omega) (by omega)
  refine ⟨hindex, ?_⟩
  unfold isMapped
  dsimp only
  rw [if_pos hzero]

theorem bootedPaging_slots {size : ℕ} (hsize : size ≤ 0x800000) :
    emptyEntries bootedPaging 0xC0300000 (rangeEntries size 0xD0000000) ≤
      freeSlots bootedPaging := by
  have hsub : rangeEntries size 0xD0000000 ⊆ {832, 833} := by
    intro j hj
    obtain ⟨i, hi, rfl⟩ := Finset.mem_image.mp hj
    have hlt := Finset.mem_range.mp hi
    have hindex := (@bootedPaging_free (i * 4096) (by omega)).1
    simpa using hindex
  have hall : ∀ i ∈ Finset.range 1024, bootedPaging.kpheapBlocks i = false := fun i _ => rfl
  have hfree : freeSlots bootedPaging = 1024 := by
    unfold freeSlots
    rw [Finset.filter_true_of_mem hall, Finset.card_range]
  have hcard : (rangeEntries size 0xD0000000).card ≤ 2 :=
    (Finset.card_le_card hsub).trans Finset.card_le_two
  rw [hfree]
  exact (Finset.card_filter_le _ _).trans (hcard.trans (by norm_num))

theorem bootedKernel_reserve (size type : ℕ) (hsize : alignup size 4096 = size)
    (hlt : size ≤ 0x800000) :
    ∃ k1, reserveBlock (kmalloc 1) size type bootedKernel = .ok (0x100000, k1) := by
  have hi0 := (initialList_oneBlockKernel.runInv fun _ => True).phys
  have hi : PhysInv noStale [] bootedKernel ([] ++ freeRegion :: []) :=
    ⟨hi0.heap, hi0.listing, hi0.live, hi0.ascending, hi0.bounded, hi0.tail, hi0.back⟩
  have hroom : bootedKernel.heap.Room (0 + 32) := room_oneBlockKernel.mono (by decide)
  have hlarge : available (alignup size 4096) freeRegion = true := by
    rw [hsize]
    refine available_iff.mpr ⟨?_, rfl, ?_⟩
    · decide
    · exact hlt.trans (by decide)
  obtain ⟨k1, node, hk1, -⟩ := hi.reserveBlock_of_room [] size type 0 hroom (by simp) hlarge
  exact ⟨k1, hk1⟩

/-- One page of the kernel directory. -/
theorem mapMemory_mapsTo_page : MapsTo 1 4096 0xD0000000 0xC0300000 0x100000 bootedKernel := by
  have hsize : rangeSize 4096 0xD0000000 = 4096 := alignup_of_dvd (by decide)
  have hbase : aligndown 0xD0000000 4096 = 0xD0000000 := by decide
  obtain ⟨k1, hk1⟩ := bootedKernel_reserve 4096 (blockTypeFor 0xC0300000 bootedPaging)
    (alignup_of_dvd (by decide)) (by norm_num)
  have hiff := @mapMemory_mapsTo_iff bootedTable bootedKernel (bootedKernel, [])
    bootedKernel_reachable
    bootedPaging_booted .refl 0xC0300000 List.mem_cons_self 1 4096 0xD0000000 0x100000 k1
  rw [hsize, hbase] at hiff
  have hpages : largePages 4096 0xD0000000 = 0 := by decide
  refine (hiff (fun j hj => (bootedPaging_free (by omega)).2) hk1
    (bootedPaging_slots (by norm_num))).mpr ?_
  exact .inr (.inl ⟨hpages, by decide⟩)

/-- 8 MiB of the kernel directory, with a block that is not aligned for a 4 MiB page. -/
theorem not_mapMemory_mapsTo_large : HeapReachable bootedKernel ∧
    BootTables bootedTable bootedKernel.paging ∧
    (∀ j < rangeSize 0x800000 0xD0000000,
      isMapped (u32 (aligndown 0xD0000000 4096 + j)) 0xC0300000 bootedKernel.paging = false) ∧
    emptyEntries bootedKernel.paging 0xC0300000
      (rangeEntries (rangeSize 0x800000 0xD0000000) (aligndown 0xD0000000 4096)) ≤
      freeSlots bootedKernel.paging ∧
    ∃ k1, reserveBlock (kmalloc 1) (rangeSize 0x800000 0xD0000000)
        (blockTypeFor 0xC0300000 bootedKernel.paging) bootedKernel = .ok (0x100000, k1) ∧
      ¬MapsTo 1 0x800000 0xD0000000 0xC0300000 0x100000 bootedKernel := by
  have hsize : rangeSize 0x800000 0xD0000000 = 0x800000 := alignup_of_dvd (by decide)
  have hbase : aligndown 0xD0000000 4096 = 0xD0000000 := by decide
  obtain ⟨k1, hk1⟩ := bootedKernel_reserve 0x800000 (blockTypeFor 0xC0300000 bootedPaging)
    (alignup_of_dvd (by decide)) le_rfl
  rw [hsize, hbase]
  refine ⟨bootedKernel_reachable, bootedPaging_booted, fun j hj => (bootedPaging_free hj).2,
    bootedPaging_slots le_rfl, k1, hk1, fun hmaps => ?_⟩
  obtain ⟨k', hk', -⟩ := hmaps
  unfold mapMemory at hk'
  dsimp only at hk'
  rw [hsize, hbase] at hk'
  have hpaging : bootedKernel.paging = bootedPaging := rfl
  rw [hpaging, hk1, ok_bind] at hk'
  -- the first 4 MiB page ends in a fatal error
  obtain ⟨g, hg, -⟩ := bind_eq_ok.mp hk'
  obtain ⟨g1, hg1, -⟩ := bind_eq_ok.mp hg
  have hpages : largePages 0x800000 0xD0000000 = 1 := by decide
  rw [hpages] at hg1
  obtain ⟨g2, hg2, -⟩ := bind_eq_ok.mp hg1
  have hunaligned : u32 (0x100000 + 0) % 0x400000 ≠ 0 := by decide
  change mapPageTable (u32 (0x100000 + 0)) (u32 (0xD0000000 + 0)) 0xC0300000 k1.paging =
    .ok g2 at hg2
  unfold mapPageTable at hg2
  rw [if_pos hunaligned] at hg2
  cases hg2

end VkKernel
