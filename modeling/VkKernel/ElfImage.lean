import VkKernel.Elf
import VkKernel.UserStores

/-!
# The image of an executable

`elf_load` with the bytes that it moves: the file is read into a buffer of the heap, and the
segments go from there into the memory of the new process, behind its page directory. When it
returns, every segment has its bytes, then zeros, and the rest of user memory is as before.
-/

namespace VkKernel.Elf
open ByteMemory BlockLayout RegionList LinkedList Outcome IntervalUpdate

section
variable (fuel pd cpd : ℕ) (f : File)

/-- The body of the loop over the program headers. The directory of the current process is `cpd`. -/
def loadSegmentBytes (buffer i : ℕ) (s : Segments) : Result Segments :=
  if f.segmentType i ≠ 1 then .ok s
  else if f.pMemsz i = 0 then .ok s
  else do
    let (last, k) ← allocSegment fuel pd f i s.kernel
    let k ← memcpyToUser (f.pVaddr i) (u32 (buffer + f.pOffset i)) (f.pFilesz i) (k.switchTo pd)
    let k ← memsetUser (u32 (f.pVaddr i + f.pFilesz i)) 0 (sub32 (f.pMemsz i) (f.pFilesz i)) k
    .ok ⟨s.segments ++ [(f.pVaddr i, f.pMemsz i)], last, k.switchTo cpd⟩

/-- The loop, with `n` program headers left. -/
def loadSegmentsBytes (buffer : ℕ) : ℕ → ℕ → Segments → Result (Bool × Segments)
  | 0, _, s => .ok (true, s)
  | n + 1, i, s =>
    if isPastEnd f buffer i then .ok (false, s)
    else do
      let s ← loadSegmentBytes fuel pd cpd f buffer i s
      loadSegmentsBytes buffer n (i + 1) s

/-- `read_file` puts the file into the buffer. -/
def readBuffer (buffer : ℕ) (k : Kernel) : Kernel :=
  { k with heap := { k.heap with mem := overwrite k.heap.mem buffer f.length f.bytes } }

/-- `elf_load` with the bytes. -/
def elfLoadBytes (dataLoc : ℕ) (k : Kernel) : Result (ℕ × Segments) := do
  let (buffer, k) ← kmalloc fuel f.length k
  if !f.isRead then .ok (0, ⟨[], dataLoc, k⟩)
  else do
    let (isDone, s) ← loadSegmentsBytes fuel pd cpd f buffer f.phEntryNbr 0
      ⟨[], dataLoc, readBuffer f buffer k⟩
    if !isDone then .ok (0, s)
    else do
      let k ← s.kernel.kfree s.last
      let k ← k.kfree buffer
      .ok (f.programEntry, { s with kernel := k })

end

/-! ## The image -/

/-- The bytes of a segment: those of the file, then zeros. -/
def File.segmentByte (f : File) (i x : ℕ) : UInt8 :=
  if x < f.pFilesz i then f.bytes (f.pOffset i + x) else 0

/-- The segments that the first `i` program headers load. -/
def File.loaded (f : File) (i : ℕ) : List (ℕ × ℕ) :=
  ((List.range i).filter fun j => f.IsLoadable j).map fun j => (f.pVaddr j, f.pMemsz j)

/-- The memory `m` holds the segments of the first `i` program headers, and is like `m₀` in all
pages without one. No two of the segments share a page. -/
structure File.Shows (f : File) (i : ℕ) (m₀ m : ℕ → Option UInt8) : Prop where
  bytes : ∀ j < i, f.IsLoadable j → ∀ x < f.pMemsz j,
    m (f.pVaddr j + x) = some (f.segmentByte j x)
  rest : ∀ v < kernelVirtualBase,
    (∀ j < i, f.IsLoadable j → ¬InRange (f.pMemsz j) (f.pVaddr j) v) → m v = m₀ v
  mapped : ∀ j < i, f.IsLoadable j → ∀ v, InRange (f.pMemsz j) (f.pVaddr j) v → (m v).isSome
  apart : ∀ j < i, f.IsLoadable j → ∀ l < j, f.IsLoadable l → ∀ v,
    ¬(InRange (f.pMemsz j) (f.pVaddr j) v ∧ InRange (f.pMemsz l) (f.pVaddr l) v)

/-- A program header that can be loaded by 4 KiB pages. -/
def File.SmallEntry (f : File) (i : ℕ) : Prop :=
  f.EntryOk i ∧ (f.IsLoadable i → rangeSize (f.pMemsz i) (f.pVaddr i) ≤ 0x400000)

/-- After `i` program headers of a load that started in `k`. -/
structure Loaded (k₀ k : Kernel) (ds : List ℕ) (f : File) (buffer pd i : ℕ) (s : Segments) :
    Prop where
  run : ∃ rv, MemoryRun k₀ (s.kernel, ds, rv)
  lastBlock : ClientBlock s.kernel s.last
  bufferBlock : ClientBlock s.kernel buffer
  ne : buffer ≠ s.last
  room : f.length ≤ s.kernel.heap.size (buffer - 8)
  file : ∀ j < f.length, s.kernel.heap.mem (buffer + j) = f.bytes j
  segments : s.segments = f.loaded i
  image : f.Shows i (k.userByte pd) (s.kernel.userByte pd)
  others : ∀ d ∈ ds, d ≠ pd → ∀ v < kernelVirtualBase, s.kernel.userByte d v = k.userByte d v
  current : s.kernel.paging.currentPageDirectory = k.paging.currentPageDirectory

section Segment
variable {fuel pd cpd buffer i n : ℕ} {f : File} {s s' : Segments}

theorem File.loaded_succ (f : File) (i : ℕ) : f.loaded (i + 1) =
    if f.IsLoadable i then f.loaded i ++ [(f.pVaddr i, f.pMemsz i)] else f.loaded i := by
  unfold File.loaded
  rw [List.range_succ, List.filter_append, List.map_append]
  split_ifs with h
  · simp [h]
  · simp [h]

theorem File.EntryOk.fields (h : f.EntryOk i) (hl : f.IsLoadable i) :
    f.pFilesz i ≤ f.pMemsz i ∧ (f.pFilesz i = 0 ∨ f.pOffset i + f.pFilesz i ≤ f.length) ∧
      f.pVaddr i + f.pMemsz i ≤ 0xC0000000 := (h.2 hl.1).2 hl.2

theorem File.EntryOk.isPastEnd_self (h : f.EntryOk i) (buffer : ℕ) :
    isPastEnd f buffer i = false := by
  have hin := h.1
  have hle : u32 (buffer + f.programHeaderTable + i) ≤ buffer + f.programHeaderTable + i :=
    Nat.mod_le _ _
  unfold File.prgH at hin
  unfold isPastEnd
  rw [decide_eq_false_iff_not]
  omega

/-- The calls for a segment that is loaded. -/
structure SegmentCalls (fuel pd cpd : ℕ) (f : File) (buffer i : ℕ) (s s' : Segments)
    (k₁ k₂ k₃ k₄ k₅ : Kernel) (p : ℕ) : Prop where
  map : mapMemory (kmalloc fuel) (f.pMemsz i) (f.pVaddr i) pd s.kernel = .ok k₁
  element : kmalloc fuel 12 k₁ = .ok (p, k₂)
  next : kmalloc fuel 8 k₂ = .ok (s'.last, k₃)
  copy : storeBytes (f.pVaddr i) (fun j => k₃.heap.mem (u32 (buffer + f.pOffset i) + j))
    (f.pFilesz i) (k₃.switchTo pd) = .ok k₄
  clear : storeBytes (u32 (f.pVaddr i + f.pFilesz i)) (fun _ => 0)
    (sub32 (f.pMemsz i) (f.pFilesz i)) k₄ = .ok k₅
  kernel : s'.kernel = k₅.switchTo cpd
  segments : s'.segments = s.segments ++ [(f.pVaddr i, f.pMemsz i)]

theorem loadSegmentBytes_cases (hr : loadSegmentBytes fuel pd cpd f buffer i s = .ok s') :
    (¬f.IsLoadable i ∧ s' = s) ∨ (f.IsLoadable i ∧
      ∃ k₁ k₂ k₃ k₄ k₅ p, SegmentCalls fuel pd cpd f buffer i s s' k₁ k₂ k₃ k₄ k₅ p) := by
  unfold loadSegmentBytes at hr
  split_ifs at hr with htype hmem
  · cases hr
    exact .inl ⟨fun h => htype h.1, rfl⟩
  · cases hr
    exact .inl ⟨fun h => h.2 hmem, rfl⟩
  · obtain ⟨⟨last, k₃⟩, halloc, hr⟩ := bind_eq_ok.mp hr
    obtain ⟨k₄, hcopy, hr⟩ := bind_eq_ok.mp hr
    obtain ⟨k₅, hclear, hr⟩ := bind_eq_ok.mp hr
    cases hr
    obtain ⟨k₁, hmap, halloc⟩ := bind_eq_ok.mp halloc
    obtain ⟨⟨p, k₂⟩, helement, hnext⟩ := bind_eq_ok.mp halloc
    rw [memcpyToUser_eq_storeBytes] at hcopy
    exact .inr ⟨⟨not_not.mp htype, hmem⟩, k₁, k₂, k₃, k₄, k₅, p, hmap, helement, hnext, hcopy,
      hclear, rfl, rfl⟩

/-- The heap does not shrink on the way. -/
theorem SegmentCalls.grown {k₁ k₂ k₃ k₄ k₅ : Kernel} {p : ℕ}
    (h : SegmentCalls fuel pd cpd f buffer i s s' k₁ k₂ k₃ k₄ k₅ p) (hs : s.kernel.heap.Sound) :
    GrownFrom s.kernel k₁ ∧ GrownFrom k₁ k₂ ∧ GrownFrom k₂ k₃ ∧ s'.kernel.heap = k₃.heap := by
  have h₁ := mapMemory_grown hs h.map
  have h₂ := (h₁.1.kmalloc_grown (by norm_num) h.element).1
  refine ⟨h₁, h₂, (h₂.1.kmalloc_grown (by norm_num) h.next).1, ?_⟩
  rw [h.kernel, Kernel.switchTo, storeBytes_frame h.clear, storeBytes_frame h.copy]
  rfl

theorem loadSegmentBytes_grown (hs : s.kernel.heap.Sound)
    (hr : loadSegmentBytes fuel pd cpd f buffer i s = .ok s') : GrownFrom s.kernel s'.kernel := by
  rcases loadSegmentBytes_cases hr with ⟨-, rfl⟩ | ⟨-, k₁, k₂, k₃, k₄, k₅, p, h⟩
  · exact ⟨hs, le_rfl⟩
  · obtain ⟨h₁, h₂, h₃, hheap⟩ := h.grown hs
    have h' := (h₁.trans h₂).trans h₃
    unfold GrownFrom at h' ⊢
    rwa [hheap]

theorem loadSegmentsBytes_grown {isDone : Bool} (hs : s.kernel.heap.Sound)
    (hr : loadSegmentsBytes fuel pd cpd f buffer n i s = .ok (isDone, s')) :
    GrownFrom s.kernel s'.kernel := by
  induction n generalizing i s with
  | zero =>
    cases hr
    exact ⟨hs, le_rfl⟩
  | succ n ih =>
    rw [loadSegmentsBytes] at hr
    split_ifs at hr
    · cases hr
      exact ⟨hs, le_rfl⟩
    · obtain ⟨s₁, hs₁, hr⟩ := bind_eq_ok.mp hr
      have h₁ := loadSegmentBytes_grown hs hs₁
      exact h₁.trans (ih h₁.1 hr)

end Segment

section Load
variable {k₀ k : Kernel} {rs₀ : List PRegion} {ds : List ℕ} {fuel pd buffer i n : ℕ} {f : File}
  {s s' : Segments}

/-- A segment with its bytes. -/
theorem Loaded.segment (h₀ : InitialList k₀ rs₀) (h : Loaded k₀ k ds f buffer pd i s)
    (hpd : pd ∈ ds) (hf : ∀ j < i + 1, f.SmallEntry j)
    (hr : loadSegmentBytes fuel pd k.paging.currentPageDirectory f buffer i s = .ok s')
    (hend : s'.kernel.heap.baseEnd = s.kernel.heap.baseEnd) :
    Loaded k₀ k ds f buffer pd (i + 1) s' := by
  obtain ⟨rv, hrun⟩ := h.run
  obtain ⟨σ, hframes⟩ := hrun.frames h₀
  have hstep : ∀ {P : ℕ → Prop}, (∀ j < i + 1, f.IsLoadable j → P j) ↔
      (∀ j < i, f.IsLoadable j → P j) ∧ (f.IsLoadable i → P i) := by
    intro P
    constructor
    · exact fun hall => ⟨fun j hj => hall j (by omega), hall i (by omega)⟩
    · intro hall j hj hl
      rcases Nat.lt_succ_iff_lt_or_eq.mp hj with hj | rfl
      · exact hall.1 j hj hl
      · exact hall.2 hl
  rcases loadSegmentBytes_cases hr with ⟨hl, rfl⟩ | ⟨hl, k₁, k₂, k₃, k₄, k₅, p, hc⟩
  · refine { h with segments := ?_, image := ⟨?_, fun v hv hout => ?_, ?_, ?_⟩ }
    · rw [File.loaded_succ, if_neg hl]
      exact h.segments
    · exact hstep.mpr ⟨h.image.bytes, fun hl' => absurd hl' hl⟩
    · exact h.image.rest v hv (hstep.mp hout).1
    · exact hstep.mpr ⟨h.image.mapped, fun hl' => absurd hl' hl⟩
    · exact hstep.mpr ⟨h.image.apart, fun hl' => absurd hl' hl⟩
  have hfi := hf i (Nat.lt_succ_self i)
  obtain ⟨hsize, hinFile, huser⟩ := hfi.1.fields hl
  obtain ⟨hu, hpos, hin, -⟩ := userRange_segment (Nat.pos_of_ne_zero hl.2) huser (hfi.2 hl)
  obtain ⟨⟨hs₁, he₁⟩, ⟨hs₂, he₂⟩, ⟨hs₃, he₃⟩, hheap⟩ := hc.grown hframes.sound
  rw [hheap] at hend
  have hfile : u32 (f.pVaddr i + f.pFilesz i) = f.pVaddr i + f.pFilesz i := u32_of_lt (by omega)
  have hzeros : sub32 (f.pMemsz i) (f.pFilesz i) = f.pMemsz i - f.pFilesz i :=
    sub32_of_le (by omega) hsize
  -- the calls, one after the other
  obtain ⟨⟨rv', hrun₁⟩, hnew, hsame₁⟩ := hrun.mapMemory h₀ hpd hu hpos hc.map
  obtain ⟨hrun₂, hnew₂⟩ := hrun₁.kmalloc h₀ (by norm_num) hc.element (by omega)
  obtain ⟨hrun₃, hnew₃⟩ := hrun₂.kmalloc h₀ (by norm_num) hc.next (by omega)
  have hrun₃' : MemoryRun k₀ (k₃.switchTo pd, ds, rv') := hrun₃.tail ⟨_, .pdSwitch⟩
  have hcopy := hc.copy
  have hclear := hc.clear
  rw [hfile, hzeros] at hclear
  have hcur₃ : (k₃.switchTo pd).paging.currentPageDirectory = pd := rfl
  obtain ⟨hrun₄, hbytes₄, hsame₄⟩ := hrun₃'.storeBytes h₀ hcur₃ hpd
    (by unfold kernelVirtualBase; omega) hcopy
  have hcur : k₄.paging.currentPageDirectory = pd := by
    rw [storeBytes_frame hcopy]
    rfl
  obtain ⟨hrun₅, hbytes₅, hsame₅⟩ := hrun₄.storeBytes h₀ hcur hpd
    (by unfold kernelVirtualBase; omega) hclear
  have hrun' : MemoryRun k₀ (s'.kernel, ds, rv') := by
    rw [hc.kernel]
    exact hrun₅.tail ⟨_, .pdSwitch⟩
  -- the blocks
  obtain ⟨hbuf₁, hkeep₁⟩ := h.bufferBlock.mapMemory hframes hc.map
  obtain ⟨hbuf₂, -, hkeep₂⟩ := hnew₂.others _ hbuf₁
  obtain ⟨hbuf₃, hne, hkeep₃⟩ := hnew₃.others _ hbuf₂
  have hkeep := (hkeep₁.trans hkeep₂).trans hkeep₃
  have hphys : s'.kernel.phys = k₃.phys := by
    rw [hc.kernel, Kernel.switchTo, storeBytes_frame hclear, storeBytes_frame hcopy]
    rfl
  have hroom : f.length ≤ k₃.heap.size (buffer - 8) := by
    rw [hkeep.size]
    exact h.room
  have hmem : ∀ j < f.length, k₃.heap.mem (buffer + j) = f.bytes j := by
    intro j hj
    have hlt := h.room
    rw [hkeep.payload _ (Nat.le_add_right _ j) (by omega)]
    exact h.file j hj
  have huserByte : s'.kernel.userByte = k₅.userByte := by
    rw [hc.kernel]
    rfl
  -- the bytes of other pages
  have hsame : ∀ e ∈ ds, ∀ v < kernelVirtualBase,
      (e = pd → ¬InRange (f.pMemsz i) (f.pVaddr i) v) →
        s'.kernel.userByte e v = s.kernel.userByte e v := by
    intro e he v hv hout
    have hout' : e = pd → v < f.pVaddr i ∨ f.pVaddr i + f.pMemsz i ≤ v := by
      intro heq
      by_contra hbetween
      have hrange := hin (v - f.pVaddr i) (by omega)
      rw [Nat.add_sub_cancel' (by omega)] at hrange
      exact hout heq hrange
    calc s'.kernel.userByte e v = k₅.userByte e v := by rw [huserByte]
      _ = k₄.userByte e v := hsame₅ e he v hv fun heq => by have := hout' heq; omega
      _ = k₃.userByte e v := hsame₄ e he v hv fun heq => by have := hout' heq; omega
      _ = k₁.userByte e v := by
          rw [hnew₃.only, hnew₂.only]
          rfl
      _ = s.kernel.userByte e v := hsame₁ e he v hv hout
  refine ⟨⟨rv', hrun'⟩, ?_, ?_, hne, by rw [hheap]; exact hroom, by rw [hheap]; exact hmem, ?_,
    ⟨hstep.mpr ⟨fun j hj hl' x hx => ?_, fun _ x hx => ?_⟩, fun v hv hout => ?_,
      hstep.mpr ⟨fun j hj hl' v hv => ?_, fun _ v hv => ?_⟩,
      hstep.mpr ⟨h.image.apart, fun _ j hj hl' v hv => ?_⟩⟩,
    fun e he hne v hv => ?_, ?_⟩
  · exact hnew₃.client.congr hheap hphys
  · exact hbuf₃.congr hheap hphys
  · rw [hc.segments, h.segments, File.loaded_succ, if_pos hl]
  · -- an earlier segment is not in the new pages, which were not mapped
    have hold := h.image.bytes j hj hl' x hx
    have hjuser := ((hf j (by omega)).1.fields hl').2.2
    rw [hsame pd hpd _ (by unfold kernelVirtualBase; omega), hold]
    intro _ hrange
    rw [(hnew _ hrange).1] at hold
    cases hold
  · have hlt : f.pVaddr i + x < kernelVirtualBase := by
      unfold kernelVirtualBase
      omega
    rw [huserByte, File.segmentByte]
    split_ifs with hfilesz
    · have hoffset : f.pOffset i + f.pFilesz i ≤ f.length := by omega
      have hbound := (hs₃.bounds hbuf₃.live).2
      rw [hsame₅ pd hpd _ hlt (fun _ => by omega), hbytes₄ x hfilesz, u32_of_lt (by omega),
        Nat.add_assoc, hmem _ (by omega)]
    · have haddr : f.pVaddr i + x = f.pVaddr i + f.pFilesz i + (x - f.pFilesz i) := by omega
      rw [haddr, hbytes₅ _ (by omega)]
  · obtain ⟨hold, hthis⟩ := hstep.mp hout
    rw [hsame pd hpd v hv fun _ => hthis hl]
    exact h.image.rest v hv hold
  · have hold := h.image.mapped j hj hl' v hv
    have hfj := hf j (by omega)
    obtain ⟨-, -, -, hlt⟩ := userRange_segment (Nat.pos_of_ne_zero hl'.2)
      (hfj.1.fields hl').2.2 (hfj.2 hl')
    rw [hsame pd hpd v (hlt v hv), hold]
    intro _ hrange
    rw [(hnew v hrange).1] at hold
    cases hold
  · have htranslate : s'.kernel.paging.translate = k₁.paging.translate := by
      rw [hc.kernel, Kernel.switchTo, storeBytes_frame hclear, storeBytes_frame hcopy, hnew₃.only,
        hnew₂.only]
      rfl
    have hmapped := (hnew v hv).2
    rw [Kernel.userByte, Option.isSome_map] at hmapped ⊢
    rw [htranslate]
    exact hmapped
  · have hold := h.image.mapped j hj hl' v hv.2
    rw [(hnew v hv.1).1] at hold
    cases hold
  · rw [hsame e he v hv fun heq => absurd heq hne]
    exact h.others e he hne v hv
  · rw [hc.kernel]
    rfl

/-- With pages and room in the heap, the segment is loaded. -/
theorem Loaded.segment_returns (h₀ : InitialList k₀ rs₀) (h : Loaded k₀ k ds f buffer pd i s)
    (hpd : pd ∈ ds) (hf : f.SmallEntry i) (hl : f.IsLoadable i) {k₁ : Kernel}
    (hmap : mapMemory (kmalloc (fuel + 1)) (f.pMemsz i) (f.pVaddr i) pd s.kernel = .ok k₁)
    (hroom : k₁.heap.Room 44) (cpd : ℕ) :
    ∃ s', loadSegmentBytes (fuel + 1) pd cpd f buffer i s = .ok s' ∧
      s'.kernel.heap.baseEnd = s.kernel.heap.baseEnd := by
  obtain ⟨rv, hrun⟩ := h.run
  obtain ⟨σ, hframes⟩ := hrun.frames h₀
  obtain ⟨hsize, -, huser⟩ := hf.1.fields hl
  obtain ⟨hu, hpos, hin, -⟩ := userRange_segment (Nat.pos_of_ne_zero hl.2) huser (hf.2 hl)
  obtain ⟨-, hnew, -⟩ := hrun.mapMemory h₀ hpd hu hpos hmap
  obtain ⟨bs, hheap⟩ := hframes.sound
  have hend₁ := ((mapMemory_kept (smallAlloc_kmalloc _) hheap).of_ok hmap).2
  have hroom₁ : k₁.heap.Room (20 + alignup 12 4 + 12) := hroom.mono (by decide)
  obtain ⟨p, k₂, halloc₂, hk₂, hend₂, hroom₂⟩ := hroom₁.kmalloc (by norm_num)
  have hroom₂' : k₂.heap.Room (0 + alignup 8 4 + 12) := hroom₂.mono (by decide)
  obtain ⟨last, k₃, halloc₃, hk₃, hend₃, -⟩ := hroom₂'.kmalloc (by norm_num)
  -- the whole segment is mapped
  have hmapped : ∀ x < f.pMemsz i, (k₁.paging.translate (f.pVaddr i + x) pd).isSome := by
    intro x hx
    have hbyte := (hnew _ (hin x hx)).2
    rwa [Kernel.userByte, Option.isSome_map] at hbyte
  have hpaging : (k₃.switchTo pd).paging = pdSwitch pd k₁.paging := by
    rw [Kernel.switchTo, hk₃, hk₂]
  have hcopy : ∃ k₄, storeBytes (f.pVaddr i)
      (fun j => (k₃.switchTo pd).heap.mem (u32 (buffer + f.pOffset i) + j)) (f.pFilesz i)
      (k₃.switchTo pd) = .ok k₄ := by
    refine storeBytes_returns fun x hx => ?_
    rw [hpaging]
    exact hmapped x (by omega)
  obtain ⟨k₄, hk₄⟩ := hcopy
  have hpaging₄ : k₄.paging = pdSwitch pd k₁.paging := by rw [storeBytes_frame hk₄, hpaging]
  have hclear : ∃ k₅, memsetUser (u32 (f.pVaddr i + f.pFilesz i)) 0
      (sub32 (f.pMemsz i) (f.pFilesz i)) k₄ = .ok k₅ := by
    rw [u32_of_lt (by omega), sub32_of_le (by omega) hsize]
    refine storeBytes_returns fun x hx => ?_
    rw [hpaging₄, Nat.add_assoc]
    exact hmapped _ (by omega)
  obtain ⟨k₅, hk₅⟩ := hclear
  refine ⟨⟨s.segments ++ [(f.pVaddr i, f.pMemsz i)], last, k₅.switchTo cpd⟩, ?_, ?_⟩
  · rw [loadSegmentBytes, if_neg (not_not.mpr hl.1), if_neg hl.2, allocSegment, hmap, ok_bind,
      halloc₂ fuel, ok_bind]
    dsimp only
    rw [halloc₃ fuel, ok_bind]
    dsimp only
    rw [memcpyToUser_eq_storeBytes, hk₄, ok_bind, hk₅, ok_bind]
  · have hheap₅ : k₅.heap = k₃.heap := by
      rw [storeBytes_frame hk₅, storeBytes_frame hk₄]
      rfl
    have hend : (k₅.switchTo cpd).heap.baseEnd = k₃.heap.baseEnd := congrArg Heap.baseEnd hheap₅
    rw [hend, hend₃, hend₂, hend₁]

/-- The loop over the program headers comes to its end. -/
theorem Loaded.segments_loop (h₀ : InitialList k₀ rs₀) (h : Loaded k₀ k ds f buffer pd i s)
    (hpd : pd ∈ ds) (hf : ∀ j < i + n, f.SmallEntry j) {isDone : Bool}
    (hr : loadSegmentsBytes fuel pd k.paging.currentPageDirectory f buffer n i s = .ok (isDone, s'))
    (hend : s'.kernel.heap.baseEnd = s.kernel.heap.baseEnd) :
    isDone = true ∧ Loaded k₀ k ds f buffer pd (i + n) s' := by
  induction n generalizing i s with
  | zero =>
    cases hr
    exact ⟨rfl, h⟩
  | succ n ih =>
    have hpast := (hf i (by omega)).1.isPastEnd_self buffer
    rw [loadSegmentsBytes, hpast] at hr
    obtain ⟨s₁, hs₁, hr⟩ := bind_eq_ok.mp hr
    obtain ⟨rv, hrun⟩ := h.run
    obtain ⟨σ, hframes⟩ := hrun.frames h₀
    have hgrown := loadSegmentBytes_grown hframes.sound hs₁
    have hgrown' := loadSegmentsBytes_grown hgrown.1 hr
    have hle := hgrown.2
    have hle' := hgrown'.2
    have h₁ := h.segment h₀ hpd (fun j hj => hf j (by omega)) hs₁ (by omega)
    have hnext := ih h₁ (fun j hj => hf j (by omega)) hr (by omega)
    rw [Nat.add_right_comm] at hnext
    exact hnext

theorem readBuffer_stored (hs : k.heap.Sound) (hb : buffer ∈ k.heap.live)
    (hlen : f.length ≤ k.heap.size (buffer - 8)) :
    StoredIn buffer k.heap (readBuffer f buffer k).heap := by
  apply hs.store hb
  intro x hx
  exact overwrite_of_notMem (by omega)

/-- The loop starts with the file in its buffer. -/
theorem Loaded.start (h₀ : InitialList k₀ rs₀) {rv : List (ℕ × ℕ)} {dataLoc : ℕ} {k₁ k₂ : Kernel}
    (hrun : MemoryRun k₀ (k, ds, rv)) (hlen : f.length ≤ 0xFFFFFFFC) (pd : ℕ)
    (hdata : kmalloc fuel 8 k = .ok (dataLoc, k₁))
    (hbuffer : kmalloc fuel f.length k₁ = .ok (buffer, k₂))
    (hend₁ : k₁.heap.baseEnd = k.heap.baseEnd) (hend₂ : k₂.heap.baseEnd = k₁.heap.baseEnd) :
    Loaded k₀ k ds f buffer pd 0 ⟨[], dataLoc, readBuffer f buffer k₂⟩ := by
  obtain ⟨hrun₁, hnew₁⟩ := hrun.kmalloc h₀ (by norm_num) hdata hend₁
  obtain ⟨hrun₂, hnew₂⟩ := hrun₁.kmalloc h₀ hlen hbuffer hend₂
  obtain ⟨hdata₂, hne, -⟩ := hnew₂.others _ hnew₁.client
  have hpaging : k₂.paging = k.paging := by rw [hnew₂.only, hnew₁.only]
  have huserByte : (readBuffer f buffer k₂).userByte = k.userByte := by
    rw [readBuffer, hnew₂.only, hnew₁.only]
    rfl
  have hrun₃ := hrun₂.store h₀ hnew₂.client.live f.bytes hnew₂.enough
  obtain ⟨σ, hframes⟩ := hrun₂.frames h₀
  have hstored := readBuffer_stored hframes.sound hnew₂.client.live hnew₂.enough
  refine ⟨⟨rv, hrun₃⟩, ⟨hdata₂.live, hdata₂.notNode⟩,
    ⟨hnew₂.client.live, hnew₂.client.notNode⟩, hne.symm, hnew₂.enough.trans hstored.size.ge, fun j hj => ?_,
    rfl,
    ⟨by simp, fun v _ _ => by rw [huserByte], by simp, by simp⟩,
    fun d _ _ v _ => by rw [huserByte], ?_⟩
  · have hbyte : overwrite k₂.heap.mem buffer f.length f.bytes (buffer + j) = f.bytes j := by
      rw [overwrite_of_mem (Nat.le_add_right _ j) (by omega), Nat.add_sub_cancel_left]
    exact hbyte
  · dsimp only [readBuffer]
    rw [hpaging]

end Load

/-- When `elf_load` returns, unless the heap has grown for it, each segment has its part of the file,
then zeros, in pages of its own; the rest of the memory of the process and the memories of all other
ones are as before. -/
theorem elfLoad_image {k₀ k k₁ : Kernel} {rs₀ : List PRegion} {ds : List ℕ} {rv : List (ℕ × ℕ)}
    {fuel pd dataLoc entry : ℕ} {f : File} {s : Segments} (h₀ : InitialList k₀ rs₀)
    (hrun : MemoryRun k₀ (k, ds, rv)) (hpd : pd ∈ ds) (hread : f.isRead = true)
    (hlen : f.length ≤ 0xFFFFFFFC) (hf : ∀ i < f.phEntryNbr, f.SmallEntry i)
    (hdata : kmalloc fuel 8 k = .ok (dataLoc, k₁))
    (hr : elfLoadBytes fuel pd k.paging.currentPageDirectory f dataLoc k₁ = .ok (entry, s))
    (hend : s.kernel.heap.baseEnd = k.heap.baseEnd) :
    entry = f.programEntry ∧ s.segments = f.loaded f.phEntryNbr ∧
      f.Shows f.phEntryNbr (k.userByte pd) (s.kernel.userByte pd) ∧
      (∀ d ∈ ds, d ≠ pd → ∀ v < kernelVirtualBase, s.kernel.userByte d v = k.userByte d v) ∧
      s.kernel.paging.currentPageDirectory = k.paging.currentPageDirectory ∧
      ∃ rv', MemoryRun k₀ (s.kernel, ds, rv') := by
  obtain ⟨⟨buffer, k₂⟩, hbuffer, hr⟩ := bind_eq_ok.mp hr
  dsimp only at hr
  rw [hread] at hr
  obtain ⟨⟨isDone, s₁⟩, hloop, hr⟩ := bind_eq_ok.mp hr
  obtain ⟨σ, hframes⟩ := hrun.frames h₀
  -- the heap does not shrink, so it has not grown on the way
  have hg₁ := (hframes.sound.kmalloc_grown (by norm_num) hdata).1
  obtain ⟨hsound₂, hle₂⟩ := (hg₁.1.kmalloc_grown hlen hbuffer).1
  have hnew := hg₁.1.kmalloc hlen hbuffer
  have hstored := readBuffer_stored hsound₂ hnew.live hnew.enough
  obtain ⟨hsound₁, hle₁⟩ := loadSegmentsBytes_grown hstored.sound hloop
  have hle := hg₁.2
  have hread' : (readBuffer f buffer k₂).heap.baseEnd = k₂.heap.baseEnd := rfl
  dsimp only at hr hle₁
  have hdone : s₁.kernel.heap.baseEnd = k.heap.baseEnd ∧ (isDone = true → ∃ k₃ k₄,
      s₁.kernel.kfree s₁.last = .ok k₃ ∧ k₃.kfree buffer = .ok k₄ ∧
        entry = f.programEntry ∧ s = { s₁ with kernel := k₄ }) := by
    cases isDone with
    | false =>
      cases hr
      exact ⟨hend, fun h => by cases h⟩
    | true =>
      obtain ⟨k₃, h₃, hr⟩ := bind_eq_ok.mp hr
      obtain ⟨k₄, h₄, hr⟩ := bind_eq_ok.mp hr
      cases hr
      have hend₃ := Kernel.kfree_baseEnd h₃
      have hend₄ := Kernel.kfree_baseEnd h₄
      dsimp only at hend
      exact ⟨by omega, fun _ => ⟨k₃, k₄, h₃, h₄, rfl, rfl⟩⟩
  obtain ⟨hend₁, hfrees⟩ := hdone
  have hstart := Loaded.start h₀ hrun hlen pd hdata hbuffer (by omega) (by omega)
  obtain ⟨hisDone, hloaded⟩ := hstart.segments_loop h₀ hpd (by simpa using hf) hloop (by
    dsimp only
    omega)
  obtain ⟨k₃, k₄, h₃, h₄, rfl, rfl⟩ := hfrees hisDone
  rw [Nat.zero_add] at hloaded
  -- the list entry and the buffer are freed
  obtain ⟨rv', hrun₁⟩ := hloaded.run
  obtain ⟨hrun₃, hk₃, -, hclient⟩ := hrun₁.kfree h₀ hloaded.lastBlock h₃
  obtain ⟨hrun₄, hk₄, -, -⟩ :=
    hrun₃.kfree h₀ (hclient buffer hloaded.bufferBlock hloaded.ne) h₄
  have huserByte : k₄.userByte = s₁.kernel.userByte := by
    rw [hk₄, hk₃]
    rfl
  dsimp only
  rw [huserByte]
  refine ⟨rfl, hloaded.segments, hloaded.image, hloaded.others, ?_, rv', hrun₄⟩
  rw [hk₄, hk₃]
  exact hloaded.current


/-! ## A file with one segment -/

theorem oneSegment_fields : (oneSegment 1 0x8048000 84 100).phEntryNbr = 1 ∧
    (oneSegment 1 0x8048000 84 100).IsLoadable 0 ∧
    (oneSegment 1 0x8048000 84 100).pVaddr 0 = 0x8048000 ∧
    (oneSegment 1 0x8048000 84 100).pMemsz 0 = 100 ∧
    (oneSegment 1 0x8048000 84 100).pFilesz 0 = 84 ∧
    (oneSegment 1 0x8048000 84 100).pOffset 0 = 0 ∧
    (oneSegment 1 0x8048000 84 100).prgH 0 = 52 := by decide

theorem rangeSize_oneSegment : rangeSize 100 0x8048000 = 4096 ∧ aligndown 0x8048000 4096 = 0x8048 * 4096 := by
  have hdown : aligndown 0x8048000 4096 = 0x8048000 := by decide
  refine ⟨?_, hdown⟩
  rw [rangeSize, hdown, Nat.sub_self, Nat.add_zero, u32_of_lt (by norm_num),
    alignup_eq (by norm_num) (by norm_num)]

theorem oneSegment_smallEntry : ∀ i < (oneSegment 1 0x8048000 84 100).phEntryNbr,
    (oneSegment 1 0x8048000 84 100).SmallEntry i := by
  obtain ⟨hcount, hl, hvaddr, hmemsz, hfilesz, hoffset, hprgH⟩ := oneSegment_fields
  intro i hi
  have hi : i = 0 := by omega
  subst hi
  unfold File.SmallEntry File.EntryOk
  rw [hvaddr, hmemsz, hfilesz, hoffset, hprgH]
  refine ⟨⟨by decide, fun _ => ⟨by decide, fun _ => ⟨by decide, by decide, by decide⟩⟩⟩, fun _ => ?_⟩
  rw [rangeSize_oneSegment.1]
  norm_num

theorem elfLoad_image_oneSegment : ∃ k d rv dataLoc k₁ s, MemoryRun oneBlockKernel (k, [d], rv) ∧
    kmalloc 1 8 k = .ok (dataLoc, k₁) ∧
    elfLoadBytes 1 d k.paging.currentPageDirectory (oneSegment 1 0x8048000 84 100) dataLoc k₁ =
      .ok (0x8048000, s) ∧
    s.segments = [(0x8048000, 100)] ∧ s.kernel.userByte d 0x8048000 = some 0x7F ∧
    s.kernel.userByte d 0x8048054 = some 0 := by
  have h₀ := initialList_oneBlockKernel
  obtain ⟨hcount, hl, hvaddr, hmemsz, hfilesz, hoffset, -⟩ := oneSegment_fields
  have hsmall := oneSegment_smallEntry
  generalize hfile : oneSegment 1 0x8048000 84 100 = f at *
  have hlength : f.length = 84 := by rw [← hfile]; rfl
  have hread : f.isRead = true := by rw [← hfile]; rfl
  have hentry : f.programEntry = 0x8048000 := by rw [← hfile]; decide
  have hbyte : f.bytes 0 = 0x7F := by rw [← hfile]; rfl
  -- a process without memory
  obtain ⟨g, hclone, hblocks⟩ := getKernelPdClone_first (g := oneBlockKernel.paging) rfl
  let d := slotAddr 0
  let k : Kernel := { oneBlockKernel with paging := g }
  obtain ⟨-, hframes⟩ := h₀.privateFrames.clone hclone
  have hcountSlots := freeSlots_update (by norm_num) rfl hblocks
  obtain ⟨hfree, hheap, hslots⟩ := enoughFor_oneBlockKernel (n := 900) le_rfl
  have hrun : MemoryRun oneBlockKernel (k, [d], []) :=
    Relation.ReflTransGen.single ⟨_, .getKernelPdClone hclone⟩
  have hd : d ∈ [d] := List.mem_cons_self
  -- the first list entry and the buffer
  have hroom : k.heap.Room (30000 + alignup 8 4 + 12) := hheap.mono (by decide)
  obtain ⟨dataLoc, k₁, hdata, hk₁, hend₁, hroom₁⟩ := hroom.kmalloc (by norm_num)
  have hroom₁' : k₁.heap.Room (20000 + alignup f.length 4 + 12) := hroom₁.mono (by
    rw [hlength]
    decide)
  obtain ⟨buffer, k₂, hbuffer, hk₂, hend₂, hroom₂⟩ := hroom₁'.kmalloc (by omega)
  have hstart := Loaded.start h₀ hrun (by omega) d (hdata 0) (hbuffer 0) hend₁ hend₂
  obtain ⟨rv, hrun₂⟩ := hstart.run
  obtain ⟨σ, hframes₂⟩ := hrun₂.frames h₀
  -- the page of the segment
  let k₃ := readBuffer f buffer k₂
  have hroom₃ : k₃.heap.Room 20000 := by
    have hsound : k₁.heap.Sound := by
      obtain ⟨bs, -, hi, -⟩ := hroom₁'
      exact ⟨bs, hi⟩
    have hnew := hsound.kmalloc (by omega) (hbuffer 0)
    have henough := hnew.enough
    exact hroom₂.store hnew.live fun x hx => overwrite_of_notMem (by omega)
  have hphys : k₃.phys = k.phys := by
    have hphys₂ : k₂.phys = k.phys := by rw [hk₂, hk₁]
    exact hphys₂
  have hpaging : k₃.paging = g := by
    have hpaging₂ : k₂.paging = k.paging := by rw [hk₂, hk₁]
    exact hpaging₂
  have henough : EnoughFor (1 + 1) k₃ := by
    obtain ⟨hfree', -, -⟩ := enoughFor_oneBlockKernel (n := 1 + 1) (by norm_num)
    refine ⟨?_, hroom₃.mono (by norm_num), ?_⟩
    · unfold AlignedBlocks at hfree' ⊢
      rw [hphys]
      exact hfree'
    · rw [hpaging]
      omega
  have hp : 0x8048 < userPages := by decide
  have hnone : σ d 0x8048 = none := by
    have hlt : 0x8048000 < kernelVirtualBase := by decide
    have hold := hstart.image.rest 0x8048000 hlt fun j hj => absurd hj (Nat.not_lt_zero j)
    rw [hframes₂.userByte_eq hd hlt, hframes.userByte_eq hd hlt, memoriesOf_apply hd hlt,
      memoriesOf_apply hd hlt, Function.update_self, Option.map_none, Option.map_eq_none_iff] at hold
    exact hold
  obtain ⟨k₄, hmap, hroom₄, -⟩ := hframes₂.mapMemory_returns hd hp hnone henough
  obtain ⟨hrange, hdown⟩ := rangeSize_oneSegment
  have hmap' : mapMemory (kmalloc (0 + 1)) (f.pMemsz 0) (f.pVaddr 0) d k₃ = .ok k₄ := by
    rw [hmemsz, hvaddr, mapMemory_align, hrange, hdown]
    exact hmap 0
  have hentry0 := hsmall 0 (by omega)
  obtain ⟨s₁, hseg, hend₄⟩ := hstart.segment_returns h₀ hd hentry0 hl hmap' (hroom₄.mono (by norm_num))
    k.paging.currentPageDirectory
  have hloaded := hstart.segment h₀ hd (fun j hj => hsmall j (by omega)) hseg hend₄
  have hloop : loadSegmentsBytes 1 d k.paging.currentPageDirectory f buffer 1 0
      ⟨[], dataLoc, k₃⟩ = .ok (true, s₁) := by
    rw [loadSegmentsBytes, hentry0.1.isPastEnd_self buffer, if_neg (by decide)]
    have hseg' : loadSegmentBytes 1 d k.paging.currentPageDirectory f buffer 0 ⟨[], dataLoc, k₃⟩ =
        .ok s₁ := hseg
    rw [hseg', ok_bind]
    rfl
  -- the last list entry and the buffer are freed
  obtain ⟨rv', hrun₅⟩ := hloaded.run
  obtain ⟨k₅, hfree₅⟩ := hrun₅.kfree_returns h₀ hloaded.lastBlock.live
  obtain ⟨hrun₆, hk₅, hend₅, hclient⟩ := hrun₅.kfree h₀ hloaded.lastBlock hfree₅
  have hbuf := hclient buffer hloaded.bufferBlock hloaded.ne
  obtain ⟨k₆, hfree₆⟩ := hrun₆.kfree_returns h₀ hbuf.live
  have hend₆ := Kernel.kfree_baseEnd hfree₆
  have hreturns : elfLoadBytes 1 d k.paging.currentPageDirectory f dataLoc k₁ =
      .ok (0x8048000, { s₁ with kernel := k₆ }) := by
    rw [elfLoadBytes, hbuffer 0, ok_bind]
    dsimp only
    rw [hread, hcount, hloop]
    simp only [Bool.not_true, Bool.false_eq_true, if_false, ok_bind, hfree₅, hfree₆, hentry]
  have hend : k₆.heap.baseEnd = k.heap.baseEnd := by
    calc k₆.heap.baseEnd = s₁.kernel.heap.baseEnd := hend₆.trans hend₅
      _ = k₂.heap.baseEnd := hend₄
      _ = k.heap.baseEnd := hend₂.trans hend₁
  obtain ⟨-, hsegments, himage, -⟩ :=
    elfLoad_image h₀ hrun hd hread (by omega) hsmall (hdata 0) hreturns hend
  have hfirst := himage.bytes 0 (by omega) hl
  rw [hmemsz, hvaddr] at hfirst
  have hhead := hfirst 0 (by norm_num)
  have hzero := hfirst 84 (by norm_num)
  rw [File.segmentByte, hfilesz, hoffset] at hhead hzero
  refine ⟨k, d, [], dataLoc, k₁, { s₁ with kernel := k₆ }, hrun, hdata 0, hreturns, ?_, ?_, ?_⟩
  · rw [hsegments, hcount, File.loaded_succ, if_pos hl, hvaddr, hmemsz]
    rfl
  · rw [← hbyte]
    exact hhead
  · exact hzero

end VkKernel.Elf
