import VkKernel.BlockLayer
import VkKernel.KheapRun
import VkKernel.Lib.Traced

/-!
# Loading executables

`elf_load` reads a file into a buffer on the kernel heap and copies its segments to where
the program headers say; `load_executable` puts the arguments on the stack and looks for
the end of the last segment. What they read from the buffer, map and write is recorded.
The headers are taken from the bytes at an offset from the buffer, which are those of the
file up to its length and any others behind.
-/

namespace VkKernel.Elf
open ByteMemory Traced

/-- `bytes` is what `read_file` delivers. `stack` and `outside` are what memory holds where
the header is read in `elf_check`, and around the buffer. `checkResult` is the result of
the reads in `elf_check`, and `isRead` tells whether the first read in `elf_load` succeeds:
that of the others is not looked at. -/
structure File where
  length : ℕ
  length_lt : length < 2 ^ 32
  bytes : Mem
  stack : Mem
  outside : Mem
  checkResult : ErrorT
  isRead : Bool

/-- The arguments and the environment. -/
structure Args where
  argv : List (List UInt8)
  env : List (List UInt8)
  short : ∀ s ∈ argv ++ env, s.length + 1 < 2 ^ 32

inductive LoadError
  | read (e : ErrorT)
  | isNotElf
  | is64Bits
  | isNotExecutable
  | wrongInstructionSet
  | unknown
deriving DecidableEq, Repr

/-- The ways to stop: `wild` is the walk that leaves the list of segments. -/
inductive Halt
  | returns (e : LoadError)
  | fatal (e : Stop)
  | wild

/-- Reads name the offset from the buffer. `fill` is the file that is read into a buffer of
a given size. -/
inductive Access
  | fill (n size : ℕ)
  | read (offset n : ℕ)
  | map (size virt : ℕ)
  | write (addr n : ℕ)
  | clear (addr filesz memsz : ℕ)
deriving DecidableEq, Repr

abbrev Load (α : Type) := Traced Access Halt α

/-! ## The source -/

def headerSize : ℕ := 52

/-- The header in `elf_check`. A file of length 0 is a device, which is not cut. -/
def File.header (f : File) : Mem := fun i =>
  if i < f.length ∨ f.length = 0 then f.bytes i else f.stack i

def elfCheck (f : File) : Option LoadError :=
  let eh := f.header
  if f.checkResult ≠ .none then some (.read f.checkResult)
  else if eh 0 ≠ 0x7F ∨ eh 1 ≠ 0x45 ∨ eh 2 ≠ 0x4C ∨ eh 3 ≠ 0x46 then some .isNotElf
  else if eh 4 ≠ 1 then some .is64Bits
  else if loadLE eh 16 2 ≠ 2 then some .isNotExecutable
  else if loadLE eh 18 2 ≠ 0 ∧ loadLE eh 18 2 ≠ 3 then some .wrongInstructionSet
  else none

/-- The byte at an offset from the buffer. -/
def File.byte (f : File) : Mem := fun i =>
  if u32 i < f.length then f.bytes (u32 i) else f.outside (u32 i)

def File.programEntry (f : File) : ℕ := loadLE f.byte 24 4
def File.programHeaderTable (f : File) : ℕ := loadLE f.byte 28 4
def File.phEntryNbr (f : File) : ℕ := loadLE f.byte 44 2

/-- The offset of a program header. -/
def File.prgH (f : File) (i : ℕ) : ℕ := f.programHeaderTable + 32 * i

def File.segmentType (f : File) (i : ℕ) : ℕ := loadLE f.byte (f.prgH i) 4
def File.pOffset (f : File) (i : ℕ) : ℕ := loadLE f.byte (f.prgH i + 4) 4
def File.pVaddr (f : File) (i : ℕ) : ℕ := loadLE f.byte (f.prgH i + 8) 4
def File.pFilesz (f : File) (i : ℕ) : ℕ := loadLE f.byte (f.prgH i + 16) 4
def File.pMemsz (f : File) (i : ℕ) : ℕ := loadLE f.byte (f.prgH i + 20) 4

/-- The list of segments: the addresses and sizes, the entry behind the last one, and the
kernel. -/
structure Segments where
  segments : List (ℕ × ℕ)
  last : ℕ
  kernel : Kernel

section
variable (fuel pd : ℕ) (f : File)

/-- The calls to the memory manager for one segment. -/
def allocSegment (i : ℕ) (k : Kernel) : Result (ℕ × Kernel) := do
  let k ← mapMemory (kmalloc fuel) (f.pMemsz i) (f.pVaddr i) pd k
  let (_, k) ← kmalloc fuel 12 k
  kmalloc fuel 8 k

/-- The body of the loop over the program headers, behind its first check. -/
def loadSegment (i : ℕ) (s : Segments) : Load Segments := do
  tell (.read (f.prgH i) 4)
  if f.segmentType i ≠ 1 then pure s
  else do
    tell (.read (f.prgH i + 20) 4)
    if f.pMemsz i = 0 then pure s
    else do
      tell (.read (f.prgH i + 8) 4)
      tell (.map (f.pMemsz i) (f.pVaddr i))
      let (last, k) ← call .fatal (allocSegment fuel pd f i s.kernel)
      tell (.read (f.prgH i + 4) 4)
      tell (.read (f.prgH i + 16) 4)
      tell (.read (f.pOffset i) (f.pFilesz i))
      tell (.write (f.pVaddr i) (f.pFilesz i))
      tell (.clear (f.pVaddr i) (f.pFilesz i) (f.pMemsz i))
      pure ⟨s.segments ++ [(f.pVaddr i, f.pMemsz i)], last, k⟩

/-- The check compares with the end of the file, counting one byte for a program header. -/
def isPastEnd (buffer i : ℕ) : Bool :=
  u32 (buffer + f.programHeaderTable + i) > buffer + f.length

/-- The loop over the program headers, with `n` of them left. The flag tells whether it has
come to its end. -/
def loadSegments (buffer : ℕ) : ℕ → ℕ → Segments → Load (Bool × Segments)
  | 0, _, s => pure (true, s)
  | n + 1, i, s =>
    if isPastEnd f buffer i then pure (false, s)
    else do
      let s ← loadSegment fuel pd f i s
      loadSegments buffer n (i + 1) s

/-- `elf_load`: the entry point, which is 0 for a failure, and the list of segments. -/
def elfLoad (dataLoc : ℕ) (k : Kernel) : Load (ℕ × Segments) := do
  let (buffer, k) ← call .fatal (kmalloc fuel f.length k)
  if !f.isRead then pure (0, ⟨[], dataLoc, k⟩)
  else do
    tell (.fill f.length (alignup f.length 4))
    tell (.read 28 4)
    tell (.read 44 2)
    let (isDone, s) ← loadSegments fuel pd f buffer f.phEntryNbr 0 ⟨[], dataLoc, k⟩
    if !isDone then pure (0, s)
    else do
      let k ← call .fatal (s.kernel.kfree s.last)
      tell (.read 24 4)
      let k ← call .fatal (k.kfree buffer)
      pure (f.programEntry, { s with kernel := k })

/-- Values that are put on the stack, given by their sizes. -/
def push : List ℕ → ℕ → Load ℕ
  | [], esp => pure esp
  | n :: l, esp => do
    tell (.write (sub32 esp n) n)
    push l (sub32 esp n)

/-- The strings and their addresses, then the two arrays and their lengths. -/
def Args.sizes (a : Args) : List ℕ :=
  a.argv.map (·.length + 1) ++ List.replicate (a.argv.length + 1) 4 ++
    a.env.map (·.length + 1) ++ List.replicate (a.env.length + 1) 4 ++ [4, 4, 4, 4]

def stackSize : ℕ := 8192

/-- The memory for the stack, and for the two arrays while they are built. -/
def allocStack (a : Args) (k : Kernel) : Result Kernel := do
  let k ← mapMemory (kmalloc fuel) stackSize (0xC0000000 - stackSize) pd k
  let (_, k) ← kmalloc fuel (u32 (4 * (a.argv.length + 1))) k
  let (_, k) ← kmalloc fuel (u32 (4 * (a.env.length + 1))) k
  .ok k

/-- The entry point that `load_executable` refuses. -/
def isBadEntry (codeOffset : ℕ) : Bool := codeOffset = 0 || codeOffset > 0xC0000000

/-- `load_executable` behind `elf_load`: the start of the heap, the stack pointer and the
entry point. -/
def setUpProcess (a : Args) (dataLoc codeOffset : ℕ) (s : Segments) :
    Load (ℕ × ℕ × ℕ × Kernel) :=
  if isBadEntry codeOffset then do
    let _ ← call .fatal (s.kernel.kfree dataLoc)
    stop (.returns .unknown)
  else do
    tell (.map stackSize (0xC0000000 - stackSize))
    let k ← call .fatal (allocStack fuel pd a s.kernel)
    let esp ← push a.sizes 0xC0000000
    -- the walk to the last segment, by the number of segments less one
    match s.segments.drop (sub32 s.segments.length 1) with
    | [] => stop .wild
    | (vaddr, memsz) :: _ => pure (u32 (vaddr + memsz), sub32 esp 4, codeOffset, k)

/-- `load_executable` -/
def loadExecutable (a : Args) (k : Kernel) : Load (ℕ × ℕ × ℕ × Kernel) :=
  match elfCheck f with
  | some e => stop (.returns e)
  | none => do
    let (dataLoc, k) ← call .fatal (kmalloc fuel 8 k)
    let (codeOffset, s) ← elfLoad fuel pd f dataLoc k
    setUpProcess fuel pd a dataLoc codeOffset s

end

/-! ## The property -/

/-- The buffer holds the file; reads stay inside of it; pages and bytes belong to the user
half; what is cleared behind the file part of a segment has no negative length. -/
def Access.Good (length : ℕ) : Access → Prop
  | .fill n size => n ≤ size
  | .read offset n => ∀ j < n, u32 (offset + j) < length
  | .map size virt => ∀ add < rangeSize size virt, u32 (aligndown virt 4096 + add) < 0xC0000000
  | .write addr n => ∀ j < n, u32 (addr + j) < 0xC0000000
  | .clear addr filesz memsz =>
    filesz ≤ memsz ∧ ∀ j < sub32 memsz filesz, u32 (addr + filesz + j) < 0xC0000000

/-- The only way to stop is to return an error. -/
def Halt.IsError : Halt → Prop
  | .returns _ => True
  | _ => False

/-- The load ends with a loaded program or an error, and all of its accesses are good. -/
def LoadsSafely (fuel pd : ℕ) (f : File) (a : Args) (k : Kernel) : Prop :=
  (loadExecutable fuel pd f a k).Obeys (Access.Good f.length) Halt.IsError

/-! ## Files that are loaded safely -/

def File.IsLoadable (f : File) (i : ℕ) : Prop := f.segmentType i = 1 ∧ f.pMemsz i ≠ 0

instance (f : File) (i : ℕ) : Decidable (f.IsLoadable i) := inferInstanceAs (Decidable (_ ∧ _))

/-- A program header lies in the file as far as it is read. A segment that is loaded lies in
the user half, and its file part in the file and in the segment. -/
def File.EntryOk (f : File) (i : ℕ) : Prop :=
  f.prgH i + 4 ≤ f.length ∧
    (f.segmentType i = 1 → f.prgH i + 24 ≤ f.length ∧
      (f.pMemsz i ≠ 0 → f.pFilesz i ≤ f.pMemsz i ∧
        (f.pFilesz i = 0 ∨ f.pOffset i + f.pFilesz i ≤ f.length) ∧
        f.pVaddr i + f.pMemsz i ≤ 0xC0000000))

section
variable (fuel pd : ℕ) (f : File)

/-- The calls to the memory manager for the segments that are loaded. -/
def allocSegments : ℕ → ℕ → Segments → Result Segments
  | 0, _, s => .ok s
  | n + 1, i, s =>
    if f.IsLoadable i then do
      let (last, k) ← allocSegment fuel pd f i s.kernel
      allocSegments n (i + 1) ⟨s.segments ++ [(f.pVaddr i, f.pMemsz i)], last, k⟩
    else allocSegments n (i + 1) s

def Returns {α : Type} (x : Result α) : Prop := ∃ a, x = .ok a

/-- The file is refused, or it is a file with good program headers and a loadable segment.
In both cases the memory manager serves the calls that are made. -/
def SafeFile (a : Args) (k : Kernel) : Prop :=
  elfCheck f ≠ none ∨
  ∃ dataLoc k1 buffer k2, kmalloc fuel 8 k = .ok (dataLoc, k1) ∧
    kmalloc fuel f.length k1 = .ok (buffer, k2) ∧
    if !f.isRead then Returns (k2.kfree dataLoc)
    else f.length ≤ 0xFFFFFFFC ∧ 46 ≤ f.length ∧
      if 0 < f.phEntryNbr ∧ isPastEnd f buffer 0 then Returns (k2.kfree dataLoc)
      else (∀ i < f.phEntryNbr, f.EntryOk i) ∧
        ∃ s k3 k4, allocSegments fuel pd f f.phEntryNbr 0 ⟨[], dataLoc, k2⟩ = .ok s ∧
          s.kernel.kfree s.last = .ok k3 ∧ k3.kfree buffer = .ok k4 ∧
          if isBadEntry f.programEntry then Returns (k4.kfree dataLoc)
          else (∃ i < f.phEntryNbr, f.IsLoadable i) ∧ a.sizes.sum ≤ 0xC0000000 ∧
            Returns (allocStack fuel pd a k4)

end

/-! ### Runs of bytes -/

theorem read_good_iff {offset n length : ℕ} (hlen : length < 2 ^ 32) (hoff : offset < 2 ^ 32) :
    (Access.read offset n).Good length ↔ n = 0 ∨ offset + n ≤ length := by
  unfold Access.Good
  constructor
  · intro h
    by_contra hn
    have hpos : 0 < n := by omega
    have h0 := h 0 hpos
    rw [Nat.add_zero, u32_of_lt hoff] at h0
    -- the first offset behind the file
    have hat := h (length - offset) (by omega)
    rw [Nat.add_sub_of_le h0.le, u32_of_lt hlen] at hat
    omega
  · intro h j hj
    rw [u32_of_lt (by omega)]
    omega

theorem write_good_iff {addr n length : ℕ} (haddr : addr < 2 ^ 32) :
    (Access.write addr n).Good length ↔ n = 0 ∨ addr + n ≤ 0xC0000000 := by
  have hend : 0xC0000000 < 2 ^ 32 := by norm_num
  exact read_good_iff hend haddr

theorem map_good {size virt length : ℕ} (hsize : 0 < size) (h : virt + size ≤ 0xC0000000) :
    (Access.map size virt).Good length := by
  intro add hadd
  have hmod := Nat.mod_lt virt (show 0 < 4096 by norm_num)
  have hdown : aligndown virt 4096 = virt - virt % 4096 := rfl
  have hle := Nat.mod_le virt 4096
  have hsum : size + (virt - aligndown virt 4096) = size + virt % 4096 := by omega
  rw [rangeSize, hsum, u32_of_lt (by omega), alignup_eq (by norm_num) (by omega)] at hadd
  rw [hdown, u32_of_lt (by omega)]
  omega

/-- A segment that is written, up to its memory size. -/
theorem segment_good_iff {addr filesz memsz length : ℕ} (haddr : addr < 2 ^ 32)
    (hm : memsz < 2 ^ 32) (hpos : memsz ≠ 0) :
    (Access.write addr filesz).Good length ∧ (Access.clear addr filesz memsz).Good length ↔
      filesz ≤ memsz ∧ addr + memsz ≤ 0xC0000000 := by
  rw [write_good_iff haddr]
  have hrest : filesz ≤ memsz → (filesz = 0 ∨ addr + filesz ≤ 0xC0000000) →
      ((∀ j < sub32 memsz filesz, u32 (addr + filesz + j) < 0xC0000000) ↔
        memsz - filesz = 0 ∨ addr + filesz + (memsz - filesz) ≤ 0xC0000000) := by
    intro hle hfirst
    have hwrite : (Access.write (addr + filesz) (memsz - filesz)).Good length ↔ _ :=
      write_good_iff (by omega)
    rw [sub32_of_le hm hle]
    exact hwrite
  constructor
  · intro ⟨h1, h2, h3⟩
    have := (hrest h2 h1).mp h3
    omega
  · intro ⟨h1, h2⟩
    refine ⟨by omega, h1, ?_⟩
    rw [hrest h1 (by omega)]
    omega

/-! ### The loop over the program headers -/

theorem not_isError_fatal (e : Stop) : ¬(Halt.fatal e).IsError := id

section
variable {fuel pd : ℕ} {f : File} {β : Type}

theorem loadSegment_obeys {i : ℕ} {s : Segments} (hshort : f.length < 2 ^ 31)
    (hpos : f.prgH i < 2 ^ 32) (c : Segments → Load β) :
    (loadSegment fuel pd f i s >>= c).Obeys (Access.Good f.length) Halt.IsError ↔
      f.EntryOk i ∧
        if f.IsLoadable i then ∃ r, allocSegment fuel pd f i s.kernel = .ok r ∧
          (c ⟨s.segments ++ [(f.pVaddr i, f.pMemsz i)], r.1, r.2⟩).Obeys
            (Access.Good f.length) Halt.IsError
        else (c s).Obeys (Access.Good f.length) Halt.IsError := by
  have hlen := f.length_lt
  have hword : ∀ o, loadLE f.byte o 4 < 2 ^ 32 := fun o => loadLE_lt f.byte o 4
  unfold loadSegment
  rw [Traced.bind_assoc, obeys_tell_bind, read_good_iff hlen hpos]
  by_cases htype : f.segmentType i = 1
  · rw [if_neg (not_not.mpr htype), Traced.bind_assoc, obeys_tell_bind]
    by_cases hfirst : f.prgH i + 4 ≤ f.length
    · rw [read_good_iff hlen (by omega)]
      by_cases hmem : f.pMemsz i = 0
      · have hload : ¬f.IsLoadable i := fun h => h.2 hmem
        have hentry : f.EntryOk i ↔ f.prgH i + 20 + 4 ≤ f.length := by
          simp only [File.EntryOk, htype, hmem, hfirst, ne_eq, not_true_eq_false, false_implies,
            and_true, true_implies, true_and]
        rw [if_pos hmem, if_neg hload, hentry, Traced.pure_bind]
        simp only [hfirst, or_true, true_and, OfNat.ofNat_ne_zero, false_or]
      · have hload : f.IsLoadable i := ⟨htype, hmem⟩
        rw [if_neg hmem, if_pos hload]
        by_cases hhead : f.prgH i + 24 ≤ f.length
        · have hentry : f.EntryOk i ↔ f.pFilesz i ≤ f.pMemsz i ∧
              (f.pFilesz i = 0 ∨ f.pOffset i + f.pFilesz i ≤ f.length) ∧
              f.pVaddr i + f.pMemsz i ≤ 0xC0000000 := by
            simp only [File.EntryOk, htype, hmem, hfirst, hhead, ne_eq, not_false_eq_true,
              true_implies, true_and]
          have hseg : (Access.write (f.pVaddr i) (f.pFilesz i)).Good f.length ∧
              (Access.clear (f.pVaddr i) (f.pFilesz i) (f.pMemsz i)).Good f.length ↔ _ :=
            segment_good_iff (hword _) (hword _) hmem
          have hdata := read_good_iff (n := f.pFilesz i) hlen (hword (f.prgH i + 4))
          have hfield : ∀ d ≤ 20, (Access.read (f.prgH i + d) 4).Good f.length := by
            intro d hd
            rw [read_good_iff hlen (by omega)]
            omega
          simp only [Traced.bind_assoc, obeys_tell_bind, obeys_call_bind not_isError_fatal,
            Traced.pure_bind]
          rw [hentry]
          constructor
          · rintro ⟨-, -, -, -, r, hr, -, -, h1, h2, h3, hc⟩
            obtain ⟨h4, h5⟩ := hseg.mp ⟨h2, h3⟩
            exact ⟨⟨h4, hdata.mp h1, h5⟩, r, hr, hc⟩
          · rintro ⟨⟨h1, h2, h3⟩, r, hr, hc⟩
            obtain ⟨h4, h5⟩ := hseg.mpr ⟨h1, h3⟩
            exact ⟨Or.inr hfirst, Or.inr hhead, hfield 8 (by norm_num),
              map_good (Nat.pos_of_ne_zero hmem) h3, r, hr, hfield 4 (by norm_num),
              hfield 16 (by norm_num), hdata.mpr h2, h4, h5, hc⟩
        · constructor
          · intro h
            exact absurd (h.2.1.resolve_left (by norm_num)) hhead
          · intro h
            exact absurd (h.1.2 htype).1 hhead
    · have hentry : ¬f.EntryOk i := fun h => hfirst h.1
      simp only [hfirst, hentry, or_false, OfNat.ofNat_ne_zero, false_and]
  · have hload : ¬f.IsLoadable i := fun h => htype h.1
    have hentry : f.EntryOk i ↔ f.prgH i + 4 ≤ f.length := by
      simp only [File.EntryOk, htype, false_implies, and_true]
    rw [if_pos htype, if_neg hload, hentry, Traced.pure_bind]
    simp only [OfNat.ofNat_ne_zero, false_or]

/-- Every program header lies before the next check, so only the first check can fail. -/
theorem File.EntryOk.not_isPastEnd {i : ℕ} (h : f.EntryOk i) (buffer : ℕ) :
    isPastEnd f buffer (i + 1) = false := by
  have h1 := h.1
  have hle : u32 (buffer + f.programHeaderTable + (i + 1)) ≤
      buffer + f.programHeaderTable + (i + 1) := Nat.mod_le _ _
  unfold File.prgH at h1
  unfold isPastEnd
  rw [decide_eq_false_iff_not]
  omega

theorem loadSegments_obeys {buffer n i : ℕ} {s : Segments} (hshort : f.length < 2 ^ 31)
    (hpos : f.prgH i < 2 ^ 32) (hend : n = 0 ∨ isPastEnd f buffer i = false)
    (c : Bool × Segments → Load β) :
    (loadSegments fuel pd f buffer n i s >>= c).Obeys (Access.Good f.length) Halt.IsError ↔
      (∀ j < n, f.EntryOk (i + j)) ∧ ∃ s', allocSegments fuel pd f n i s = .ok s' ∧
        (c (true, s')).Obeys (Access.Good f.length) Halt.IsError := by
  induction n generalizing i s with
  | zero =>
    rw [loadSegments, allocSegments, Traced.pure_bind]
    simp
  | succ n ih =>
    have hcheck : isPastEnd f buffer i = false := by
      rcases hend with h | h
      · cases h
      · exact h
    rw [loadSegments, hcheck]
    simp only [Bool.false_eq_true, if_false]
    rw [Traced.bind_assoc, loadSegment_obeys hshort hpos]
    have hsplit : (∀ j < n + 1, f.EntryOk (i + j)) ↔
        f.EntryOk i ∧ ∀ j < n, f.EntryOk (i + 1 + j) := by
      rw [Nat.forall_lt_succ_left]
      simp only [Nat.add_zero, Nat.add_assoc, Nat.add_comm 1]
    rw [hsplit, and_assoc]
    apply and_congr_right
    intro hentry
    have hnext : ∀ s, (loadSegments fuel pd f buffer n (i + 1) s >>= c).Obeys
        (Access.Good f.length) Halt.IsError ↔ _ := fun s => ih (s := s)
      (by have := hentry.1; unfold File.prgH at this ⊢; omega)
      (Or.inr (hentry.not_isPastEnd buffer))
    rw [allocSegments]
    split_ifs
    · simp only [hnext, Outcome.bind_eq_ok, Prod.exists]
      constructor
      · intro ⟨p, k, hr, hall, s', hs', hc⟩
        exact ⟨hall, s', ⟨p, k, hr, hs'⟩, hc⟩
      · intro ⟨hall, s', ⟨p, k, hr, hs'⟩, hc⟩
        exact ⟨p, k, hr, hall, s', hs', hc⟩
    · exact hnext s

/-! ### The stack -/

theorem push_obeys {l : List ℕ} {esp length : ℕ} (hesp : esp ≤ 0xC0000000)
    (hl : ∀ n ∈ l, 0 < n ∧ n < 2 ^ 32) (c : ℕ → Load β) :
    (push l esp >>= c).Obeys (Access.Good length) Halt.IsError ↔
      l.sum ≤ esp ∧ (c (esp - l.sum)).Obeys (Access.Good length) Halt.IsError := by
  induction l generalizing esp with
  | nil => simp [push, Traced.pure_bind]
  | cons n l ih =>
    obtain ⟨hn, hlt⟩ := hl n List.mem_cons_self
    rw [push, Traced.bind_assoc, obeys_tell_bind, List.sum_cons,
      write_good_iff (by unfold sub32; exact u32_lt _)]
    by_cases hle : n ≤ esp
    · rw [sub32_of_le (by omega) hle, ih (by omega) fun m hm => hl m (List.mem_cons_of_mem _ hm),
        ← Nat.sub_add_eq]
      constructor
      · intro ⟨_, h1, h2⟩
        exact ⟨by omega, h2⟩
      · intro ⟨h1, h2⟩
        exact ⟨by omega, by omega, h2⟩
    · -- the value would wrap around into the kernel
      have hsub : sub32 esp n = esp + 2 ^ 32 - n := u32_of_lt (by omega)
      rw [hsub]
      constructor
      · intro ⟨h, _⟩
        omega
      · intro ⟨h, _⟩
        omega

theorem Args.sizes_bounds (a : Args) : ∀ n ∈ a.sizes, 0 < n ∧ n < 2 ^ 32 := by
  have hshort := a.short
  simp only [List.mem_append] at hshort
  intro n hn
  simp only [sizes, List.mem_append, List.mem_map, List.mem_replicate, List.mem_cons,
    List.not_mem_nil, or_false] at hn
  rcases hn with (((⟨t, ht, rfl⟩ | ⟨_, rfl⟩) | ⟨t, ht, rfl⟩) | ⟨_, rfl⟩) | hn
  · exact ⟨by omega, hshort t (Or.inl ht)⟩
  · norm_num
  · exact ⟨by omega, hshort t (Or.inr ht)⟩
  · norm_num
  · omega

/-! ### The segments that were loaded -/

theorem allocSegments_segments {n i : ℕ} {s s' : Segments}
    (h : allocSegments fuel pd f n i s = .ok s') :
    (s'.segments = [] ↔ s.segments = [] ∧ ∀ j < n, ¬f.IsLoadable (i + j)) ∧
      s'.segments.length ≤ s.segments.length + n := by
  induction n generalizing i s with
  | zero =>
    cases h
    simp
  | succ n ih =>
    rw [allocSegments] at h
    rw [Nat.forall_lt_succ_left]
    simp only [Nat.add_zero, ← Nat.add_assoc, Nat.add_right_comm i _ 1]
    split_ifs at h with hload
    · obtain ⟨r, -, hr⟩ := Outcome.bind_eq_ok.mp h
      obtain ⟨h1, h2⟩ := ih hr
      constructor
      · rw [h1]
        simp [hload]
      · simp only [List.length_append, List.length_singleton] at h2
        omega
    · obtain ⟨h1, h2⟩ := ih h
      constructor
      · rw [h1]
        simp [hload]
      · omega

/-- The walk finds the last segment unless there is none. -/
theorem drop_last_eq_nil_iff {l : List (ℕ × ℕ)} (h : l.length < 2 ^ 32) :
    l.drop (sub32 l.length 1) = [] ↔ l = [] := by
  rw [List.drop_eq_nil_iff]
  cases l with
  | nil => simp
  | cons x l =>
    rw [sub32_of_le h (by simp)]
    simp

theorem setUpProcess_bad {a : Args} {dataLoc codeOffset : ℕ} {s : Segments}
    (h : isBadEntry codeOffset = true) :
    (setUpProcess fuel pd a dataLoc codeOffset s).Obeys (Access.Good f.length) Halt.IsError ↔
      Returns (s.kernel.kfree dataLoc) := by
  rw [setUpProcess, if_pos h, obeys_call_bind not_isError_fatal]
  simp only [obeys_stop, Halt.IsError, and_true]
  rfl

theorem setUpProcess_obeys {a : Args} {dataLoc codeOffset : ℕ} {s : Segments}
    (h : isBadEntry codeOffset = false) (hs : s.segments.length < 2 ^ 32) :
    (setUpProcess fuel pd a dataLoc codeOffset s).Obeys (Access.Good f.length) Halt.IsError ↔
      s.segments ≠ [] ∧ a.sizes.sum ≤ 0xC0000000 ∧ Returns (allocStack fuel pd a s.kernel) := by
  have hmap : (Access.map stackSize (0xC0000000 - stackSize)).Good f.length :=
    map_good (by decide) (by decide)
  have hwalk : ∀ esp k, (match s.segments.drop (sub32 s.segments.length 1) with
      | [] => stop .wild
      | (vaddr, memsz) :: _ => pure (u32 (vaddr + memsz), sub32 esp 4, codeOffset, k) :
        Load (ℕ × ℕ × ℕ × Kernel)).Obeys (Access.Good f.length) Halt.IsError ↔ s.segments ≠ [] := by
    intro esp k
    rw [ne_eq, ← drop_last_eq_nil_iff hs]
    cases s.segments.drop (sub32 s.segments.length 1) with
    | nil => simp [Halt.IsError]
    | cons x l => simp
  rw [setUpProcess, if_neg (by simp [h]), obeys_tell_bind, obeys_call_bind not_isError_fatal]
  simp only [push_obeys le_rfl a.sizes_bounds, hwalk, hmap, true_and]
  constructor
  · intro ⟨k, hk, hsum, hne⟩
    exact ⟨hne, hsum, k, hk⟩
  · intro ⟨hne, hsum, k, hk⟩
    exact ⟨k, hk, hsum, hne⟩

/-! ### The buffer -/

theorem fill_good_iff (f : File) :
    (Access.fill f.length (alignup f.length 4)).Good f.length ↔ f.length ≤ 0xFFFFFFFC := by
  have hlt := f.length_lt
  unfold Access.Good
  constructor
  · intro h
    by_contra hgt
    -- the rounded size is zero
    have hcases : f.length = 0xFFFFFFFD ∨ f.length = 0xFFFFFFFE ∨ f.length = 0xFFFFFFFF := by omega
    rcases hcases with hl | hl | hl
    all_goals
      rw [hl] at h
      revert h
      decide
  · intro h
    exact (alignup_four h).2.1

/-- The kernel heap has less than 1 GiB. -/
theorem length_lt_of_kmalloc {k k1 k2 : Kernel} {size size' p b : ℕ} (hk : HeapReachable k)
    (h1 : kmalloc fuel size k = .ok (p, k1)) (hs : size ≤ 0xFFFFFFFC)
    (h2 : kmalloc fuel size' k1 = .ok (b, k2)) (hs' : size' ≤ 0xFFFFFFFC) : size' < 2 ^ 31 := by
  obtain ⟨bs, hi⟩ := (hk.tail (.kmalloc hs h1)).inv
  obtain ⟨bs', c, hi', hc, -, -, hsize⟩ := ((kmalloc_holds hi hs').of_ok h2).block hs'
  have hle := (alignup_four hs').2.1
  have hend := hi'.end_lt
  obtain ⟨hfrom, hto⟩ := hi'.tiles.bounds.2 c hc
  unfold BlockLayout.Block.stop at hto
  unfold kheapBaseStart at hfrom
  omega

/-! ### The whole load -/

/-- The load once the two blocks are allocated. -/
theorem elfLoad_obeys {a : Args} {dataLoc buffer : ℕ} {k : Kernel}
    (hshort : f.length ≤ 0xFFFFFFFC → f.length < 2 ^ 31) :
    ((if !f.isRead then pure (0, ⟨[], dataLoc, k⟩)
      else do
        tell (.fill f.length (alignup f.length 4))
        tell (.read 28 4)
        tell (.read 44 2)
        let (isDone, s) ← loadSegments fuel pd f buffer f.phEntryNbr 0 ⟨[], dataLoc, k⟩
        if !isDone then pure (0, s)
        else do
          let k ← call .fatal (s.kernel.kfree s.last)
          tell (.read 24 4)
          let k ← call .fatal (k.kfree buffer)
          pure (f.programEntry, { s with kernel := k }) : Load (ℕ × Segments)) >>=
      fun r => setUpProcess fuel pd a dataLoc r.1 r.2).Obeys (Access.Good f.length) Halt.IsError ↔
    if !f.isRead then Returns (k.kfree dataLoc)
    else f.length ≤ 0xFFFFFFFC ∧ 46 ≤ f.length ∧
      if 0 < f.phEntryNbr ∧ isPastEnd f buffer 0 then Returns (k.kfree dataLoc)
      else (∀ i < f.phEntryNbr, f.EntryOk i) ∧
        ∃ s k3 k4, allocSegments fuel pd f f.phEntryNbr 0 ⟨[], dataLoc, k⟩ = .ok s ∧
          s.kernel.kfree s.last = .ok k3 ∧ k3.kfree buffer = .ok k4 ∧
          if isBadEntry f.programEntry then Returns (k4.kfree dataLoc)
          else (∃ i < f.phEntryNbr, f.IsLoadable i) ∧ a.sizes.sum ≤ 0xC0000000 ∧
            Returns (allocStack fuel pd a k4) := by
  have hread : ∀ {o n : ℕ}, o < 2 ^ 32 →
      ((Access.read o n).Good f.length ↔ n = 0 ∨ o + n ≤ f.length) :=
    fun ho => read_good_iff f.length_lt ho
  have htable : f.prgH 0 < 2 ^ 32 := loadLE_lt f.byte 28 4
  have hcount : f.phEntryNbr < 2 ^ 16 := loadLE_lt f.byte 44 2
  by_cases hr : f.isRead = false
  · simp only [hr, Bool.not_false, if_true, Traced.pure_bind]
    exact setUpProcess_bad (by decide)
  rw [Bool.not_eq_false] at hr
  simp only [hr, Bool.not_true, Bool.false_eq_true, if_false, Traced.bind_assoc, obeys_tell_bind,
    fill_good_iff]
  apply and_congr_right
  intro hle
  rw [hread (by norm_num), hread (by norm_num)]
  by_cases h46 : 46 ≤ f.length
  swap
  · constructor
    · intro h
      omega
    · intro h
      omega
  have h32 : 28 + 4 ≤ f.length := by omega
  simp only [h46, h32, or_true, true_and]
  by_cases hend : 0 < f.phEntryNbr ∧ isPastEnd f buffer 0 = true
  · -- the first check of the loop fails
    rw [if_pos hend]
    obtain ⟨n, hn⟩ := Nat.exists_eq_succ_of_ne_zero hend.1.ne'
    rw [hn, loadSegments, if_pos hend.2]
    simp only [Traced.pure_bind, Bool.not_false, if_true]
    exact setUpProcess_bad (by decide)
  have hstart : f.phEntryNbr = 0 ∨ isPastEnd f buffer 0 = false := by
    by_cases h0 : f.phEntryNbr = 0
    · exact Or.inl h0
    · right
      rw [← Bool.not_eq_true]
      exact fun h => hend ⟨Nat.pos_of_ne_zero h0, h⟩
  rw [if_neg hend, loadSegments_obeys (hshort hle) htable hstart]
  simp only [Nat.zero_add]
  apply and_congr_right
  intro _
  apply exists_congr
  intro s
  simp only [Bool.not_true, Bool.false_eq_true, if_false, Traced.bind_assoc, obeys_tell_bind,
    obeys_call_bind not_isError_fatal, Traced.pure_bind]
  have hentry : (Access.read 24 4).Good f.length := (hread (by norm_num)).mpr (by omega)
  have hset : allocSegments fuel pd f f.phEntryNbr 0 ⟨[], dataLoc, k⟩ = .ok s → ∀ k4,
      ((setUpProcess fuel pd a dataLoc f.programEntry { s with kernel := k4 }).Obeys
        (Access.Good f.length) Halt.IsError ↔
      if isBadEntry f.programEntry then Returns (k4.kfree dataLoc)
      else (∃ i < f.phEntryNbr, f.IsLoadable i) ∧ a.sizes.sum ≤ 0xC0000000 ∧
        Returns (allocStack fuel pd a k4)) := by
    intro hs k4
    obtain ⟨hnil, hlen⟩ := allocSegments_segments hs
    simp only [List.length_nil, Nat.zero_add, true_and] at hnil hlen
    split_ifs with hbad
    · exact setUpProcess_bad hbad
    · rw [Bool.not_eq_true] at hbad
      rw [setUpProcess_obeys hbad (by dsimp only; omega), ne_eq, hnil]
      simp only [not_forall, not_not, exists_prop]
  constructor
  · rintro ⟨hs, k3, h3, -, k4, h4, h⟩
    exact ⟨k3, k4, hs, h3, h4, (hset hs k4).mp h⟩
  · rintro ⟨k3, k4, hs, h3, h4, h⟩
    exact ⟨hs, k3, h3, hentry, k4, h4, (hset hs k4).mpr h⟩

theorem LoadsSafely.safeFile {k : Kernel} (hk : HeapReachable k) {a : Args}
    (h : LoadsSafely fuel pd f a k) : SafeFile fuel pd f a k := by
  unfold LoadsSafely loadExecutable at h
  cases hcheck : elfCheck f with
  | some e => exact Or.inl (by simp [hcheck])
  | none =>
    right
    rw [hcheck] at h
    dsimp only at h
    rw [obeys_call_bind not_isError_fatal] at h
    obtain ⟨⟨dataLoc, k1⟩, h1, h⟩ := h
    dsimp only at h
    rw [elfLoad, Traced.bind_assoc, obeys_call_bind not_isError_fatal] at h
    obtain ⟨⟨buffer, k2⟩, h2, h⟩ := h
    have hshort := length_lt_of_kmalloc hk h1 (by norm_num) h2
    exact ⟨dataLoc, k1, buffer, k2, h1, h2, (elfLoad_obeys hshort).mp h⟩

theorem SafeFile.loadsSafely {k : Kernel} (hk : HeapReachable k) {a : Args}
    (h : SafeFile fuel pd f a k) : LoadsSafely fuel pd f a k := by
  unfold LoadsSafely loadExecutable
  rcases h with hcheck | ⟨dataLoc, k1, buffer, k2, h1, h2, h⟩
  · obtain ⟨e, he⟩ := Option.ne_none_iff_exists'.mp hcheck
    rw [he]
    exact obeys_stop.mpr trivial
  · have hshort := length_lt_of_kmalloc hk h1 (by norm_num) h2
    cases elfCheck f with
    | some e => exact obeys_stop.mpr trivial
    | none =>
      dsimp only
      rw [obeys_call_bind not_isError_fatal]
      refine ⟨(dataLoc, k1), h1, ?_⟩
      dsimp only
      rw [elfLoad, Traced.bind_assoc, obeys_call_bind not_isError_fatal]
      exact ⟨(buffer, k2), h2, (elfLoad_obeys hshort).mpr h⟩

end

def le32 (n : ℕ) : List UInt8 :=
  [UInt8.ofNat n, UInt8.ofNat (n / 2 ^ 8), UInt8.ofNat (n / 2 ^ 16), UInt8.ofNat (n / 2 ^ 24)]

/-- A header and one program header behind it. `n` is the number that the header gives. -/
def oneSegment (n : UInt8) (vaddr filesz memsz : ℕ) : File where
  length := 84
  length_lt := by norm_num
  bytes i := ([0x7F, 0x45, 0x4C, 0x46, 1, 1, 1, 0, 0, 0, 0, 0, 0, 0, 0, 0, 2, 0, 3, 0] ++
    le32 1 ++ le32 0x8048000 ++ le32 52 ++ le32 0 ++ le32 0 ++ [52, 0, 32, 0, n, 0, 0, 0, 0, 0, 0, 0] ++
    le32 1 ++ le32 0 ++ le32 vaddr ++ le32 0 ++ le32 filesz ++ le32 memsz).getD i 0
  stack _ := 0
  outside _ := 0
  checkResult := .none
  isRead := true

def noArgs : Args := ⟨[], [], by simp⟩

/-- A script is refused. -/
def script : File where
  length := 2
  length_lt := by norm_num
  bytes i := [0x23, 0x21].getD i 0
  stack _ := 0
  outside _ := 0
  checkResult := .none
  isRead := true

/-- A file with a program header that is not in order, or without a segment to load. -/
theorem not_loadsSafely_of_entry {fuel pd : ℕ} {f : File} {a : Args} {k : Kernel}
    (hk : HeapReachable k) (hcheck : elfCheck f = none) (hread : f.isRead = true)
    (htable : f.programHeaderTable ≤ f.length) (hentry : isBadEntry f.programEntry = false)
    (hbad : (∃ i < f.phEntryNbr, ¬f.EntryOk i) ∨ ∀ i < f.phEntryNbr, ¬f.IsLoadable i) :
    ¬LoadsSafely fuel pd f a k := by
  intro hsafe
  have hfile := hsafe.safeFile hk
  rcases hfile with h | ⟨dataLoc, k1, buffer, k2, -, -, h⟩
  · exact h hcheck
  have hpast : ¬(0 < f.phEntryNbr ∧ isPastEnd f buffer 0 = true) := by
    intro ⟨_, h⟩
    have hle : u32 (buffer + f.programHeaderTable + 0) ≤ buffer + f.programHeaderTable + 0 :=
      Nat.mod_le _ _
    unfold isPastEnd at h
    have := of_decide_eq_true h
    omega
  rw [hread, if_neg (by decide), if_neg hpast, hentry] at h
  obtain ⟨-, -, hall, s, k3, k4, -, -, -, h⟩ := h
  rcases hbad with ⟨i, hi, hn⟩ | hnone
  · exact hn (hall i hi)
  · obtain ⟨⟨i, hi, hload⟩, -⟩ := h
    exact hnone i hi hload

end VkKernel.Elf
