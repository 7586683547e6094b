import VkKernel.UserPointers
import VkKernel.Lib.ByteMemory

/-!
# Reading a file in pieces

`read_file` cuts a request off at the end of the file and moves the offset only when the
file system has read the bytes. Reading a file piece by piece then gives its bytes in order,
whatever the pieces are and whichever calls fail, as long as the end of a request is an
offset of 64 bits.
-/

namespace VkKernel.Vfs
open ByteMemory Syscalls

/-- How a file system reads: from an offset of a file, some bytes, into the memory behind a
pointer. -/
abbrev Reader := ℕ → ℕ → Mem → SysCode × Mem

inductive FsType
  | ramfs
  | fat32
  | ext2
  | iso9660
  | devfs
deriving DecidableEq, Repr

/-- The read functions of the file systems. -/
structure Readers where
  fat32 : Reader
  iso9660 : Reader
  ext2 : Reader
  devfs : Reader

/-- The switch over `fs_type`. -/
def Readers.read (r : Readers) : FsType → Reader
  | .fat32 => r.fat32
  | .iso9660 => r.iso9660
  | .ext2 => r.ext2
  | .devfs => r.devfs
  | .ramfs => fun _ _ buffer => (.fileUnsupportedFileSystem, buffer)

/-- An `fd_t`, with the fields of its node. -/
structure Fd where
  isDirectory : Bool
  length : ℕ
  fsType : FsType
  offset : ℕ
deriving DecidableEq, Repr

/-- A call of `read_file`: the count, and what it finds behind the pointer and on the drives. -/
structure ReadCall where
  count : ℕ
  buffer : Mem
  readers : Readers

structure ReadResult where
  code : SysCode
  fd : Fd
  buffer : Mem

/-- The count of a request, cut off at the end of the file. The sum has 64 bits. -/
def Fd.readCount (fd : Fd) (count : ℕ) : ℕ :=
  if fd.length ≠ 0 ∧ (count + fd.offset) % 2 ^ 64 > fd.length then fd.length - fd.offset
  else count

/-- `read_file` -/
def Fd.readFile (fd : Fd) (c : ReadCall) : ReadResult :=
  if fd.isDirectory then ⟨.fileIsDirectory, fd, c.buffer⟩
  else if fd.length ≠ 0 ∧ fd.offset ≥ fd.length then ⟨.eof, fd, Function.update c.buffer 0 0⟩
  else
    let count := fd.readCount c.count
    if count = 0 then ⟨.none, fd, Function.update c.buffer 0 0⟩
    else
      let r := c.readers.read fd.fsType fd.offset count c.buffer
      ⟨r.1, if r.1 = .none then { fd with offset := (fd.offset + count) % 2 ^ 64 } else fd, r.2⟩

/-- The bytes that `syscall_read` counts as read. -/
def Fd.bytesRead (fd : Fd) (c : ReadCall) : List UInt8 :=
  let counttr := u32 ((fd.readFile c).fd.offset + 2 ^ 64 - u32 fd.offset)
  (List.range counttr).map (fd.readFile c).buffer

/-! ## Runs of calls -/

/-- The file after some calls. -/
def Fd.after (fd : Fd) (calls : List ReadCall) : Fd :=
  calls.foldl (fun fd c => (fd.readFile c).fd) fd

/-- What the calls deliver, one after the other. -/
def Fd.delivered (fd : Fd) : List ReadCall → List UInt8
  | [] => []
  | c :: cs => fd.bytesRead c ++ (fd.readFile c).fd.delivered cs

/-- The counts of the calls that return `ERROR_NONE`. -/
def Fd.countsRead (fd : Fd) : List ReadCall → ℕ
  | [] => 0
  | c :: cs => (if (fd.readFile c).code = .none then c.count else 0) +
      (fd.readFile c).fd.countsRead cs

/-- The bytes of a file between two offsets. -/
def fileBytes (content : Mem) (first last : ℕ) : List UInt8 :=
  (List.range (last - first)).map fun i => content (first + i)

/-- What a call that starts in the file has to ask the file system for. -/
def Fd.readLeft (fd : Fd) (c : ReadCall) : SysCode × Mem :=
  c.readers.read fd.fsType fd.offset (min c.count (fd.length - fd.offset)) c.buffer

/-- After every call of the sequence the offset is where the successful calls have brought it,
the bytes between the offsets have been delivered, and the call has returned what the file
system says of the bytes that it has to read, or `ERROR_EOF` at the end of the file. -/
structure Fd.ReadsInPieces (fd : Fd) (content : Mem) (calls : List ReadCall) : Prop where
  offset : ∀ before, before <+: calls →
    (fd.after before).offset = min (fd.offset + fd.countsRead before) fd.length
  bytes : ∀ before, before <+: calls →
    fd.delivered before = fileBytes content fd.offset (fd.after before).offset
  code : ∀ before c, before ++ [c] <+: calls →
    ((fd.after before).readFile c).code =
      if (fd.after before).offset < fd.length then ((fd.after before).readLeft c).1 else .eof
  unchanged : ∀ before c, before ++ [c] <+: calls → ((fd.after before).readFile c).code ≠ .none →
    (fd.after (before ++ [c])).offset = (fd.after before).offset

/-- A regular file of the kernel, with a length of its own. -/
structure Fd.Regular (fd : Fd) : Prop where
  file : fd.isDirectory = false
  length_pos : 0 < fd.length
  length_lt : fd.length < 2 ^ 64

/-- A call that the system call interface lets through, on a file system that fills the
buffer with the bytes of the file when it returns `ERROR_NONE`. -/
structure ReadCall.Fills (c : ReadCall) (fd : Fd) (content : Mem) : Prop where
  count_pos : 1 ≤ c.count
  count_lt : c.count < 2 ^ 32
  fills : ∀ offset count, offset + count ≤ fd.length →
    (c.readers.read fd.fsType offset count c.buffer).1 = .none →
    ∀ i < count, (c.readers.read fd.fsType offset count c.buffer).2 i = content (offset + i)

/-- The end of the request is an offset of 64 bits, or the request is one that the file system
refuses for the same reason as the request for the bytes that are left. -/
def Fd.RequestFits (fd : Fd) (c : ReadCall) : Prop :=
  fd.offset < fd.length → fd.offset + c.count < 2 ^ 64 ∨
    ((c.readers.read fd.fsType fd.offset c.count c.buffer).1 ≠ .none ∧
      (c.readers.read fd.fsType fd.offset c.count c.buffer).1 = (fd.readLeft c).1)

variable {fd : Fd} {c : ReadCall} {content : Mem}

/-! ## One call -/

/-- A call changes nothing but the offset. -/
theorem Fd.readFile_fd (fd : Fd) (c : ReadCall) :
    (fd.readFile c).fd = { fd with offset := (fd.readFile c).fd.offset } := by
  unfold readFile
  split
  · rfl
  split
  · rfl
  dsimp only
  split
  · rfl
  dsimp only
  split
  · rfl
  · rfl

theorem Fd.readFile_of_end (h : fd.Regular) (hend : fd.length ≤ fd.offset) :
    fd.readFile c = ⟨.eof, fd, Function.update c.buffer 0 0⟩ := by
  have hpos := h.length_pos
  unfold readFile
  rw [if_neg (by simp [h.file]), if_pos ⟨hpos.ne', hend⟩]

/-- In the file a call is one request to the file system. -/
theorem Fd.readFile_of_lt (h : fd.Regular) (hc : 1 ≤ c.count) (hlt : fd.offset < fd.length) :
    let r := c.readers.read fd.fsType fd.offset (fd.readCount c.count) c.buffer
    fd.readFile c =
      ⟨r.1, if r.1 = .none then
        { fd with offset := (fd.offset + fd.readCount c.count) % 2 ^ 64 } else fd, r.2⟩ := by
  have hcount : fd.readCount c.count ≠ 0 := by
    unfold readCount
    split <;> omega
  unfold readFile
  rw [if_neg (by simp [h.file]), if_neg (by omega)]
  dsimp only
  rw [if_neg hcount]

/-- Without a carry the request is the one for the bytes that are left. -/
theorem Fd.readCount_of_lt (hlt : fd.offset < fd.length) {count : ℕ}
    (hsum : fd.offset + count < 2 ^ 64) :
    fd.readCount count = min count (fd.length - fd.offset) := by
  unfold readCount
  rw [add_comm count, Nat.mod_eq_of_lt hsum]
  split <;> omega

/-- With a carry the request is not cut off, although it does not end in the file. -/
theorem Fd.readCount_of_carry (h : fd.Regular) (hlt : fd.offset < fd.length) {count : ℕ}
    (hcount : count < 2 ^ 32) (hsum : 2 ^ 64 ≤ fd.offset + count) : fd.readCount count = count := by
  have hlen := h.length_lt
  unfold readCount
  rw [if_neg]
  omega

/-- The counter of `syscall_read` has 32 bits, and so have the counts. -/
theorem counttr_eq {a n : ℕ} (hn : n < 2 ^ 32) :
    u32 ((a + n) % 2 ^ 64 + 2 ^ 64 - u32 a) = n := by
  unfold u32
  omega

theorem Fd.bytesRead_of_unchanged (h : (fd.readFile c).fd = fd) : fd.bytesRead c = [] := by
  have hcount : u32 (fd.offset + 2 ^ 64 - u32 fd.offset) = 0 := by
    unfold u32
    omega
  unfold bytesRead
  rw [h, hcount]
  rfl

theorem fileBytes_self (content : Mem) (a : ℕ) : fileBytes content a a = [] := by
  simp [fileBytes]

/-- What a call has to do. -/
structure Fd.ReadsPiece (fd : Fd) (content : Mem) (c : ReadCall) : Prop where
  code : (fd.readFile c).code = if fd.offset < fd.length then (fd.readLeft c).1 else .eof
  offset : (fd.readFile c).fd.offset =
    if (fd.readFile c).code = .none then min (fd.offset + c.count) fd.length else fd.offset
  bytes : fd.bytesRead c = fileBytes content fd.offset (fd.readFile c).fd.offset

/-- At the end of the file every call is in order. -/
theorem Fd.readsPiece_of_end (h : fd.Regular) (hend : fd.length ≤ fd.offset) :
    fd.ReadsPiece content c := by
  have hread := readFile_of_end (c := c) h hend
  constructor
  · rw [hread, if_neg (by omega)]
  · rw [hread, if_neg nofun]
  · rw [bytesRead_of_unchanged (by rw [hread]), hread]
    exact (fileBytes_self _ _).symm

/-- A request that the file system refuses moves nothing. -/
theorem Fd.readsPiece_of_refused (h : fd.Regular) (hc : 1 ≤ c.count) (hlt : fd.offset < fd.length)
    (hrefused : (c.readers.read fd.fsType fd.offset (fd.readCount c.count) c.buffer).1 ≠ .none)
    (hcode : (c.readers.read fd.fsType fd.offset (fd.readCount c.count) c.buffer).1 =
      (fd.readLeft c).1) : fd.ReadsPiece content c := by
  have hread := readFile_of_lt h hc hlt
  dsimp only at hread
  rw [if_neg hrefused] at hread
  constructor
  · rw [hread, if_pos hlt]
    exact hcode
  · rw [hread]
    exact (if_neg hrefused).symm
  · rw [bytesRead_of_unchanged (by rw [hread]), hread]
    exact (fileBytes_self _ _).symm

theorem Fd.readsPiece_of_sum_lt (h : fd.Regular) (hc : c.Fills fd content)
    (hlt : fd.offset < fd.length) (hsum : fd.offset + c.count < 2 ^ 64) :
    fd.ReadsPiece content c := by
  have hcount := readCount_of_lt hlt hsum
  have hlen := h.length_lt
  by_cases hnone : (fd.readLeft c).1 = .none
  · -- the file system fills the buffer, and the offset moves behind these bytes
    have hread := readFile_of_lt h hc.count_pos hlt
    dsimp only at hread
    rw [hcount] at hread
    have hoffset : (fd.readFile c).fd.offset =
        (fd.offset + min c.count (fd.length - fd.offset)) % 2 ^ 64 := by
      rw [hread]
      exact congrArg Fd.offset (if_pos hnone)
    have hend : (fd.readFile c).fd.offset = fd.offset + min c.count (fd.length - fd.offset) := by
      rw [hoffset, Nat.mod_eq_of_lt (by omega)]
    have hcode : (fd.readFile c).code = (fd.readLeft c).1 := by
      rw [hread]
      rfl
    constructor
    · rw [hcode, if_pos hlt]
    · rw [hend, if_pos (hcode.trans hnone)]
      omega
    · have hcounttr := counttr_eq (a := fd.offset) (n := min c.count (fd.length - fd.offset))
        (by have := hc.count_lt; omega)
      unfold bytesRead fileBytes
      rw [hoffset, hcounttr, ← hoffset, hend, Nat.add_sub_cancel_left]
      apply List.map_congr_left
      intro i hi
      rw [hread]
      exact hc.fills _ _ (by omega) hnone i (List.mem_range.mp hi)
  · apply readsPiece_of_refused h hc.count_pos hlt
    · rw [hcount]
      exact hnone
    · rw [hcount]
      rfl

/-- A call does what it has to do exactly if its request fits. -/
theorem Fd.readsPiece_iff (h : fd.Regular) (hc : c.Fills fd content) :
    fd.ReadsPiece content c ↔ fd.RequestFits c := by
  have hlen := h.length_lt
  have hcount_lt := hc.count_lt
  rcases Nat.lt_or_ge fd.offset fd.length with hlt | hend
  · rcases Nat.lt_or_ge (fd.offset + c.count) (2 ^ 64) with hsum | hsum
    · exact iff_of_true (readsPiece_of_sum_lt h hc hlt hsum) fun _ => .inl hsum
    · -- a carry: the call asks for all the bytes, and the sum is an offset before this one
      have hcount := readCount_of_carry h hlt hcount_lt hsum
      have hread := readFile_of_lt h hc.count_pos hlt
      dsimp only at hread
      rw [hcount] at hread
      constructor
      · intro hpiece _
        have hcode := hpiece.code
        have hoffset := hpiece.offset
        rw [hread, if_pos hlt] at hcode
        rw [hread] at hoffset
        refine .inr ⟨fun hnone => ?_, hcode⟩
        dsimp only at hoffset
        rw [if_pos hnone, if_pos hnone] at hoffset
        dsimp only at hoffset
        omega
      · intro hfits
        obtain hsum' | ⟨hrefused, hcode⟩ := hfits hlt
        · omega
        · exact readsPiece_of_refused h hc.count_pos hlt (by rwa [hcount]) (by rwa [hcount])
  · exact iff_of_true (readsPiece_of_end h hend) fun hlt => absurd hend (Nat.not_le.mpr hlt)

/-! ## All calls -/

theorem Fd.after_nil (fd : Fd) : fd.after [] = fd := rfl

theorem Fd.after_cons (fd : Fd) (c : ReadCall) (calls : List ReadCall) :
    fd.after (c :: calls) = (fd.readFile c).fd.after calls := List.foldl_cons ..

theorem Fd.after_concat (fd : Fd) (before : List ReadCall) (c : ReadCall) :
    fd.after (before ++ [c]) = ((fd.after before).readFile c).fd := by
  simp [after]

theorem Fd.after_eq (fd : Fd) (calls : List ReadCall) :
    fd.after calls = { fd with offset := (fd.after calls).offset } := by
  induction calls using List.reverseRecOn with
  | nil => rfl
  | append_singleton before c ih =>
    rw [after_concat, readFile_fd]
    rw [ih]

theorem Fd.delivered_concat (fd : Fd) (before : List ReadCall) (c : ReadCall) :
    fd.delivered (before ++ [c]) = fd.delivered before ++ (fd.after before).bytesRead c := by
  induction before generalizing fd with
  | nil => rw [List.nil_append, delivered, delivered, delivered, List.append_nil, List.nil_append, after_nil]
  | cons b before ih =>
    rw [List.cons_append, delivered, delivered, ih, List.append_assoc, after_cons]

theorem Fd.countsRead_concat (fd : Fd) (before : List ReadCall) (c : ReadCall) :
    fd.countsRead (before ++ [c]) = fd.countsRead before +
      if ((fd.after before).readFile c).code = .none then c.count else 0 := by
  induction before generalizing fd with
  | nil => rw [List.nil_append, countsRead, countsRead, countsRead, Nat.add_comm, after_nil]
  | cons b before ih =>
    rw [List.cons_append, countsRead, countsRead, ih, add_assoc, after_cons]

theorem fileBytes_append (content : Mem) {a b e : ℕ} (hab : a ≤ b) (hbe : b ≤ e) :
    fileBytes content a b ++ fileBytes content b e = fileBytes content a e := by
  apply List.ext_getElem
  · simp [fileBytes]
    omega
  · intro i _ _
    by_cases hi : i < b - a
    · simp [fileBytes, hi]
    · simp [fileBytes, List.getElem_append, hi]
      congr 1
      omega


@[simp] theorem Fd.after_length (fd : Fd) (calls : List ReadCall) :
    (fd.after calls).length = fd.length := by
  rw [after_eq]

@[simp] theorem Fd.after_fsType (fd : Fd) (calls : List ReadCall) :
    (fd.after calls).fsType = fd.fsType := by
  rw [after_eq]

theorem Fd.Regular.after (h : fd.Regular) (calls : List ReadCall) : (fd.after calls).Regular := by
  rw [after_eq]
  exact ⟨h.file, h.length_pos, h.length_lt⟩

theorem ReadCall.Fills.after (h : c.Fills fd content) (calls : List ReadCall) :
    c.Fills (fd.after calls) content := by
  rw [Fd.after_eq]
  exact ⟨h.count_pos, h.count_lt, h.fills⟩

/-- What a sequence of calls has to do, from what each of them has to do. -/
theorem Fd.offset_of_pieces (hoffset : fd.offset ≤ fd.length) {calls : List ReadCall}
    (h : ∀ before c, before ++ [c] <+: calls → (fd.after before).ReadsPiece content c)
    {before : List ReadCall} (hbefore : before <+: calls) :
    (fd.after before).offset = min (fd.offset + fd.countsRead before) fd.length ∧
      fd.delivered before = fileBytes content fd.offset (fd.after before).offset := by
  induction before using List.reverseRecOn with
  | nil =>
    rw [after_nil, countsRead, delivered, fileBytes_self]
    exact ⟨by omega, rfl⟩
  | append_singleton before c ih =>
    obtain ⟨ihoffset, ihbytes⟩ := ih ((List.prefix_append before [c]).trans hbefore)
    have hpiece := h before c hbefore
    have hnext := hpiece.offset
    have hnext' : ((fd.after before).readFile c).fd.offset =
        min (fd.offset + fd.countsRead (before ++ [c])) fd.length := by
      rw [hnext, countsRead_concat, after_length]
      split <;> omega
    constructor
    · rw [after_concat, hnext']
    · rw [delivered_concat, ihbytes, hpiece.bytes, after_concat]
      apply fileBytes_append
      · omega
      · rw [hnext', countsRead_concat]
        omega

theorem Fd.readsInPieces_iff_forall (hoffset : fd.offset ≤ fd.length) (calls : List ReadCall) :
    fd.ReadsInPieces content calls ↔
      ∀ before c, before ++ [c] <+: calls → (fd.after before).ReadsPiece content c := by
  constructor
  · intro h before c hconcat
    have hbefore : before <+: calls := (List.prefix_append before [c]).trans hconcat
    have hfirst := h.offset before hbefore
    have hlast := h.offset _ hconcat
    rw [after_concat, countsRead_concat] at hlast
    constructor
    · rw [h.code before c hconcat, after_length]
    · by_cases hnone : ((fd.after before).readFile c).code = .none
      · rw [if_pos hnone] at hlast ⊢
        rw [hlast, after_length]
        omega
      · rw [if_neg hnone, ← after_concat]
        exact h.unchanged before c hconcat hnone
    · -- the bytes before the call are the same on both sides
      have hbytes := h.bytes _ hconcat
      rw [delivered_concat, h.bytes before hbefore, after_concat] at hbytes
      apply (List.append_right_inj (fileBytes content fd.offset (fd.after before).offset)).mp
      rw [hbytes, fileBytes_append]
      · omega
      · rw [hlast]
        omega
  · intro h
    constructor
    · exact fun before hbefore => (offset_of_pieces hoffset h hbefore).1
    · exact fun before hbefore => (offset_of_pieces hoffset h hbefore).2
    · intro before c hconcat
      rw [(h before c hconcat).code, after_length]
    · intro before c hconcat hfailed
      rw [after_concat, (h before c hconcat).offset, if_neg hfailed]

/-- Every request fits if the file ends a request away from the largest offset. -/
theorem Fd.requestFits_of_length_le (h : fd.length + c.count ≤ 2 ^ 64) : fd.RequestFits c := by
  intro hlt
  left
  omega

/-- A file system that has the bytes of a file of `length` bytes and no others. -/
def readerOf (content : Mem) (length : ℕ) : Reader := fun offset count buffer =>
  if offset + count ≤ length then (.none, fun i => content (offset + i)) else (.fileOut, buffer)

/-- A call that the file system of the file answers, or all file systems refuse. -/
def callOf (content : Mem) (length count : ℕ) (fails : Bool) : ReadCall :=
  let reader : Reader := fun offset count buffer =>
    if fails then (.io, buffer) else readerOf content length offset count buffer
  ⟨count, fun _ => 0, ⟨reader, reader, reader, reader⟩⟩

theorem callOf_fills (fd : Fd) (content : Mem) {count : ℕ} (fails : Bool) (hpos : 1 ≤ count)
    (hlt : count < 2 ^ 32) (hfs : fd.fsType = .ext2) :
    (callOf content fd.length count fails).Fills fd content := by
  constructor
  · exact hpos
  · exact hlt
  · intro offset n hend hnone i _
    rw [hfs] at hnone ⊢
    cases fails with
    | true => exact nomatch hnone
    | false => simp [callOf, Readers.read, readerOf, hend]


/-- Reading in pieces gives the bytes of the file, call by call and whichever calls fail,
exactly if every request that starts in the file fits. -/
theorem readsInPieces_iff {fd : Fd} {content : Mem} {calls : List ReadCall} (h : fd.Regular)
    (hoffset : fd.offset ≤ fd.length) (hcalls : ∀ c ∈ calls, c.Fills fd content) :
    fd.ReadsInPieces content calls ↔
      ∀ before c, before ++ [c] <+: calls → (fd.after before).RequestFits c := by
  rw [Fd.readsInPieces_iff_forall hoffset]
  apply forall_congr'
  intro before
  apply forall_congr'
  intro c
  apply imp_congr_right
  intro hconcat
  have hmem : c ∈ calls := hconcat.subset (by simp)
  exact Fd.readsPiece_iff (h.after before) ((hcalls c hmem).after before)

/-- A file of five bytes: two bytes, a call that fails, more than what is left, and the end. -/
theorem readsInPieces_five : (⟨false, 5, .ext2, 0⟩ : Fd).ReadsInPieces (fun i => UInt8.ofNat i)
    [callOf (fun i => UInt8.ofNat i) 5 2 false, callOf (fun i => UInt8.ofNat i) 5 4 true,
      callOf (fun i => UInt8.ofNat i) 5 4 false, callOf (fun i => UInt8.ofNat i) 5 1 false] := by
  refine (readsInPieces_iff ⟨rfl, by decide, by decide⟩ (by decide) ?_).mpr ?_
  · intro c hc
    simp only [List.mem_cons, List.not_mem_nil, or_false] at hc
    rcases hc with rfl | rfl | rfl | rfl
    all_goals exact callOf_fills ⟨false, 5, .ext2, 0⟩ _ _ (by decide) (by decide) rfl
  · intro before c hconcat
    have hmem := hconcat.subset (List.mem_append_right before (List.mem_singleton_self c))
    apply Fd.requestFits_of_length_le
    rw [Fd.after_length]
    simp only [List.mem_cons, List.not_mem_nil, or_false] at hmem
    rcases hmem with rfl | rfl | rfl | rfl
    all_goals decide

/-- The last byte of a file of the largest length is not read: the end of the request wraps
around, so the request is not cut off, and the file system refuses it. -/
theorem readsInPieces_fails_wrapped : ∃ fd : Fd, ∃ content : Mem,
    fd.Regular ∧ fd.offset ≤ fd.length ∧ (callOf content fd.length 2 false).Fills fd content ∧
      ¬fd.ReadsInPieces content [callOf content fd.length 2 false] := by
  refine ⟨⟨false, 2 ^ 64 - 1, .ext2, 2 ^ 64 - 2⟩, fun _ => 0, ⟨rfl, by decide, by decide⟩,
    by decide, callOf_fills _ _ _ (by decide) (by decide) rfl, fun h => ?_⟩
  have hcode := h.code [] _ (List.prefix_refl _)
  exact absurd hcode (by decide)

end VkKernel.Vfs
