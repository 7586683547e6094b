import VkKernel.Ext2DirUpdate
import VkKernel.Fat32Dir
import VkKernel.State
import VkKernel.Lib.RecordScan

/-!
# Scans of directories

The loops of `ext2_remove_dirent`, `ext2_create_dirent`, `iso9660_open` and
`iso9660_list_dir` step over records by the length that a record claims, and take that
length from an unsigned counter. `ext2_list_dir` and `ext2_open` compare both first.
-/

namespace VkKernel.Iso9660
open ByteMemory PackedStruct RecordScan

/-! ## ISO 9660 -/

namespace DirEntry

def length : Field := ⟨0, 1⟩
def extentStartLsb : Field := ⟨2, 4⟩
def nameLen : Field := ⟨32, 1⟩

end DirEntry

section Entries
variable (m : Mem) (p : ℕ)

def entryLength : ℕ := DirEntry.length.get (window m p)

def entryNameLen : ℕ := DirEntry.nameLen.get (window m p)

def entryExtent : ℕ := DirEntry.extentStartLsb.get (window m p)

/-- What `strncpy` copies of the name, up to a zero byte. -/
def entryName : List UInt8 :=
  ((List.range (entryNameLen m p)).map fun i => m (p + 33 + i)).takeWhile (· ≠ 0)

/-- `dname` of `iso9660_open`: the name without its version and without a dot at its end.
If the name is empty, the byte before the buffer is compared with the dot; it is the high
byte of the status of the heap block. -/
def openName : List UInt8 :=
  let dname := entryName m p
  let dname := if entryNameLen m p > 2 ∧ dname[entryNameLen m p - 2]? = some 0x3B then
    dname.take (entryNameLen m p - 2) else dname
  if entryNameLen m p > 1 ∧ dname.getLast? = some 0x2E then dname.dropLast else dname

/-- `!strcmpnc(dname, name)` -/
def isNamed (name : List UInt8) : Prop :=
  Fat32.strcmpnc (cstring (openName m p)) (cstring name) ((openName m p).length + 1) 0

instance (name : List UInt8) : Decidable (isNamed m p name) := inferInstanceAs (Decidable (_ = _))

/-- A `dirent_t`. -/
structure Listed where
  name : List UInt8
  nameLen : ℕ
  inode : ℕ
deriving DecidableEq, Repr

def listed (index : ℕ) : Listed :=
  if index = 0 then ⟨[0x2E], 1, entryExtent m p⟩
  else if index = 1 then ⟨[0x2E, 0x2E], 2, entryExtent m p⟩
  else ⟨entryName m p, entryNameLen m p, entryExtent m p⟩

end Entries

/-- The loop of `iso9660_open`: the offset of the entry that it opens. -/
def openLoop (m : Mem) (name : List UInt8) : ℕ → ℕ → ℕ → Option (Option ℕ)
  | 0, _, _ => none
  | fuel + 1, length, offset =>
    if length = 0 then some none
    else if entryLength m offset = 0 then openLoop m name fuel (sub32 length 1) (u32 (offset + 1))
    else if isNamed m offset name then some (some offset)
    else openLoop m name fuel (sub32 length (entryLength m offset))
      (u32 (offset + entryLength m offset))

/-- The loop of `iso9660_list_dir`. -/
def listLoop (m : Mem) : ℕ → ℕ → ℕ → ℕ → Option (List Listed)
  | 0, _, _, _ => none
  | fuel + 1, length, offset, index =>
    if length = 0 then some []
    else if entryLength m offset = 0 then listLoop m fuel (sub32 length 1) (u32 (offset + 1)) index
    else
      (listLoop m fuel (sub32 length (entryLength m offset)) (u32 (offset + entryLength m offset))
        (u32 (index + 1))).map (listed m offset index :: ·)

/-! ## The four scans -/

/-- Bytes between records are passed over one by one. -/
def isoStride (m : Mem) (p : ℕ) : ℕ := if entryLength m p = 0 then 1 else entryLength m p

def openScan (m : Mem) (name : List UInt8) : Scan where
  stop p := entryLength m p ≠ 0 ∧ isNamed m p name
  stride := isoStride m
  counter := 2 ^ 32
  offset := 2 ^ 32

def listScan (m : Mem) : Scan where
  stop _ := False
  stride := isoStride m
  counter := 2 ^ 32
  offset := 2 ^ 32

def createScan (m : Mem) : Scan where
  stop p := Ext2.direntInode m p = 0
  stride := Ext2.stride m
  counter := 2 ^ 64
  offset := 2 ^ 32

def removeScan (m : Mem) (name : List UInt8) : Scan where
  stop p := Ext2.direntInode m p = 0 ∨
    strcfirst (cstring name) (window m (p + 8)) (name.length + 1) 0 % 2 ^ 16 = name.length
  stride := Ext2.stride m
  counter := 2 ^ 64
  offset := 2 ^ 32

theorem openLoop_isSome {m : Mem} {name : List UInt8} {fuel length offset : ℕ} :
    (openLoop m name fuel length offset).isSome ↔ (openScan m name).EndsIn fuel (length, offset) := by
  induction fuel generalizing length offset with
  | zero => simp [openLoop, Scan.EndsIn]
  | succ fuel ih =>
    rw [openLoop, Scan.EndsIn]
    by_cases h0 : length = 0
    · simp [h0]
    rw [if_neg h0]
    by_cases he : entryLength m offset = 0
    · have hstop : ¬(openScan m name).stop offset := fun h => h.1 he
      have hstride : (openScan m name).stride offset = 1 := if_pos he
      rw [if_pos he, ih]
      simp only [h0, hstop, hstride, false_or]
      rfl
    have hstride : (openScan m name).stride offset = entryLength m offset := if_neg he
    rw [if_neg he]
    by_cases hn : isNamed m offset name
    · have hstop : (openScan m name).stop offset := ⟨he, hn⟩
      simp [hn, hstop]
    · have hstop : ¬(openScan m name).stop offset := fun h => hn h.2
      rw [if_neg hn, ih]
      simp only [h0, hstop, hstride, false_or]
      rfl

theorem listLoop_isSome {m : Mem} {fuel length offset index : ℕ} :
    (listLoop m fuel length offset index).isSome ↔ (listScan m).EndsIn fuel (length, offset) := by
  induction fuel generalizing length offset index with
  | zero => simp [listLoop, Scan.EndsIn]
  | succ fuel ih =>
    rw [listLoop, Scan.EndsIn]
    have hstop : ¬(listScan m).stop offset := id
    by_cases h0 : length = 0
    · simp [h0]
    rw [if_neg h0]
    by_cases he : entryLength m offset = 0
    · have hstride : (listScan m).stride offset = 1 := if_pos he
      rw [if_pos he, ih]
      simp only [h0, hstop, hstride, false_or]
      rfl
    · have hstride : (listScan m).stride offset = entryLength m offset := if_neg he
      rw [if_neg he, Option.isSome_map, ih]
      simp only [h0, hstop, hstride, false_or]
      rfl

theorem createLoop_isSome {m : Mem} {fuel length offset : ℕ} :
    (Ext2.createLoop m fuel length offset).isSome ↔ (createScan m).EndsIn fuel (length, offset) := by
  induction fuel generalizing length offset with
  | zero => simp [Ext2.createLoop, Scan.EndsIn]
  | succ fuel ih =>
    rw [Ext2.createLoop, Scan.EndsIn]
    dsimp only [createScan]
    split_ifs with h0 hi
    · simp [h0]
    · simp [hi]
    · rw [ih]
      simp only [h0, hi, false_or]
      rfl

theorem removeLoop_isSome {m : Mem} {name : List UInt8} {fuel length offset : ℕ} :
    (Ext2.removeLoop m name fuel length offset).isSome ↔
      (removeScan m name).EndsIn fuel (length, offset) := by
  induction fuel generalizing length offset with
  | zero => simp [Ext2.removeLoop, Scan.EndsIn]
  | succ fuel ih =>
    rw [Ext2.removeLoop, Scan.EndsIn]
    dsimp only [removeScan]
    split_ifs with h0 hi hn
    · simp [h0]
    · simp [hi]
    · exact iff_of_true rfl (Or.inr (Or.inl (Or.inr hn)))
    · rw [ih]
      simp only [h0, hi, hn, false_or]
      rfl

theorem isoStride_pos (m : Mem) (p : ℕ) : 0 < isoStride m p := by
  unfold isoStride
  split_ifs
  · exact Nat.one_pos
  · omega

theorem stride_pos (m : Mem) (p : ℕ) : 0 < Ext2.stride m p := by
  unfold Ext2.stride
  omega

/-- The loop ends, and only examines records inside the directory. -/
def ScanSafe (terminates : Prop) (s : Scan) (length : ℕ) : Prop := terminates ∧ s.StaysInside length

theorem scanSafe_iff {terminates : ℕ → Prop} {s : Scan} {length : ℕ}
    (hends : ∀ n, terminates n ↔ s.EndsIn n (length, 0)) (hpos : ∀ o, 0 < s.stride o)
    (hlen : length < s.counter) : ScanSafe (∃ n, terminates n) s length ↔ s.FitsIn length := by
  rw [← Scan.staysInside_iff hpos hlen, ScanSafe]
  simp only [hends]

/-- Each of the loops is safe exactly in the directories whose records run into the end, or
into a record that ends the loop. -/
theorem directory_scans_safe_iff (m : Mem) (name : List UInt8) :
    (∀ length < 2 ^ 64,
      (ScanSafe (∃ fuel, (Ext2.removeLoop m name fuel length 0).isSome) (removeScan m name) length ↔
        (removeScan m name).FitsIn length) ∧
      (ScanSafe (∃ fuel, (Ext2.createLoop m fuel length 0).isSome) (createScan m) length ↔
        (createScan m).FitsIn length)) ∧
    ∀ length < 2 ^ 32,
      (ScanSafe (∃ fuel, (openLoop m name fuel length 0).isSome) (openScan m name) length ↔
        (openScan m name).FitsIn length) ∧
      (ScanSafe (∃ fuel, (listLoop m fuel length 0 0).isSome) (listScan m) length ↔
        (listScan m).FitsIn length) := by
  constructor
  · intro length hlen
    exact ⟨scanSafe_iff (fun _ => removeLoop_isSome) (stride_pos m) hlen,
      scanSafe_iff (fun _ => createLoop_isSome) (stride_pos m) hlen⟩
  · intro length hlen
    exact ⟨scanSafe_iff (fun _ => openLoop_isSome) (isoStride_pos m) hlen,
      scanSafe_iff (fun _ => listLoop_isSome) (isoStride_pos m) hlen⟩

/-- A directory of zeros. -/
theorem directory_scans_safe_zero :
    ScanSafe (∃ fuel, (Ext2.createLoop (fun _ => 0) fuel 24 0).isSome) (createScan fun _ => 0) 24 :=
  ((directory_scans_safe_iff (fun _ => 0) []).1 24 (by decide)).2.mpr
    ⟨0, by simp, Nat.zero_le _, Or.inr rfl⟩

/-- A used ext2 record with a name of 255 bytes, or an ISO 9660 record of 255 bytes. -/
def longRecord : Mem := fun x => if x = 0 ∨ x = 6 then 255 else 0

/-- None of the loops is safe in a directory of 12 bytes that starts with this record. -/
theorem directory_scans_unsafe :
    ¬ScanSafe (∃ fuel, (Ext2.removeLoop longRecord [97] fuel 12 0).isSome)
      (removeScan longRecord [97]) 12 ∧
    ¬ScanSafe (∃ fuel, (Ext2.createLoop longRecord fuel 12 0).isSome) (createScan longRecord) 12 ∧
    ¬ScanSafe (∃ fuel, (openLoop longRecord [97] fuel 12 0).isSome) (openScan longRecord [97]) 12 ∧
    ¬ScanSafe (∃ fuel, (listLoop longRecord fuel 12 0 0).isSome) (listScan longRecord) 12 := by
  refine ⟨?_, ?_, ?_, ?_⟩
  · rw [scanSafe_iff (fun _ => removeLoop_isSome) (stride_pos longRecord) (by decide)]
    exact Scan.not_fitsIn_of_lt (stride_pos longRecord) (by decide) (by
      change ¬(_ = 0 ∨ _ = 1)
      decide) (by decide)
  · rw [scanSafe_iff (fun _ => createLoop_isSome) (stride_pos longRecord) (by decide)]
    exact Scan.not_fitsIn_of_lt (stride_pos longRecord) (by decide) (by
      change ¬_ = 0
      decide) (by decide)
  · rw [scanSafe_iff (fun _ => openLoop_isSome) (isoStride_pos longRecord) (by decide)]
    exact Scan.not_fitsIn_of_lt (isoStride_pos longRecord) (by decide) (by
      change ¬(_ ≠ 0 ∧ isNamed longRecord 0 [97])
      decide) (by decide)
  · rw [scanSafe_iff (fun _ => listLoop_isSome) (isoStride_pos longRecord) (by decide)]
    exact Scan.not_fitsIn_of_lt (isoStride_pos longRecord) (by decide) id (by decide)

end VkKernel.Iso9660
