import VkKernel.DirectoryScans
import VkKernel.Fat32Delete
import VkKernel.Time

/-!
# Names on an ISO 9660 volume

`iso9660_list_dir` returns the identifier of a record as it is. `iso9660_open` takes the
version and then a dot off the identifiers, but not off the name that it looks for, so a
name with one of the two is not found.
-/

namespace VkKernel.Iso9660
open ByteMemory PackedStruct Fat32

/-! ## The source -/

namespace DirEntry

def extentSizeLsb : Field := ⟨10, 4⟩
def year : Field := ⟨18, 1⟩
def month : Field := ⟨19, 1⟩
def day : Field := ⟨20, 1⟩
def hour : Field := ⟨21, 1⟩
def minute : Field := ⟨22, 1⟩
def second : Field := ⟨23, 1⟩
def flags : Field := ⟨25, 1⟩

end DirEntry

def recordTime (m : Mem) (p : ℕ) : ReadableTime where
  seconds := DirEntry.second.get (window m p)
  minutes := DirEntry.minute.get (window m p)
  hour := DirEntry.hour.get (window m p)
  day := DirEntry.day.get (window m p)
  month := DirEntry.month.get (window m p)
  year := DirEntry.year.get (window m p)

def flagHidden : ℕ := 1
def flagDir : ℕ := 2
def attrDir : ℕ := 1
def attrHidden : ℕ := 2

/-- A `fsnode_t` and the `extent_start` behind its `specific`. -/
structure Node where
  hardLinks : ℕ
  length : ℕ
  creationTime : ℤ
  lastModificationTime : ℤ
  lastAccessTime : ℤ
  attributes : ℕ
  extentStart : ℕ

/-- The node of a record that is not in the cache. -/
def newNode (m : Mem) (p : ℕ) : Node where
  hardLinks := 1
  length := DirEntry.extentSizeLsb.get (window m p)
  creationTime := convertToStdTime (recordTime m p)
  lastModificationTime := convertToStdTime (recordTime m p)
  lastAccessTime := 0
  attributes :=
    (if DirEntry.flags.get (window m p) &&& flagHidden ≠ 0 then attrHidden else 0) |||
      if DirEntry.flags.get (window m p) &&& flagDir ≠ 0 then attrDir else 0
  extentStart := entryExtent m p

/-- `iso9660_dirent_normalize_cache` -/
def direntNormalizeCache (m : Mem) (p : ℕ) (cache : List Node) : Node × List Node :=
  match cache.find? fun element => element.extentStart = entryExtent m p with
  | some element => (element, cache)
  | none => (newNode m p, cache ++ [newNode m p])

/-- `iso9660_open`, the node and the cache. `data` is what `block_read_flexible` reads, if it
succeeds. A round of the loop takes a byte of the length at least. -/
def iso9660Open (data : Option Mem) (length : ℕ) (name : List UInt8) (cache : List Node) :
    Option (Option Node × List Node) :=
  match data with
  | none => some (none, cache)
  | some m => (openLoop m name (length + 1) length 0).map fun found =>
    match found with
    | none => (none, cache)
    | some p =>
      let r := direntNormalizeCache m p cache
      (some r.1, r.2)

/-- `iso9660_list_dir`, with no list if the read fails. -/
def iso9660ListDir (data : Option Mem) (length : ℕ) : Option (Option (List Listed)) :=
  match data with
  | none => some none
  | some m => (listLoop m (length + 1) length 0 0).map some

/-! ## Directories -/

/-- An identifier: a name that does not end with a dot, then maybe a dot and maybe a version.
The bytes 0 and 1 are the names of the directory itself and of its parent. -/
structure Identifier where
  base : List UInt8
  dot : Bool
  version : Bool
  nonempty : base ≠ []
  chars : ∀ c ∈ base, 1 < c ∧ c ≠ 0x3B
  noDot : base.getLast? ≠ some 0x2E

def Identifier.bytes (id : Identifier) : List UInt8 :=
  id.base ++ ((if id.dot then [0x2E] else []) ++ if id.version then [0x3B, 0x31] else [])

/-- A record with this identifier, which is as long as it has to be at least. -/
structure HasRecord (m : Mem) (p : ℕ) (id : List UInt8) : Prop where
  length : 33 + id.length ≤ entryLength m p
  nameLen : entryNameLen m p = id.length
  name : ∀ i < id.length, m (p + 33 + i) = id.getD i 0

/-- The `n` bytes at `o` are these records, with zero bytes before, between and behind them. -/
inductive Layout (m : Mem) : ℕ → ℕ → List (ℕ × List UInt8) → Prop
  | done (o : ℕ) : Layout m o 0 []
  | pad {o n : ℕ} {rs : List (ℕ × List UInt8)} : m o = 0 → Layout m (o + 1) n rs →
      Layout m o (n + 1) rs
  | record {o n : ℕ} {id : List UInt8} {rs : List (ℕ × List UInt8)} : HasRecord m o id →
      Layout m (o + entryLength m o) n rs → Layout m o (entryLength m o + n) ((o, id) :: rs)

/-- A record behind the first two and its identifier. -/
structure File where
  offset : ℕ
  identifier : Identifier

def File.record (f : File) : ℕ × List UInt8 := (f.offset, f.identifier.bytes)

/-- The records of a directory. The first two are the directory itself and its parent. -/
def records (self parent : ℕ) (files : List File) : List (ℕ × List UInt8) :=
  (self, [0]) :: (parent, [1]) :: files.map File.record

def IsDirectory (m : Mem) (length self parent : ℕ) (files : List File) : Prop :=
  Layout m 0 length (records self parent files)

/-- Every record is listed, and all names but `.` and `..` open the entry they come from. -/
def OpensListed (m : Mem) (length count : ℕ) : Prop :=
  ∃ entries, iso9660ListDir (some m) length = some (some entries) ∧ entries.length = count ∧
    ∀ e ∈ entries, e.name ≠ [0x2E] → e.name ≠ [0x2E, 0x2E] → ∀ cache, ∃ node cache',
      iso9660Open (some m) length e.name cache = some (some node, cache') ∧
        node.extentStart = e.inode

/-- No identifier has a version or a dot at its end, and names that are equal without case
have the same extent. -/
structure PlainNames (m : Mem) (files : List File) : Prop where
  plain : ∀ f ∈ files, f.identifier.dot = false ∧ f.identifier.version = false
  extents : ∀ f ∈ files, ∀ g ∈ files, sameName f.identifier.base g.identifier.base →
    entryExtent m f.offset = entryExtent m g.offset

/-! ## Identifiers -/

section Identifiers
variable {m : Mem} {p : ℕ} {id : Identifier} {name : List UInt8}

theorem Identifier.ne_zero (id : Identifier) : ∀ c ∈ id.bytes, c ≠ 0 := by
  have hbase : ∀ c ∈ id.base, c ≠ 0 := by
    intro c hc hzero
    have h := (id.chars c hc).1
    rw [hzero] at h
    exact absurd h (by decide)
  intro c hc
  unfold Identifier.bytes at hc
  rcases List.mem_append.mp hc with hc | hc
  · exact hbase c hc
  rcases List.mem_append.mp hc with hc | hc
  · split_ifs at hc
    · rw [List.mem_singleton.mp hc]
      decide
    · exact absurd hc List.not_mem_nil
  · split_ifs at hc
    · rcases List.mem_cons.mp hc with rfl | hc
      · decide
      · rw [List.mem_singleton.mp hc]
        decide
    · exact absurd hc List.not_mem_nil

theorem entryLength_eq (m : Mem) (p : ℕ) : entryLength m p = (m p).toNat := by
  unfold entryLength Field.get
  simp [DirEntry.length, loadLE, window]

/-- The bytes of the name in memory. -/
theorem HasRecord.entryName_eq {id : List UInt8} (h : HasRecord m p id) :
    entryName m p = id.takeWhile (· ≠ 0) := by
  unfold entryName
  rw [h.nameLen]
  congr 1
  apply List.ext_getElem
  · rw [List.length_map, List.length_range]
  · intro i hi hi'
    rw [List.getElem_map, List.getElem_range, h.name i hi', List.getD_eq_getElem _ _ hi']

theorem HasRecord.entryName_bytes (h : HasRecord m p id.bytes) : entryName m p = id.bytes := by
  rw [h.entryName_eq]
  exact List.takeWhile_eq_self_iff.mpr fun c hc => decide_eq_true (id.ne_zero c hc)

/-- The name with its dot. -/
def Identifier.stem (id : Identifier) : List UInt8 := id.base ++ if id.dot then [0x2E] else []

theorem Identifier.bytes_eq (id : Identifier) :
    id.bytes = id.stem ++ if id.version then [0x3B, 0x31] else [] :=
  (List.append_assoc ..).symm

theorem Identifier.stem_pos (id : Identifier) : 0 < id.stem.length := by
  have hpos := List.length_pos_of_ne_nil id.nonempty
  unfold stem
  rw [List.length_append]
  omega

theorem Identifier.semicolon_notMem_stem (id : Identifier) : 0x3B ∉ id.stem := by
  intro h
  unfold stem at h
  rcases List.mem_append.mp h with h | h
  · exact (id.chars _ h).2 rfl
  · split_ifs at h
    · exact absurd (List.mem_singleton.mp h) (by decide)
    · exact absurd h List.not_mem_nil

/-- The version is cut off. -/
theorem Identifier.cut_version (id : Identifier) :
    (if id.bytes.length > 2 ∧ id.bytes[id.bytes.length - 2]? = some 0x3B then
      id.bytes.take (id.bytes.length - 2) else id.bytes) = id.stem := by
  have hpos := id.stem_pos
  cases hv : id.version with
  | true =>
    have hbytes : id.bytes = id.stem ++ [0x3B, 0x31] := by
      rw [id.bytes_eq, hv]
      rfl
    have hlength : id.bytes.length = id.stem.length + 2 := by
      rw [hbytes, List.length_append]
      rfl
    rw [hlength, Nat.add_sub_cancel, hbytes, List.getElem?_append_right le_rfl, Nat.sub_self,
      List.take_left, if_pos ⟨by omega, rfl⟩]
  | false =>
    have hbytes : id.bytes = id.stem := by
      rw [id.bytes_eq, hv]
      exact List.append_nil _
    rw [hbytes, if_neg]
    intro h
    exact id.semicolon_notMem_stem (List.mem_of_getElem? h.2)

/-- Then the dot is. -/
theorem Identifier.cut_dot (id : Identifier) :
    (if id.bytes.length > 1 ∧ id.stem.getLast? = some 0x2E then id.stem.dropLast else id.stem) =
      id.base := by
  have hpos := List.length_pos_of_ne_nil id.nonempty
  cases hd : id.dot with
  | true =>
    have hstem : id.stem = id.base ++ [0x2E] := by
      unfold stem
      rw [hd]
      rfl
    have hlt : id.bytes.length > 1 := by
      rw [id.bytes_eq, hstem, List.length_append, List.length_append, List.length_singleton]
      omega
    rw [hstem, List.getLast?_append, List.dropLast_concat, if_pos ⟨hlt, rfl⟩]
  | false =>
    have hstem : id.stem = id.base := by
      unfold stem
      rw [hd]
      exact List.append_nil _
    rw [hstem, if_neg fun h => id.noDot h.2]

/-- What `iso9660_open` compares with is the name without version and dot. -/
theorem HasRecord.openName_eq (h : HasRecord m p id.bytes) : openName m p = id.base := by
  unfold openName
  rw [h.entryName_bytes, h.nameLen]
  dsimp only
  rw [id.cut_version]
  exact id.cut_dot

theorem isNamed_iff_of_openName {base : List UInt8} (h : openName m p = base)
    (hbase : ∀ c ∈ base, c ≠ 0) (hname : ∀ c ∈ name, c ≠ 0) :
    isNamed m p name ↔ sameName base name := by
  unfold isNamed
  rw [h]
  exact strcmpnc_iff (isString_cstring hbase) hname (Nat.lt_succ_self _)

theorem Identifier.base_ne_zero (id : Identifier) : ∀ c ∈ id.base, c ≠ 0 := fun c hc =>
  id.ne_zero c (List.mem_append_left _ hc)

theorem HasRecord.isNamed_iff (h : HasRecord m p id.bytes) (hname : ∀ c ∈ name, c ≠ 0) :
    isNamed m p name ↔ sameName id.base name :=
  isNamed_iff_of_openName h.openName_eq id.base_ne_zero hname

/-- A name of one byte stays as it is. -/
theorem HasRecord.openName_singleton {c : UInt8} (h : HasRecord m p [c]) :
    openName m p = [c].takeWhile (· ≠ 0) := by
  unfold openName
  rw [h.entryName_eq, h.nameLen]
  simp

/-- Neither of the first two records is found by the name of a file. -/
theorem HasRecord.not_isNamed {c : UInt8} (h : HasRecord m p [c]) (hc : c ≤ 1) :
    ¬isNamed m p id.bytes := by
  obtain ⟨d, ds, hd⟩ := List.exists_cons_of_ne_nil id.nonempty
  have hd1 : 1 < d := (id.chars d (hd ▸ List.mem_cons_self ..)).1
  have hbytes : ∃ ds', id.bytes = d :: ds' := by
    unfold Identifier.bytes
    rw [hd]
    exact ⟨_, rfl⟩
  obtain ⟨ds', hbytes⟩ := hbytes
  have hbase : ∀ e ∈ [c].takeWhile (· ≠ 0), e ≠ 0 := fun e he => ne_zero_of_mem_takeWhile he
  rw [isNamed_iff_of_openName h.openName_singleton hbase id.ne_zero, hbytes]
  by_cases hzero : c = 0
  · rw [hzero]
    exact fun hsame => absurd hsame (List.cons_ne_nil _ _).symm
  · have hone : c = 1 := by
      rw [← UInt8.toNat_inj] at hzero ⊢
      have := UInt8.le_iff_toNat_le.mp hc
      change _ ≤ 1 at this
      change _ ≠ 0 at hzero
      change _ = 1
      omega
    rw [hone]
    intro hsame
    have hhead := (List.cons.inj hsame).1
    -- only the byte 1 itself becomes 1 in lower case
    have hlower : ∀ e : UInt8, 1 < e → toLower 1 ≠ toLower e := by decide +kernel
    exact hlower d hd1 hhead

theorem Identifier.bytes_of_plain (hdot : id.dot = false) (hversion : id.version = false) :
    id.bytes = id.base := by
  unfold Identifier.bytes
  rw [hdot, hversion]
  exact List.append_nil _

/-- Version and dot stay different from everything else without case. -/
theorem toLower_eq_self {c d : UInt8} (hd : d = 0x2E ∨ d = 0x3B) (h : toLower c = toLower d) :
    c = d := by
  have hdot : ∀ c, toLower c = toLower 0x2E → c = 0x2E := by decide +kernel
  have hsemicolon : ∀ c, toLower c = toLower 0x3B → c = 0x3B := by decide +kernel
  rcases hd with rfl | rfl
  · exact hdot c h
  · exact hsemicolon c h

/-- Only a name without version and dot is equal to what `iso9660_open` compares with. -/
theorem plain_of_sameName {id' : Identifier} (h : sameName id'.base id.bytes) :
    id.dot = false ∧ id.version = false := by
  have hversion : id.version = false := by
    rw [← Bool.not_eq_true]
    intro hv
    have hmem : 0x3B ∈ id.bytes := by
      rw [id.bytes_eq, hv]
      exact List.mem_append_right _ (List.mem_cons_self ..)
    have hlower := List.mem_map_of_mem (f := toLower) hmem
    rw [← h] at hlower
    obtain ⟨c, hc, heq⟩ := List.mem_map.mp hlower
    exact (id'.chars c hc).2 (toLower_eq_self (Or.inr rfl) heq)
  refine ⟨?_, hversion⟩
  rw [← Bool.not_eq_true]
  intro hd
  have hlast : id.bytes.getLast? = some 0x2E := by
    unfold Identifier.bytes
    rw [hd, hversion, List.getLast?_append]
    rfl
  have hlower := congrArg List.getLast? h
  rw [List.getLast?_map, List.getLast?_map, hlast, Option.map_some,
    Option.map_eq_some_iff] at hlower
  obtain ⟨c, hc, heq⟩ := hlower
  rw [toLower_eq_self (Or.inl rfl) heq] at hc
  exact id'.noDot hc

end Identifiers

/-! ## The loops over a directory -/

/-- The entries of these records, the first one with this index. -/
def listing (m : Mem) : ℕ → List (ℕ × List UInt8) → List Listed
  | _, [] => []
  | index, r :: rs => listed m r.1 index :: listing m (index + 1) rs

section Loops
variable {m : Mem} {o n fuel index : ℕ} {rs : List (ℕ × List UInt8)} {name : List UInt8}

theorem HasRecord.length_pos {id : List UInt8} (h : HasRecord m o id) : 0 < entryLength m o := by
  have := h.length
  omega

theorem sub32_add_left {a b : ℕ} (h : a + b < 2 ^ 32) : sub32 (a + b) a = b := by
  rw [sub32_of_le h (Nat.le_add_right _ _), Nat.add_sub_cancel_left]

/-- One round at a zero byte, and one at a record. -/
theorem Layout.listLoop_eq (h : Layout m o n rs) (hfuel : n < fuel) (hend : o + n < 2 ^ 32)
    (hindex : index + n < 2 ^ 32) : listLoop m fuel n o index = some (listing m index rs) := by
  induction h generalizing fuel index with
  | done o =>
    obtain ⟨fuel, rfl⟩ := Nat.exists_eq_add_of_lt hfuel
    rw [listLoop, if_pos rfl]
    rfl
  | pad hzero _ ih =>
    rename_i o n rs _
    cases fuel with
    | zero => omega
    | succ fuel =>
      have hlength : entryLength m o = 0 := by
        rw [entryLength_eq, hzero]
        rfl
      rw [listLoop, if_neg (Nat.succ_ne_zero n), if_pos hlength, sub32_of_le (by omega) (by omega),
        Nat.add_sub_cancel, u32_of_lt (by omega), ih (by omega) (by omega) (by omega)]
  | record hr _ ih =>
    rename_i o n id rs _
    have hpos := hr.length_pos
    cases fuel with
    | zero => omega
    | succ fuel =>
      rw [listLoop, if_neg (by omega), if_neg (by omega), sub32_add_left (by omega),
        u32_of_lt (by omega), u32_of_lt (by omega), ih (by omega) (by omega) (by omega)]
      rfl

theorem Layout.openLoop_eq (h : Layout m o n rs) (hfuel : n < fuel) (hend : o + n < 2 ^ 32) :
    openLoop m name fuel n o =
      some ((rs.find? fun r => decide (isNamed m r.1 name)).map Prod.fst) := by
  induction h generalizing fuel with
  | done o =>
    obtain ⟨fuel, rfl⟩ := Nat.exists_eq_add_of_lt hfuel
    rw [openLoop, if_pos rfl]
    rfl
  | pad hzero _ ih =>
    rename_i o n rs _
    cases fuel with
    | zero => omega
    | succ fuel =>
      have hlength : entryLength m o = 0 := by
        rw [entryLength_eq, hzero]
        rfl
      rw [openLoop, if_neg (Nat.succ_ne_zero n), if_pos hlength, sub32_of_le (by omega) (by omega),
        Nat.add_sub_cancel, u32_of_lt (by omega), ih (by omega) (by omega)]
  | record hr _ ih =>
    rename_i o n id rs _
    have hpos := hr.length_pos
    cases fuel with
    | zero => omega
    | succ fuel =>
      rw [openLoop, if_neg (by omega), if_neg (by omega)]
      by_cases hn : isNamed m o name
      · rw [if_pos hn, List.find?_cons, decide_eq_true hn]
        rfl
      · rw [if_neg hn, List.find?_cons, decide_eq_false hn, sub32_add_left (by omega),
          u32_of_lt (by omega), ih (by omega) (by omega)]

/-- The records of a layout are in memory. -/
theorem Layout.hasRecord (h : Layout m o n rs) : ∀ r ∈ rs, HasRecord m r.1 r.2 := by
  induction h with
  | done o => exact fun r hr => absurd hr List.not_mem_nil
  | pad _ _ ih => exact ih
  | record hr _ ih =>
    intro r hmem
    rcases List.mem_cons.mp hmem with rfl | hmem
    · exact hr
    · exact ih r hmem

end Loops

/-! ## Listing and opening -/

/-- What is listed for a file. -/
def File.listed (m : Mem) (f : File) : Listed :=
  ⟨f.identifier.bytes, f.identifier.bytes.length, entryExtent m f.offset⟩

section Opening
variable {m : Mem} {length self parent : ℕ} {files : List File} {f : File}

theorem IsDirectory.hasRecord (h : IsDirectory m length self parent files) (hf : f ∈ files) :
    HasRecord m f.offset f.identifier.bytes :=
  Layout.hasRecord h f.record
    (List.mem_cons_of_mem _ (List.mem_cons_of_mem _ (List.mem_map_of_mem hf)))

theorem listing_files (h : ∀ f ∈ files, HasRecord m f.offset f.identifier.bytes) {index : ℕ}
    (hindex : 2 ≤ index) : listing m index (files.map File.record) = files.map (File.listed m) := by
  induction files generalizing index with
  | nil => rfl
  | cons f files ih =>
    have hf := h f (List.mem_cons_self ..)
    rw [List.map_cons, List.map_cons, listing,
      ih (fun g hg => h g (List.mem_cons_of_mem _ hg)) (by omega)]
    unfold listed File.listed File.record
    dsimp only
    rw [if_neg (by omega), if_neg (by omega), hf.entryName_bytes, hf.nameLen]

theorem IsDirectory.iso9660ListDir_eq (h : IsDirectory m length self parent files)
    (hlen : length < 2 ^ 32) : iso9660ListDir (some m) length =
      some (some (⟨[0x2E], 1, entryExtent m self⟩ :: ⟨[0x2E, 0x2E], 2, entryExtent m parent⟩ ::
        files.map (File.listed m))) := by
  unfold iso9660ListDir
  dsimp only
  rw [Layout.listLoop_eq h (Nat.lt_succ_self _) (by omega) (by omega)]
  unfold records
  rw [listing, listing, listing_files (fun f hf => h.hasRecord hf) le_rfl]
  rfl

theorem direntNormalizeCache_extentStart (m : Mem) (p : ℕ) (cache : List Node) :
    (direntNormalizeCache m p cache).1.extentStart = entryExtent m p := by
  unfold direntNormalizeCache
  split
  · rename_i element hfind
    have hfound := List.find?_some hfind
    exact of_decide_eq_true hfound
  · rfl

/-- The first file whose name without version and dot is the one that is looked for. -/
def firstNamed (m : Mem) (files : List File) (name : List UInt8) : Option File :=
  files.find? fun f => decide (isNamed m f.offset name)

theorem IsDirectory.iso9660Open_eq (h : IsDirectory m length self parent files)
    (hlen : length < 2 ^ 32) (id : Identifier) (cache : List Node) :
    iso9660Open (some m) length id.bytes cache = some (match firstNamed m files id.bytes with
      | none => (none, cache)
      | some f => (some (direntNormalizeCache m f.offset cache).1,
          (direntNormalizeCache m f.offset cache).2)) := by
  have hself := Layout.hasRecord h (self, [0]) (List.mem_cons_self ..)
  have hparent := Layout.hasRecord h (parent, [1]) (List.mem_cons_of_mem _ (List.mem_cons_self ..))
  have hfirst : (records self parent files).find? (fun r => decide (isNamed m r.1 id.bytes)) =
      (firstNamed m files id.bytes).map File.record := by
    unfold records
    rw [List.find?_cons, decide_eq_false (hself.not_isNamed (by decide)), List.find?_cons,
      decide_eq_false (hparent.not_isNamed (by decide)), List.find?_map]
    rfl
  unfold iso9660Open
  dsimp only
  rw [Layout.openLoop_eq h (Nat.lt_succ_self _) (by omega), hfirst]
  cases firstNamed m files id.bytes with
  | none => rfl
  | some f => rfl

/-- The name of a file opens a node of this extent, whatever the cache has. -/
theorem IsDirectory.opens_iff (h : IsDirectory m length self parent files) (hlen : length < 2 ^ 32)
    (id : Identifier) (extent : ℕ) :
    (∀ cache, ∃ node cache', iso9660Open (some m) length id.bytes cache = some (some node, cache') ∧
      node.extentStart = extent) ↔
    ∃ f, firstNamed m files id.bytes = some f ∧ entryExtent m f.offset = extent := by
  constructor
  · intro hopens
    obtain ⟨node, cache', hopen, hextent⟩ := hopens []
    rw [h.iso9660Open_eq hlen] at hopen
    cases hfirst : firstNamed m files id.bytes with
    | none =>
      rw [hfirst] at hopen
      exact absurd hopen (by simp)
    | some f =>
      rw [hfirst, Option.some.injEq, Prod.mk.injEq, Option.some.injEq] at hopen
      refine ⟨f, rfl, ?_⟩
      rw [← hextent, ← hopen.1, direntNormalizeCache_extentStart]
  · rintro ⟨f, hfirst, hextent⟩ cache
    have hopen := h.iso9660Open_eq hlen id cache
    rw [hfirst] at hopen
    exact ⟨_, _, hopen, (direntNormalizeCache_extentStart m f.offset cache).trans hextent⟩

/-- What the first file with a name is. -/
theorem IsDirectory.firstNamed_some (h : IsDirectory m length self parent files) {id : Identifier}
    {f : File} (hfirst : firstNamed m files id.bytes = some f) :
    f ∈ files ∧ sameName f.identifier.base id.bytes := by
  have hf : f ∈ files := List.mem_of_find?_eq_some hfirst
  have hnamed := List.find?_some hfirst
  exact ⟨hf, ((h.hasRecord hf).isNamed_iff id.ne_zero).mp (of_decide_eq_true hnamed)⟩

/-- A name without version and dot finds a file. -/
theorem IsDirectory.exists_firstNamed (h : IsDirectory m length self parent files) (hf : f ∈ files)
    (hplain : f.identifier.bytes = f.identifier.base) :
    ∃ g, firstNamed m files f.identifier.bytes = some g := by
  apply Option.isSome_iff_exists.mp
  apply List.find?_isSome.mpr
  refine ⟨f, hf, decide_eq_true (((h.hasRecord hf).isNamed_iff f.identifier.ne_zero).mpr ?_)⟩
  rw [hplain]
  rfl

/-- Names that are equal without case find the same file. -/
theorem IsDirectory.firstNamed_congr (h : IsDirectory m length self parent files)
    {id id' : Identifier} (hsame : sameName id.bytes id'.bytes) :
    firstNamed m files id.bytes = firstNamed m files id'.bytes := by
  unfold firstNamed
  apply List.find?_congr
  intro f hf
  rw [decide_eq_decide, (h.hasRecord hf).isNamed_iff id.ne_zero,
    (h.hasRecord hf).isNamed_iff id'.ne_zero]
  unfold sameName at hsame ⊢
  rw [hsame]

/-- The last byte of the name is no dot. -/
theorem Identifier.exists_ne_dot (id : Identifier) : ∃ c ∈ id.bytes, c ≠ 0x2E := by
  refine ⟨id.base.getLast id.nonempty, List.mem_append_left _ (List.getLast_mem _), fun hdot => ?_⟩
  have hlast := id.noDot
  rw [List.getLast?_eq_getLast_of_ne_nil id.nonempty, hdot] at hlast
  exact hlast rfl

theorem Identifier.bytes_ne_dots (id : Identifier) :
    id.bytes ≠ [0x2E] ∧ id.bytes ≠ [0x2E, 0x2E] := by
  obtain ⟨c, hc, hne⟩ := id.exists_ne_dot
  constructor
  · intro h
    rw [h] at hc
    simp [hne] at hc
  · intro h
    rw [h] at hc
    simp [hne] at hc

/-- The names that are listed, and whether each of them opens its entry. -/
theorem IsDirectory.opensListed_iff_firstNamed (h : IsDirectory m length self parent files)
    (hlen : length < 2 ^ 32) : OpensListed m length (files.length + 2) ↔
    ∀ f ∈ files, ∃ g, firstNamed m files f.identifier.bytes = some g ∧
      entryExtent m g.offset = entryExtent m f.offset := by
  unfold OpensListed
  rw [h.iso9660ListDir_eq hlen]
  constructor
  · rintro ⟨entries, hlist, _, hopens⟩ f hf
    rw [Option.some.injEq, Option.some.injEq] at hlist
    obtain ⟨hne, hne'⟩ := f.identifier.bytes_ne_dots
    have hmem : f.listed m ∈ entries := by
      rw [← hlist]
      exact List.mem_cons_of_mem _ (List.mem_cons_of_mem _ (List.mem_map_of_mem hf))
    exact (h.opens_iff hlen _ _).mp (hopens (f.listed m) hmem hne hne')
  · intro hfirst
    refine ⟨_, rfl, by simp, fun e he hne hne' => ?_⟩
    rcases List.mem_cons.mp he with rfl | he
    · exact absurd rfl hne
    rcases List.mem_cons.mp he with rfl | he
    · exact absurd rfl hne'
    obtain ⟨f, hf, rfl⟩ := List.mem_map.mp he
    exact (h.opens_iff hlen _ _).mpr (hfirst f hf)

end Opening

/-- The names that are listed open their entries exactly in the directories where no
identifier has a version or a dot at its end, and equal names have the same extent. -/
theorem opensListed_iff {m : Mem} {length self parent : ℕ} {files : List File}
    (h : IsDirectory m length self parent files) (hlen : length < 2 ^ 32) :
    OpensListed m length (files.length + 2) ↔ PlainNames m files := by
  rw [h.opensListed_iff_firstNamed hlen]
  constructor
  · intro hopens
    have hplain : ∀ f ∈ files, f.identifier.dot = false ∧ f.identifier.version = false := by
      intro f hf
      obtain ⟨g, hfirst, _⟩ := hopens f hf
      exact plain_of_sameName (h.firstNamed_some hfirst).2
    refine ⟨hplain, fun f hf g hg hsame => ?_⟩
    obtain ⟨f', hf', hextent⟩ := hopens f hf
    obtain ⟨g', hg', hextent'⟩ := hopens g hg
    have hbytes : sameName f.identifier.bytes g.identifier.bytes := by
      rw [Identifier.bytes_of_plain (hplain f hf).1 (hplain f hf).2,
        Identifier.bytes_of_plain (hplain g hg).1 (hplain g hg).2]
      exact hsame
    -- both names find the same file
    rw [h.firstNamed_congr hbytes, hg', Option.some.injEq] at hf'
    rw [← hextent, ← hf', hextent']
  · intro hplain f hf
    have hbytes := Identifier.bytes_of_plain (hplain.plain f hf).1 (hplain.plain f hf).2
    obtain ⟨g, hg⟩ := h.exists_firstNamed hf hbytes
    obtain ⟨hmem, hsame⟩ := h.firstNamed_some hg
    rw [hbytes] at hsame
    exact ⟨g, hg, hplain.extents g hmem f hf hsame⟩

/-! ## A directory of one sector -/

instance (m : Mem) (p : ℕ) (id : List UInt8) : Decidable (HasRecord m p id) :=
  decidable_of_iff (33 + id.length ≤ entryLength m p ∧ entryNameLen m p = id.length ∧
      ∀ i < id.length, m (p + 33 + i) = id.getD i 0)
    ⟨fun h => ⟨h.1, h.2.1, h.2.2⟩, fun h => ⟨h.length, h.nameLen, h.name⟩⟩

theorem Layout.zeros {m : Mem} {o n : ℕ} (h : ∀ x, o ≤ x → x < o + n → m x = 0) :
    Layout m o n [] := by
  induction n generalizing o with
  | zero => exact .done o
  | succ n ih => exact .pad (h o le_rfl (by omega)) (ih fun x hx hx' => h x (by omega) (by omega))

/-- A record of `n` bytes in front of the others. -/
theorem Layout.cons {m : Mem} {o n left : ℕ} {id : List UInt8} {rs : List (ℕ × List UInt8)}
    (h : HasRecord m o id) (hn : entryLength m o = n) (hrest : Layout m (o + n) left rs) :
    Layout m o (n + left) ((o, id) :: rs) := by
  subst hn
  exact .record h hrest

/-- A record of even length. -/
def recordBytes (extent flags : UInt8) (id : List UInt8) : List UInt8 :=
  let pad := if id.length % 2 = 0 then [0] else []
  [UInt8.ofNat (33 + id.length + pad.length), 0, extent, 0, 0, 0, 0, 0, 0, extent,
    0, 8, 0, 0, 0, 0, 8, 0, 100, 1, 1, 0, 0, 0, 0, flags, 0, 0, 1, 0, 0, 1,
    UInt8.ofNat id.length] ++ id ++ pad

/-- The sector of a directory with one file. -/
def sectorBytes (id : List UInt8) : List UInt8 :=
  recordBytes 20 2 [0] ++ recordBytes 19 2 [1] ++ recordBytes 21 0 id

/-- `A` -/
def plainA : Identifier where
  base := [0x41]
  dot := false
  version := false
  nonempty := by decide
  chars c hc := by
    rw [List.mem_singleton.mp hc]
    decide
  noDot := by decide

/-- `A.;1` -/
def versionedA : Identifier := { plainA with dot := true, version := true }

theorem isDirectory_plainA :
    IsDirectory (cstring (sectorBytes plainA.bytes)) 2048 0 34 [⟨68, plainA⟩] := by
  have hrest : Layout (cstring (sectorBytes plainA.bytes)) 102 1946 [] :=
    .zeros fun x hx _ => cstring_of_le hx
  exact .cons (n := 34) (by decide) (by decide) (.cons (n := 34) (by decide) (by decide)
    (.cons (n := 34) (by decide) (by decide) hrest))

theorem isDirectory_versionedA :
    IsDirectory (cstring (sectorBytes versionedA.bytes)) 2048 0 34 [⟨68, versionedA⟩] := by
  have hrest : Layout (cstring (sectorBytes versionedA.bytes)) 106 1942 [] :=
    .zeros fun x hx _ => cstring_of_le hx
  exact .cons (n := 34) (by decide) (by decide) (.cons (n := 34) (by decide) (by decide)
    (.cons (n := 38) (by decide) (by decide) hrest))

/-- A file without version is found. -/
theorem opensListed_plainA : OpensListed (cstring (sectorBytes plainA.bytes)) 2048 3 := by
  apply (opensListed_iff isDirectory_plainA (by decide)).mpr
  constructor
  · intro f hf
    rw [List.mem_singleton.mp hf]
    exact ⟨rfl, rfl⟩
  · intro f hf g hg _
    rw [List.mem_singleton.mp hf, List.mem_singleton.mp hg]

/-- A file with a version is not. -/
theorem not_opensListed_versionedA :
    IsDirectory (cstring (sectorBytes versionedA.bytes)) 2048 0 34 [⟨68, versionedA⟩] ∧
      ¬OpensListed (cstring (sectorBytes versionedA.bytes)) 2048 3 := by
  refine ⟨isDirectory_versionedA, fun hopens => ?_⟩
  obtain ⟨g, hfirst, _⟩ := (isDirectory_versionedA.opensListed_iff_firstNamed (by decide)).mp hopens
    ⟨68, versionedA⟩ (List.mem_singleton_self _)
  have hplain := plain_of_sameName (isDirectory_versionedA.firstNamed_some hfirst).2
  exact absurd hplain.1 (by decide)

end VkKernel.Iso9660
