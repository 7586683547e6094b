import VkKernel.Lib.PackedStruct
import VkKernel.Strings

/-!
# FAT32 directories

A directory is a sequence of entries of 32 bytes in the clusters of its chain. An
entry is deleted, a part of the long name of the file behind it, or the 8.3 entry of a
file, and a first byte 0 ends the directory. `fat32_list_dir` does not put what it
finds into its list, so listing and lookup agree on empty directories only.
-/

namespace VkKernel.Fat32
open ByteMemory PackedStruct

/-! ## Entries -/

/-- The first byte of a deleted entry. -/
def deletedMark : UInt8 := 0xE5

def attributes (e : Mem) : UInt8 := e 11

/-- `FAT_ATTR_LFN` -/
def attrLfn : UInt8 := 0x0F

/-- The first cluster of a file, as `fat32_dirent_normalize_cache` computes it. -/
def firstCluster (e : Mem) : ℕ := (loadLE e 20 2 * 2 ^ 16 + loadLE e 26 2) % 2 ^ 28

/-- The place of a part in a long name, counted from 1. -/
def lfnNbr (e : Mem) : ℕ :=
  if (e 0).toNat &&& 0x40 = 0x40 then (e 0).toNat ^^^ 0x40 else (e 0).toNat

/-- The characters of a part of a long name: `firstn`, `nextn` and `lastn`, of which the
low bytes are taken. -/
def lfnChar (e : Mem) (k : ℕ) : UInt8 :=
  if k < 5 then e (1 + 2 * k) else if k < 11 then e (14 + 2 * (k - 5)) else e (28 + 2 * (k - 11))

/-- The 8.3 name that `fat32_open` compares. The extension is not trimmed. -/
def oldName (e : Mem) : List UInt8 :=
  (((List.range 8).map e).takeWhile (· ≠ 0)).rdropWhile (· = 0x20) ++
    if e 8 ≠ 0x20 ∧ e 8 ≠ 0 then 0x2E :: ((List.range 3).map fun i => e (8 + i)).takeWhile (· ≠ 0)
    else []

/-! ## Comparison without case -/

def isLower (c : UInt8) : Prop := 0x61 ≤ c ∧ c ≤ 0x7A

def isUpper (c : UInt8) : Prop := 0x41 ≤ c ∧ c ≤ 0x5A

instance (c : UInt8) : Decidable (isLower c) := inferInstanceAs (Decidable (_ ∧ _))

instance (c : UInt8) : Decidable (isUpper c) := inferInstanceAs (Decidable (_ ∧ _))

def toLower (c : UInt8) : UInt8 := if isUpper c then c + 0x20 else c

def toUpper (c : UInt8) : UInt8 := if isLower c then c - 0x20 else c

def invCase (c : UInt8) : UInt8 := if isLower c then toUpper c else toLower c

/-- `!strcmpnc(s1, s2)` -/
def strcmpnc (s1 s2 : Mem) : ℕ → ℕ → Bool
  | 0, _ => false
  | fuel + 1, i =>
    if s1 i ≠ 0 ∧ (s1 i = s2 i ∨ invCase (s1 i) = s2 i) then strcmpnc s1 s2 fuel (i + 1)
    else decide (s1 i = s2 i)

/-! ## The scanners -/

/-- The clusters are read into a buffer of `size` bytes. The pointer has the type of an
entry, so it moves on by 32 clusters; outside the buffer there is no result. -/
def readDirents (cs size : ℕ) : ℕ → Mem → List Mem → Option Mem
  | _, buf, [] => some buf
  | pos, buf, m :: ms =>
    if pos + cs ≤ size then
      readDirents cs size (pos + 32 * cs)
        (fun k => if pos ≤ k ∧ k < pos + cs then m (k - pos) else buf k) ms
    else none

/-- A long name in memory. -/
structure NameBuffer where
  size : ℕ
  chars : Mem

/-- The memory for a long name whose last part comes first. -/
def newBuffer (junk e : Mem) : NameBuffer where
  size := 13 * lfnNbr e + 1
  chars i := if i = 13 * lfnNbr e then 0 else junk i

/-- The part is stored at its place, unless this is outside the memory. -/
def storeLfn (b : NameBuffer) (e : Mem) : Option NameBuffer :=
  let offset := 13 * (lfnNbr e - 1)
  if lfnNbr e ≠ 0 ∧ offset + 13 ≤ b.size then
    some { b with chars := fun i =>
      if offset ≤ i ∧ i < offset + 13 then lfnChar e (i - offset) else b.chars i }
  else none

/-- The loop of `fat32_open`: the number of the entry that it opens. The long name of a
file is never forgotten. -/
def openFrom (m name junk : Mem) : ℕ → ℕ → Option NameBuffer → Option (Option ℕ)
  | 0, _, _ => some none
  | fuel + 1, i, lfnName =>
    let e := window m (32 * i)
    if e 0 = 0 then some none
    else if e 0 = deletedMark then openFrom m name junk fuel (i + 1) lfnName
    else if attributes e = attrLfn then
      match storeLfn (lfnName.getD (newBuffer junk e)) e with
      | none => none
      | some b => openFrom m name junk fuel (i + 1) (some b)
    else
      let found := match lfnName with
        | some b => strcmpnc b.chars name b.size 0
        | none => strcmpnc (cstring (oldName e)) name 13 0
      if found then some (some i) else openFrom m name junk fuel (i + 1) lfnName

/-- `fat32_open` in a directory with these clusters, before the node is taken from the
cache. -/
def openDir (cs : ℕ) (clusters : List Mem) (junk : Mem) (name : List UInt8) : Option (Option ℕ) :=
  (readDirents cs (clusters.length * cs) 0 junk clusters).bind fun m =>
    openFrom m (cstring name) junk (clusters.length * cs / 32) 0 none

/-- The loop of `fat32_list_dir`: the number of entries, of false ones among them, and of
list entries that have been appended. -/
def listFrom (m : Mem) : ℕ → ℕ → ℕ → ℕ → ℕ × ℕ × ℕ
  | 0, i, falses, count => (i, falses, count)
  | fuel + 1, i, falses, count =>
    let e := window m (32 * i)
    if e 0 = 0 then (i, falses + 1, count)
    else if e 0 = deletedMark then listFrom m fuel (i + 1) (falses + 1) count
    else if attributes e = attrLfn then listFrom m fuel (i + 1) (falses + 1) count
    else listFrom m fuel (i + 1) falses (count + 1)

/-- A `dirent_t`. -/
structure Listed where
  name : List UInt8
  inode : ℕ
deriving DecidableEq

/-- `fat32_list_dir`: the elements of the list, and `*size`. The `dirent_t` that is built
for a file is not stored in the list, whose elements stay unset. -/
def listDir (cs : ℕ) (clusters : List Mem) (junk : Mem) : Option (List (Option Listed) × ℕ) :=
  (readDirents cs (clusters.length * cs) 0 junk clusters).map fun m =>
    let (i, falses, count) := listFrom m (clusters.length * cs / 32) 0 0 0
    (List.replicate count none, (i + 1 - falses) % 2 ^ 32)

/-! ## What a directory holds -/

/-- A deleted entry, or a file with the parts of its long name, if it has one. -/
inductive Record
  | deleted (e : Mem)
  | file (run : List Mem) (e : Mem)

namespace Record

def entries : Record → List Mem
  | deleted e => [e]
  | file run e => run ++ [e]

/-- The parts of a long name are numbered down to 1, the first one being marked. -/
def Valid : Record → Prop
  | deleted e => e 0 = deletedMark
  | file run e =>
    (e 0 ≠ 0 ∧ e 0 ≠ deletedMark ∧ e 0 ≠ 0x20 ∧ attributes e ≠ attrLfn) ∧ run.length ≤ 20 ∧
      ∀ k (hk : k < run.length), attributes run[k] = attrLfn ∧
        (run[k] 0).toNat = run.length - k + if k = 0 then 0x40 else 0

/-- The long name, or the 8.3 name without blanks. -/
def name (run : List Mem) (e : Mem) : List UInt8 :=
  if run = [] then
    let base := ((List.range 8).map e).rdropWhile (· = 0x20)
    let extension := ((List.range 3).map fun i => e (8 + i)).rdropWhile (· = 0x20)
    if extension = [] then base else base ++ 0x2E :: extension
  else (run.reverse.flatMap fun e => (List.range 13).map (lfnChar e)).takeWhile (· ≠ 0)

end Record

/-- The files of a directory with the number of their 8.3 entry. -/
def filesFrom : ℕ → List Record → List (ℕ × Listed)
  | _, [] => []
  | i, .deleted _ :: rs => filesFrom (i + 1) rs
  | i, .file run e :: rs =>
    (i + run.length, ⟨Record.name run e, firstCluster e⟩) :: filesFrom (i + run.length + 1) rs

def sameName (a b : List UInt8) : Prop := a.map toLower = b.map toLower

/-- Byte `k` of the directory. -/
def content (cs : ℕ) (clusters : List Mem) (k : ℕ) : UInt8 :=
  clusters.getD (k / cs) (fun _ => 0) (k % cs)

/-- The clusters hold the records, and behind them the end of the directory unless they
are full. -/
structure IsDirectory (cs : ℕ) (clusters : List Mem) (records : List Record) : Prop where
  cluster_size : ∃ sectorsPerCluster, 1 ≤ sectorsPerCluster ∧ cs = sectorsPerCluster * 512
  clusters_ne : clusters ≠ []
  valid : ∀ r ∈ records, r.Valid
  fits : 32 * (records.flatMap Record.entries).length ≤ clusters.length * cs
  stored : ∀ i (hi : i < (records.flatMap Record.entries).length), ∀ k < 32,
    content cs clusters (32 * i + k) = (records.flatMap Record.entries)[i] k
  ended : 32 * (records.flatMap Record.entries).length < clusters.length * cs →
    content cs clusters (32 * (records.flatMap Record.entries).length) = 0

/-- The list has the files in order, and lookup finds them by their names. -/
structure ListsAndOpens (cs : ℕ) (clusters : List Mem) (records : List Record) : Prop where
  lists : ∀ junk, listDir cs clusters junk =
    some ((filesFrom 0 records).map fun r => some r.2, (filesFrom 0 records).length)
  opens : ∀ junk, ∀ r ∈ filesFrom 0 records,
    (∀ r' ∈ filesFrom 0 records, sameName r'.2.name r.2.name → r' = r) →
      openDir cs clusters junk r.2.name = some (some r.1)
  misses : ∀ junk name, (∀ c ∈ name, c ≠ 0) → (∀ r ∈ filesFrom 0 records, ¬sameName r.2.name name) →
    openDir cs clusters junk name = some none

/-- The directory has one cluster with an end, and no file. -/
def Empty (cs : ℕ) (clusters : List Mem) (records : List Record) : Prop :=
  clusters.length = 1 ∧ 32 * (records.flatMap Record.entries).length < cs ∧
    ∀ r ∈ records, ∃ e, r = .deleted e

/-! ## One cluster -/

variable {cs : ℕ} {clusters : List Mem} {records : List Record}

/-- The last cluster has to be inside the buffer. -/
theorem readDirents_last {size pos : ℕ} {buf m' : Mem} {ms : List Mem}
    (h : readDirents cs size pos buf ms = some m') (hne : ms ≠ []) :
    pos + 32 * cs * (ms.length - 1) + cs ≤ size := by
  induction ms generalizing pos buf with
  | nil => exact absurd rfl hne
  | cons m ms ih =>
    unfold readDirents at h
    split at h
    · rename_i hfit
      cases ms with
      | nil => exact hfit
      | cons m₂ ms =>
        have hlast := ih h (List.cons_ne_nil m₂ ms)
        rw [List.length_cons, Nat.add_sub_cancel] at hlast ⊢
        rw [List.length_cons, Nat.mul_add, Nat.mul_one]
        omega
    · cases h

/-- A second cluster is never read inside the buffer. -/
theorem length_of_readDirents {buf m' : Mem} (hcs : 0 < cs) (hne : clusters ≠ [])
    (h : readDirents cs (clusters.length * cs) 0 buf clusters = some m') : clusters.length = 1 := by
  have hlast := readDirents_last h hne
  have hpos : 0 < clusters.length := List.length_pos_iff.mpr hne
  obtain ⟨n, hn⟩ := Nat.exists_eq_add_of_lt hpos
  rw [Nat.zero_add] at hn
  rw [hn, Nat.add_sub_cancel, Nat.zero_add] at hlast
  rw [hn]
  by_contra hn0
  have hn1 : 1 ≤ n := by omega
  have hmul : cs ≤ cs * n := Nat.le_mul_of_pos_right cs hn1
  have hlast' : 32 * (cs * n) + cs ≤ cs * n + cs := by
    calc 32 * (cs * n) + cs = 32 * cs * n + cs := by ring
      _ ≤ (n + 1) * cs := hlast
      _ = cs * n + cs := by ring
  omega

/-- What the scanners see of a directory with one cluster. -/
theorem readDirents_single (cs : ℕ) (h : clusters.length = 1) (junk : Mem) :
    ∃ m, readDirents cs (clusters.length * cs) 0 junk clusters = some m ∧
      ∀ k < cs, m k = content cs clusters k := by
  obtain ⟨m, rfl⟩ := List.length_eq_one_iff.mp h
  refine ⟨fun k => if 0 ≤ k ∧ k < 0 + cs then m (k - 0) else junk k, ?_, fun k hk => ?_⟩
  · rw [readDirents, if_pos (by simp), readDirents]
  · unfold content
    dsimp only
    rw [if_pos ⟨Nat.zero_le k, by omega⟩, Nat.div_eq_of_lt hk, Nat.mod_eq_of_lt hk]
    rfl

/-! ## Directories without files -/

theorem filesFrom_eq_nil {i : ℕ} (h : filesFrom i records = []) :
    ∀ r ∈ records, ∃ e, r = .deleted e := by
  induction records generalizing i with
  | nil => exact fun r hr => absurd hr List.not_mem_nil
  | cons r rs ih =>
    cases r with
    | deleted e =>
      intro r' hr'
      cases hr' with
      | head => exact ⟨e, rfl⟩
      | tail _ hr' => exact ih h r' hr'
    | file run e => cases h

theorem filesFrom_of_deleted {i : ℕ} (h : ∀ r ∈ records, ∃ e, r = .deleted e) :
    filesFrom i records = [] := by
  induction records generalizing i with
  | nil => rfl
  | cons r rs ih =>
    obtain ⟨e, rfl⟩ := h r List.mem_cons_self
    exact ih fun r' hr' => h r' (List.mem_cons_of_mem _ hr')

/-- The entries of a directory without files are deleted. -/
theorem IsDirectory.deleted (h : IsDirectory cs clusters records)
    (hdel : ∀ r ∈ records, ∃ e, r = .deleted e) {i : ℕ}
    (hi : i < (records.flatMap Record.entries).length) :
    content cs clusters (32 * i) = deletedMark := by
  have hstored := h.stored i hi 0 (by omega)
  rw [Nat.add_zero] at hstored
  rw [hstored]
  obtain ⟨r, hr, hmem⟩ := List.mem_flatMap.mp (List.getElem_mem hi)
  obtain ⟨e, rfl⟩ := hdel r hr
  have hvalid := h.valid _ hr
  rw [List.mem_singleton.mp hmem]
  exact hvalid

theorem listFrom_of_deleted {m : Mem} {i n : ℕ} (falses count : ℕ)
    (h : ∀ j < n, m (32 * (i + j)) = deletedMark) :
    ∀ fuel, listFrom m (n + fuel) i falses count = listFrom m fuel (i + n) (falses + n) count := by
  intro fuel
  induction n generalizing i falses with
  | zero => rw [Nat.zero_add, Nat.add_zero, Nat.add_zero]
  | succ n ih =>
    have hfirst : window m (32 * i) 0 = deletedMark := h 0 (by omega)
    rw [show n + 1 + fuel = n + fuel + 1 by omega, listFrom, hfirst, if_neg (by decide), if_pos rfl]
    rw [ih (falses + 1) fun j hj => ?_]
    · rw [show i + 1 + n = i + (n + 1) by omega, show falses + 1 + n = falses + (n + 1) by omega]
    · have := h (j + 1) (by omega)
      rwa [show i + (j + 1) = i + 1 + j by omega] at this

theorem openFrom_of_deleted {m : Mem} {i n : ℕ} (name junk : Mem)
    (h : ∀ j < n, m (32 * (i + j)) = deletedMark) :
    ∀ fuel, openFrom m name junk (n + fuel) i none = openFrom m name junk fuel (i + n) none := by
  intro fuel
  induction n generalizing i with
  | zero => rw [Nat.zero_add, Nat.add_zero]
  | succ n ih =>
    have hfirst : window m (32 * i) 0 = deletedMark := h 0 (by omega)
    rw [show n + 1 + fuel = n + fuel + 1 by omega, openFrom]
    dsimp only
    rw [hfirst, if_neg (by decide), if_pos rfl]
    rw [ih fun j hj => ?_]
    · rw [show i + 1 + n = i + (n + 1) by omega]
    · have := h (j + 1) (by omega)
      rwa [show i + (j + 1) = i + 1 + j by omega] at this

/-- The scanners pass over the entries of a directory without files. -/
theorem IsDirectory.deleted_of_single (h : IsDirectory cs clusters records)
    (hone : clusters.length = 1) (hdel : ∀ r ∈ records, ∃ e, r = .deleted e) {m : Mem}
    (hm : ∀ k < cs, m k = content cs clusters k) :
    ∀ j < (records.flatMap Record.entries).length, m (32 * (0 + j)) = deletedMark := by
  intro j hj
  have hfits := h.fits
  rw [hone, Nat.one_mul] at hfits
  rw [Nat.zero_add, hm _ (by omega)]
  exact h.deleted hdel hj

/-- Listing and lookup agree if and only if the directory has one cluster, ends in it,
and has no file. -/
theorem listsAndOpens_iff_empty (h : IsDirectory cs clusters records) :
    ListsAndOpens cs clusters records ↔ Empty cs clusters records := by
  obtain ⟨sectors, hsectors, hcs⟩ := h.cluster_size
  have hfits := h.fits
  have hended := h.ended
  constructor
  · intro hagree
    have hlist := hagree.lists fun _ => 0
    unfold listDir at hlist
    rw [Option.map_eq_some_iff] at hlist
    obtain ⟨m, hread, hlist⟩ := hlist
    have hone := length_of_readDirents (by omega) h.clusters_ne hread
    rw [Prod.mk.injEq] at hlist
    obtain ⟨helements, hsize⟩ := hlist
    -- the elements of the list are unset
    have hnil : filesFrom 0 records = [] := by
      cases hfiles : filesFrom 0 records with
      | nil => rfl
      | cons r rs =>
        rw [hfiles, List.map_cons] at helements
        have hmem : some r.2 ∈ List.replicate
            (listFrom m (clusters.length * cs / 32) 0 0 0).2.2 (none : Option Listed) := by
          rw [helements]
          exact List.mem_cons_self
        cases List.eq_of_mem_replicate hmem
    have hdel := filesFrom_eq_nil hnil
    refine ⟨hone, ?_, hdel⟩
    -- without an end of the directory the size is too large by one
    by_contra hfull
    obtain ⟨m', hread', hm'⟩ := readDirents_single cs hone fun _ => 0
    rw [hread, Option.some.injEq] at hread'
    rw [← hread'] at hm'
    rw [hone, Nat.one_mul] at hfits
    have hloop := listFrom_of_deleted 0 0 (h.deleted_of_single hone hdel hm') 0
    rw [hnil, hone, Nat.one_mul,
      show cs / 32 = (records.flatMap Record.entries).length + 0 by omega, hloop] at hsize
    change (0 + (records.flatMap Record.entries).length + 1 -
      (0 + (records.flatMap Record.entries).length)) % 2 ^ 32 = 0 at hsize
    rw [Nat.add_sub_cancel_left] at hsize
    cases hsize
  · intro ⟨hone, hmark, hdel⟩
    have hnil : ∀ i, filesFrom i records = [] := fun i => filesFrom_of_deleted hdel
    rw [hone, Nat.one_mul] at hended
    -- how many entries are left behind the deleted ones
    obtain ⟨n, hn⟩ : ∃ n, cs / 32 = (records.flatMap Record.entries).length + (n + 1) :=
      ⟨cs / 32 - (records.flatMap Record.entries).length - 1, by omega⟩
    have hend : ∀ m, (∀ k < cs, m k = content cs clusters k) →
        window m (32 * (0 + (records.flatMap Record.entries).length)) 0 = 0 := by
      intro m hm
      unfold window
      rw [Nat.add_zero, Nat.zero_add, hm _ hmark]
      exact hended hmark
    refine ⟨fun junk => ?_, fun junk r hr => ?_, fun junk name _ _ => ?_⟩
    · obtain ⟨m, hread, hm⟩ := readDirents_single cs hone junk
      have hloop := listFrom_of_deleted 0 0 (h.deleted_of_single hone hdel hm) (n + 1)
      unfold listDir
      rw [hread, Option.map_some, hone, Nat.one_mul, hn, hloop, listFrom]
      dsimp only
      rw [hend m hm, if_pos rfl, hnil]
      simp
    · rw [hnil] at hr
      cases hr
    · obtain ⟨m, hread, hm⟩ := readDirents_single cs hone junk
      have hloop := openFrom_of_deleted (cstring name) junk
        (h.deleted_of_single hone hdel hm) (n + 1)
      unfold openDir
      rw [hread, Option.bind_some, hone, Nat.one_mul, hn, hloop, openFrom]
      dsimp only
      rw [hend m hm, if_pos rfl]

/-- A cluster with one entry of this first byte and blanks for the rest of its name. -/
def singleEntry (c : UInt8) : Mem := fun k => if k = 0 then c else if k < 11 then 0x20 else 0

/-- A cluster of one sector that holds one record. -/
theorem isDirectory_singleEntry {c : UInt8} {r : Record} (hr : r.entries = [singleEntry c])
    (hvalid : r.Valid) : IsDirectory 512 [singleEntry c] [r] := by
  have hentries : [r].flatMap Record.entries = [singleEntry c] := by
    rw [List.flatMap_singleton, hr]
  have hcontent : ∀ k < 512, content 512 [singleEntry c] k = singleEntry c k := by
    intro k hk
    unfold content
    rw [Nat.div_eq_of_lt hk, Nat.mod_eq_of_lt hk]
    rfl
  refine ⟨⟨1, le_rfl, rfl⟩, List.cons_ne_nil _ _, fun r' hr' => ?_, ?_, fun i hi k hk => ?_,
    fun _ => ?_⟩
  · rw [List.mem_singleton.mp hr']
    exact hvalid
  · rw [hentries, List.length_singleton]
    omega
  · have hi0 : i = 0 := by
      rw [hentries, List.length_singleton] at hi
      omega
    have hget : ([r].flatMap Record.entries)[i] = singleEntry c := by
      apply List.mem_singleton.mp
      rw [← hentries]
      exact List.getElem_mem hi
    rw [hget, hi0, Nat.mul_zero, Nat.zero_add]
    exact hcontent k (by omega)
  · rw [hentries, List.length_singleton, hcontent _ (by omega)]
    rfl

/-- A directory with one deleted entry. -/
theorem listsAndOpens_deleted_entry :
    IsDirectory 512 [singleEntry deletedMark] [.deleted (singleEntry deletedMark)] ∧
      ListsAndOpens 512 [singleEntry deletedMark] [.deleted (singleEntry deletedMark)] := by
  have hdir := isDirectory_singleEntry (r := .deleted (singleEntry deletedMark)) rfl rfl
  refine ⟨hdir, (listsAndOpens_iff_empty hdir).mpr ⟨rfl, ?_, fun r hr => ?_⟩⟩
  · decide
  · exact ⟨_, List.mem_singleton.mp hr⟩

/-- A directory with the file `A`. -/
theorem listsAndOpens_fails_file :
    IsDirectory 512 [singleEntry 0x41] [.file [] (singleEntry 0x41)] ∧
      listDir 512 [singleEntry 0x41] (fun _ => 0) = some ([none], 1) ∧
      ¬ListsAndOpens 512 [singleEntry 0x41] [.file [] (singleEntry 0x41)] := by
  have hvalid : (Record.file [] (singleEntry 0x41)).Valid :=
    ⟨by decide, by decide, fun k hk => absurd hk (Nat.not_lt_zero k)⟩
  have hlist : listDir 512 [singleEntry 0x41] (fun _ => 0) = some ([none], 1) := by decide
  refine ⟨isDirectory_singleEntry rfl hvalid, hlist, fun h => ?_⟩
  have hlists := h.lists fun _ => 0
  rw [hlist] at hlists
  cases hlists

end VkKernel.Fat32
