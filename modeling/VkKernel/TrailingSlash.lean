import VkKernel.DirectoryScans
import VkKernel.Fat32Dirent
import VkKernel.Mount

/-!
# Paths that end with a slash

`strsplit` makes an empty last component of a slash at the end of a path, and `do_open_fs`
looks it up in the directory like any other name. What it finds is up to the scanner of the
file system: the first record in use on ext2, the first record without a name on ISO 9660,
nothing on FAT32 and in devfs.
-/

/-! ## The first records -/

namespace VkKernel.Ext2
open ByteMemory

/-- The directory as `ext2_open` reads it, in at most three attempts. -/
def readDirectory (readContent : ℕ → ErrorT × Mem) : ErrorT × Mem :=
  if (readContent 0).1 = .none then readContent 0
  else if (readContent 1).1 = .none then readContent 1
  else readContent 2

/-- The inode of the first record in use, with the steps of `ext2_open`. -/
def firstUsed (m : Mem) : ℕ → ℕ → ℕ → Option ℕ
  | 0, _, _ => none
  | fuel + 1, length, offset =>
    if length = 0 then none
    else if direntInode m offset ≠ 0 then some (direntInode m offset)
    else if length < stride m offset then none
    else firstUsed m fuel (length - stride m offset) (u32 (offset + stride m offset))

theorem firstOf_nil (m : Mem) (p : ℕ) : firstOf m p [] := by
  unfold firstOf
  rw [List.length_nil, strcfirst, if_neg]
  · rfl
  · exact fun h => h.1 (h.2.trans rfl)

/-- The empty name is the start of every name. -/
theorem openLoop_nil (m : Mem) (fuel length offset : ℕ) :
    openLoop m [] fuel length offset = firstUsed m fuel length offset := by
  induction fuel generalizing length offset with
  | zero => rfl
  | succ fuel ih =>
    rw [openLoop, firstUsed, ih]
    simp [firstOf_nil]

theorem openDirent_nil (readContent : ℕ → ErrorT × Mem) (length : ℕ) :
    openDirent readContent length [] = if (readDirectory readContent).1 = .none then
      firstUsed (readDirectory readContent).2 (length + 1) length 0 else none := by
  unfold openDirent readDirectory
  by_cases h0 : (readContent 0).1 = .none
  · simp [h0, openLoop_nil]
  by_cases h1 : (readContent 1).1 = .none
  · simp [h0, h1, openLoop_nil]
  · simp [h0, h1, openLoop_nil]

end VkKernel.Ext2

namespace VkKernel.Fat32
open ByteMemory PackedStruct

/-! ## FAT32 -/

section FatNames
variable {m : Mem} (junk : Mem) {i : ℕ}

/-- A string that is not empty is not the empty name. -/
theorem strcmpnc_nil {s : Mem} (h : s 0 ≠ 0) (fuel : ℕ) : strcmpnc s (cstring []) fuel 0 = false := by
  cases fuel with
  | zero => rfl
  | succ fuel =>
    have hnil : cstring [] 0 = 0 := rfl
    rw [strcmpnc, hnil, if_neg]
    · exact decide_eq_false h
    · simp [h, invCase_ne_zero h]

/-- No long name, or one that is not empty. -/
def Named (lfnName : Option NameBuffer) : Prop := ∀ b ∈ lfnName, b.chars 0 ≠ 0

/-- The first part of a long name is stored at the start of the memory. -/
theorem storeLfn_first {b b' : NameBuffer} {part : Mem} (hnbr : lfnNbr part = 1)
    (h : storeLfn b part = some b') : b'.chars 0 = lfnChar part 0 := by
  unfold storeLfn at h
  rw [hnbr] at h
  dsimp only at h
  split at h
  · rw [← Option.some.inj h]
    rfl
  · exact nomatch h

/-- The last part of a long name is the front of it. -/
theorem openFrom_nil_parts {run : List Mem} {e : Mem} (hvalid : (Record.file run e).Valid)
    (hname : ∀ part ∈ run.getLast?, lfnChar part 0 ≠ 0) (hstored : StoredAt m i run) (fuel : ℕ)
    {n : ℕ} (hn : n ≤ run.length) {lfnName : Option NameBuffer} (hnamed : n = 0 → Named lfnName) :
    let r := openFrom m (cstring []) junk (n + fuel) (i + (run.length - n)) lfnName
    r = none ∨ ∃ lfnName', Named lfnName' ∧
      r = openFrom m (cstring []) junk fuel (i + run.length) lfnName' := by
  induction n generalizing lfnName with
  | zero => exact .inr ⟨lfnName, hnamed rfl, by rw [Nat.zero_add, Nat.sub_zero]⟩
  | succ n ih =>
    have hk : run.length - (n + 1) < run.length := by omega
    generalize hpart : window m (32 * (i + (run.length - (n + 1)))) = part
    have hsame : ∀ b < 32, part b = run[run.length - (n + 1)] b := by
      intro b hb
      rw [← hpart]
      exact hstored _ hk b hb
    obtain ⟨hnbr, hzero, hdeleted, hattr⟩ := hvalid.part (by omega) hk hsame
    dsimp only
    rw [show n + 1 + fuel = n + fuel + 1 by omega, openFrom.eq_def]
    dsimp only
    rw [hpart, if_neg hzero, if_neg hdeleted, if_pos hattr]
    cases hstore : storeLfn (lfnName.getD (newBuffer junk part)) part with
    | none => exact .inl rfl
    | some b =>
      have hb : n = 0 → Named (some b) := by
        intro h0 b' hb'
        subst h0
        have hlast := hname run[run.length - (0 + 1)] (by
          rw [List.getLast?_eq_getElem?, List.getElem?_eq_getElem]
          rfl)
        have hchar : lfnChar part 0 = lfnChar run[run.length - (0 + 1)] 0 := hsame 1 (by omega)
        rw [← Option.some.inj hb', storeLfn_first hnbr hstore, hchar]
        exact hlast
      have hrest := ih (by omega) hb
      dsimp only at hrest ⊢
      rw [show i + (run.length - (n + 1)) + 1 = i + (run.length - n) by omega]
      exact hrest

/-- An 8.3 name has a first character. -/
theorem oldName_head {e : Mem} (hzero : e 0 ≠ 0) (hblank : e 0 ≠ 0x20) :
    cstring (oldName e) 0 ≠ 0 := by
  have hrange : (List.range 8).map e = e 0 :: (List.range 7).map fun k => e (k + 1) := rfl
  have hhead : ∀ l : List UInt8, (e 0 :: l).rdropWhile (· = 0x20) = e 0 :: l.rdropWhile (· = 0x20) := by
    intro l
    induction l using List.reverseRecOn with
    | nil => simp [hblank]
    | append_singleton l x ih =>
      rw [← List.cons_append, List.rdropWhile_concat, List.rdropWhile_concat, ih]
      split <;> rfl
  unfold oldName
  rw [hrange, List.takeWhile_cons_of_pos (by simp [hzero]), hhead]
  exact hzero

theorem named_first {run : List Mem} {e : Mem} (hname : Record.name run e ≠ []) :
    ∀ part ∈ run.getLast?, lfnChar part 0 ≠ 0 := by
  intro part hpart hzero
  obtain ⟨front, rfl⟩ := List.getLast?_eq_some_iff.mp hpart
  apply hname
  unfold Record.name
  rw [if_neg (List.append_ne_nil_of_right_ne_nil _ (List.cons_ne_nil _ _)), List.reverse_append,
    List.reverse_singleton, List.singleton_append, List.flatMap_cons]
  have hrange : (List.range 13).map (lfnChar part) =
      lfnChar part 0 :: (List.range 12).map fun k => lfnChar part (k + 1) := rfl
  rw [hrange, List.cons_append, hzero]
  rfl

/-- A record with a name is passed over, if its long name can be stored. -/
theorem openFrom_nil_record {r : Record} (hvalid : r.Valid) (hstored : StoredAt m i r.entries)
    (hnames : ∀ f ∈ filesFrom i [r], f.2.name ≠ []) (fuel : ℕ) {lfnName : Option NameBuffer}
    (hnamed : Named lfnName) :
    let s := openFrom m (cstring []) junk (r.entries.length + fuel) i lfnName
    s = none ∨ ∃ lfnName', Named lfnName' ∧
      s = openFrom m (cstring []) junk fuel (i + r.entries.length) lfnName' := by
  cases r with
  | deleted e =>
    have hfirst : window m (32 * i) 0 = deletedMark := (hstored 0 Nat.one_pos 0 (by omega)).trans hvalid
    refine .inr ⟨lfnName, hnamed, ?_⟩
    change openFrom m (cstring []) junk (1 + fuel) i lfnName = _
    rw [Nat.add_comm 1, openFrom.eq_def]
    dsimp only
    rw [hfirst, if_neg (by decide), if_pos rfl]
    rfl
  | file run e =>
    obtain ⟨hrun, he⟩ := hstored.append
    obtain ⟨hzero, hdeleted, hblank, hattr⟩ := hvalid.1
    have hlen : (Record.file run e).entries.length = run.length + 1 := List.length_append
    have hsame : ∀ b < 32, window m (32 * (i + run.length)) b = e b := he 0 Nat.one_pos
    have hattr' : attributes (window m (32 * (i + run.length))) ≠ attrLfn := by
      unfold attributes
      rw [hsame 11 (by omega)]
      exact hattr
    have hparts := openFrom_nil_parts junk hvalid (named_first (hnames _ (List.mem_singleton_self _)))
      hrun (fuel + 1) le_rfl (fun _ => hnamed)
    dsimp only at hparts ⊢
    rw [Nat.sub_self, Nat.add_zero i] at hparts
    rw [hlen, show run.length + 1 + fuel = run.length + (fuel + 1) by omega]
    obtain hnone | ⟨lfnName', hnamed', hrest⟩ := hparts
    · exact .inl hnone
    refine .inr ⟨lfnName', hnamed', ?_⟩
    rw [hrest, openFrom.eq_def]
    dsimp only
    rw [if_neg (hsame 0 (by omega) ▸ hzero), if_neg (hsame 0 (by omega) ▸ hdeleted), if_neg hattr',
      if_neg, Nat.add_assoc]
    cases lfnName' with
    | none =>
      rw [strcmpnc_nil (oldName_congr hsame ▸ oldName_head hzero hblank)]
      exact Bool.false_ne_true
    | some b =>
      dsimp only
      rw [strcmpnc_nil (hnamed' b rfl)]
      exact Bool.false_ne_true

theorem openFrom_nil_records {records : List Record} (hvalid : ∀ r ∈ records, r.Valid)
    (hstored : StoredAt m i (records.flatMap Record.entries))
    (hnames : ∀ f ∈ filesFrom i records, f.2.name ≠ []) (fuel : ℕ) {lfnName : Option NameBuffer}
    (hnamed : Named lfnName) :
    let n := (records.flatMap Record.entries).length
    let s := openFrom m (cstring []) junk (n + fuel) i lfnName
    s = none ∨ ∃ lfnName', Named lfnName' ∧ s = openFrom m (cstring []) junk fuel (i + n) lfnName' := by
  induction records generalizing i lfnName with
  | nil => exact .inr ⟨lfnName, hnamed, by rw [List.flatMap_nil, List.length_nil, Nat.zero_add,
      Nat.add_zero]⟩
  | cons r rs ih =>
    rw [List.flatMap_cons] at hstored ⊢
    obtain ⟨hr, hrs⟩ := hstored.append
    rw [filesFrom_cons] at hnames
    have hrecord := openFrom_nil_record junk (hvalid r List.mem_cons_self) hr
      (fun f hf => hnames f (List.mem_append_left _ hf))
      ((rs.flatMap Record.entries).length + fuel) hnamed
    dsimp only at hrecord ⊢
    rw [List.length_append, Nat.add_assoc]
    obtain hnone | ⟨lfnName', hnamed', hrest⟩ := hrecord
    · exact .inl hnone
    rw [hrest, ← Nat.add_assoc i]
    exact ih (fun r' hr' => hvalid r' (List.mem_cons_of_mem _ hr')) hrs
      (fun f hf => hnames f (List.mem_append_right _ hf)) hnamed'

end FatNames

/-- In a directory whose entries have names, the empty name is not found. -/
theorem IsDirectory.openDir_nil {cs : ℕ} {clusters : List Mem} {records : List Record}
    (h : IsDirectory cs clusters records) (hnames : ∀ f ∈ filesFrom 0 records, f.2.name ≠ [])
    (junk : Mem) (found : ℕ) : openDir cs clusters junk [] ≠ some (some found) := by
  intro hopen
  obtain ⟨sectors, hsectors, hcs⟩ := h.cluster_size
  unfold openDir at hopen
  obtain ⟨m, hm, hopen⟩ := Option.bind_eq_some_iff.mp hopen
  have hone := length_of_readDirents (by omega) h.clusters_ne hm
  obtain ⟨m', hm', hcontent⟩ := readDirents_single cs hone junk
  obtain rfl := Option.some.inj (hm.symm.trans hm')
  have hfits := h.fits
  have hended := h.ended
  rw [hone, Nat.one_mul] at hfits hended hopen
  have hstored : StoredAt m 0 (records.flatMap Record.entries) := by
    intro k hk b hb
    rw [Nat.zero_add]
    exact (hcontent _ (by omega)).trans (h.stored k hk b hb)
  obtain ⟨fuel, hfuel⟩ := Nat.exists_eq_add_of_le
    (show (records.flatMap Record.entries).length ≤ cs / 32 by omega)
  have hnone : Named none := by
    intro _ hb
    cases hb
  have hscan := openFrom_nil_records junk h.valid hstored hnames fuel hnone
  dsimp only at hscan
  rw [← hfuel, hopen, Nat.zero_add] at hscan
  obtain hnone | ⟨lfnName, -, hrest⟩ := hscan
  · cases hnone
  -- behind the records is the end of the directory, or of the buffer
  cases fuel with
  | zero => cases hrest
  | succ fuel =>
    have hend : m (32 * (records.flatMap Record.entries).length) = 0 := by
      rw [hcontent _ (by omega)]
      exact hended (by omega)
    have hwindow : window m (32 * (records.flatMap Record.entries).length) 0 = 0 := hend
    rw [openFrom.eq_def] at hrest
    dsimp only at hrest
    rw [if_pos hwindow] at hrest
    cases hrest

end VkKernel.Fat32

namespace VkKernel.Iso9660
open ByteMemory

/-- The offset of the first entry without a name, with the steps of `iso9660_open`. -/
def firstUnnamed (m : Mem) : ℕ → ℕ → ℕ → Option (Option ℕ)
  | 0, _, _ => none
  | fuel + 1, length, offset =>
    if length = 0 then some none
    else if entryLength m offset = 0 then firstUnnamed m fuel (sub32 length 1) (u32 (offset + 1))
    else if openName m offset = [] then some (some offset)
    else firstUnnamed m fuel (sub32 length (entryLength m offset))
      (u32 (offset + entryLength m offset))

theorem openName_ne_zero {m : Mem} {p : ℕ} : ∀ c ∈ openName m p, c ≠ 0 := by
  have hentry : ∀ c ∈ entryName m p, c ≠ 0 := by
    intro c hc
    have h := List.mem_takeWhile_imp hc
    exact of_decide_eq_true h
  unfold openName
  dsimp only
  split
  · split
    · exact fun c hc => hentry c (List.mem_of_mem_take (List.mem_of_mem_dropLast hc))
    · exact fun c hc => hentry c (List.mem_of_mem_take hc)
  · split
    · exact fun c hc => hentry c (List.mem_of_mem_dropLast hc)
    · exact hentry

theorem isNamed_nil_iff (m : Mem) (p : ℕ) : isNamed m p [] ↔ openName m p = [] := by
  have hne := @openName_ne_zero m p
  unfold isNamed
  cases hname : openName m p with
  | nil => exact iff_of_true rfl rfl
  | cons c name =>
    rw [hname] at hne
    have hc : cstring (c :: name) 0 ≠ 0 := hne c List.mem_cons_self
    rw [Fat32.strcmpnc_nil hc]
    exact iff_of_false Bool.false_ne_true (List.cons_ne_nil c name)

theorem openLoop_nil (m : Mem) (fuel length offset : ℕ) :
    openLoop m [] fuel length offset = firstUnnamed m fuel length offset := by
  induction fuel generalizing length offset with
  | zero => rfl
  | succ fuel ih =>
    rw [openLoop, firstUnnamed, ih, ih]
    simp only [isNamed_nil_iff]

end VkKernel.Iso9660

namespace VkKernel.Vfs
open ByteMemory PackedStruct

/-! ## `strsplit` -/

/-- The loop of `strsplit`. A separator at the start of a piece is left out. -/
def splitPieces (regex : UInt8) : ℕ → List UInt8 → List (List UInt8)
  | 0, _ => []
  | fuel + 1, off =>
    let off := if off.head? = some regex then off.tail else off
    off.takeWhile (· ≠ regex) ::
      if off.dropWhile (· ≠ regex) = [] then []
      else splitPieces regex fuel (off.dropWhile (· ≠ regex))

/-- `strsplit`: the pieces, and the size that it counts. -/
def strsplit (str : List UInt8) (regex : UInt8) : List (List UInt8) × ℕ :=
  (splitPieces regex (str.length + 1) str, str.count regex + 1)

/-! ## `do_open_fs` -/

/-- What a file system keeps of its directories. A directory is the number of a cluster, an
inode, an extent, or the only one there is. -/
inductive Scanner
  | fat32 (cs : ℕ) (junk : Mem) (clusters : ℕ → List Mem)
  | ext2 (length : ℕ → ℕ) (readContent : ℕ → ℕ → ErrorT × Mem) (inodeRead : ℕ → Bool)
  | iso9660 (length : ℕ → ℕ) (read : ℕ → ErrorT × Mem)
  | devfs (tty : ℕ) (entries : List (List UInt8 × ℕ))

/-- A mounted file system. -/
structure FileSystem where
  root : ℕ
  isDir : ℕ → Bool
  scanner : Scanner

/-- The first cluster of an entry of a FAT32 directory. -/
def fatNode (cs : ℕ) (clusters : List Mem) (i : ℕ) : ℕ :=
  Fat32.firstCluster fun k => Fat32.content cs clusters (32 * i + k)

/-- `tty` -/
def ttyName : List UInt8 := [116, 116, 121]

/-- The switch of `do_open_fs`: `fat32_open`, `ext2_open`, `iso9660_open` and `devfs_open`. A scan
that leaves its buffer or does not end has no result. -/
def FileSystem.open (fs : FileSystem) (dir : ℕ) (name : List UInt8) : Option (Option ℕ) :=
  match fs.scanner with
  | .fat32 cs junk clusters =>
    (Fat32.openDir cs (clusters dir) junk name).map (·.map (fatNode cs (clusters dir)))
  | .ext2 length readContent inodeRead =>
    some ((Ext2.openDirent (readContent dir) (length dir) name).filter inodeRead)
  | .iso9660 length read =>
    if (read dir).1 ≠ .none then some none
    else (Iso9660.openLoop (read dir).2 name (2 ^ 64 + 1) (u32 (length dir)) 0).map
      (·.map (Iso9660.entryExtent (read dir).2))
  | .devfs tty entries =>
    if name = ttyName then some (some tty)
    else some ((entries.find? (·.1 = name)).map Prod.snd)

/-- The loop of `do_open_fs` over `split_size` pieces. Those that `strsplit` has not made have
no value. -/
def FileSystem.walk (fs : FileSystem) : ℕ → List (List UInt8) → ℕ → Option (Option ℕ)
  | 0, _, _ => some none
  | _ + 1, [], _ => none
  | n + 1, p :: ps, node =>
    match fs.open node p with
    | none => none
    | some none => some none
    | some (some node) =>
      if n = 0 then some (some node)
      else if fs.isDir node then fs.walk n ps node
      else some none

/-- `do_open_fs` -/
def FileSystem.doOpenFs (fs : FileSystem) (path : List UInt8) : Option (Option ℕ) :=
  let path := if path.head? = some slash then path.tail else path
  let (spath, splitSize) := strsplit path slash
  fs.walk splitSize spath fs.root

/-- The node that `open_file` finds: the file system and the number there. Behind the end of the
path there is no result. -/
def resolve (t : MountTable) (fs : ℕ → FileSystem) (path : List UInt8) : Option (Option (ℕ × ℕ)) :=
  match openFile t path with
  | .rootDir m => some (some (m.fs, (fs m.fs).root))
  | .lookup m start =>
    if start ≤ path.length then ((fs m.fs).doOpenFs (path.drop start)).map (·.map (m.fs, ·))
    else none

/-! ## Directories that name themselves -/

structure IsComponent (c : List UInt8) : Prop where
  ne_nil : c ≠ []
  slash_notMem : slash ∉ c
  nonzero : ∀ x ∈ c, x ≠ 0

/-- An absolute path with these components. -/
def pathOf (comps : List (List UInt8)) : List UInt8 := comps.flatMap (slash :: ·)

/-- The directories of FAT32 are well-formed, and no entry has an empty name. -/
def FileSystem.WellFormed (fs : FileSystem) : Prop :=
  match fs.scanner with
  | .fat32 cs _ clusters => ∀ dir, fs.isDir dir → ∃ records,
      Fat32.IsDirectory cs (clusters dir) records ∧ ∀ f ∈ Fat32.filesFrom 0 records, f.2.name ≠ []
  | .devfs _ entries => ∀ e ∈ entries, e.1 ≠ []
  | _ => True

/-- The directory is the node of its own first record: on ext2 the first one in use, on ISO 9660
the first one without a name. -/
def FileSystem.NamesItself (fs : FileSystem) (dir : ℕ) : Prop :=
  match fs.scanner with
  | .fat32 .. => False
  | .ext2 length readContent inodeRead => (Ext2.readDirectory (readContent dir)).1 = .none ∧
      Ext2.firstUsed (Ext2.readDirectory (readContent dir)).2 (length dir + 1) (length dir) 0 =
        some dir ∧ inodeRead dir
  | .iso9660 length read => (read dir).1 = .none ∧ ∃ p,
      Iso9660.firstUnnamed (read dir).2 (2 ^ 64 + 1) (u32 (length dir)) 0 = some (some p) ∧
        Iso9660.entryExtent (read dir).2 p = dir
  | .devfs .. => False

/-! ## The pieces of a path -/

section Pieces
variable {c : List UInt8} {l : List (List UInt8)}

theorem pathOf_cons (c : List UInt8) (l : List (List UInt8)) :
    pathOf (c :: l) = slash :: (c ++ pathOf l) := rfl

theorem pathOf_append_slash (l : List (List UInt8)) : pathOf l ++ [slash] = pathOf (l ++ [[]]) := by
  simp [pathOf]

theorem head_pathOf (hne : l ≠ []) : (pathOf l).head? = some slash := by
  cases l with
  | nil => exact absurd rfl hne
  | cons c l => rfl

theorem pathOf_eq_nil_iff : pathOf l = [] ↔ l = [] := by
  cases l with
  | nil => simp [pathOf]
  | cons c l => simp [pathOf]

/-- The first piece ends where the next component begins. -/
theorem takeWhile_component (hc : slash ∉ c) (l : List (List UInt8)) :
    (c ++ pathOf l).takeWhile (· ≠ slash) = c ∧ (c ++ pathOf l).dropWhile (· ≠ slash) = pathOf l := by
  induction c with
  | nil =>
    cases l with
    | nil => simp [pathOf]
    | cons d l => simp [pathOf]
  | cons x c ih =>
    rw [List.mem_cons, not_or] at hc
    obtain ⟨htake, hdrop⟩ := ih hc.2
    rw [List.cons_append, List.takeWhile_cons, List.dropWhile_cons, htake, hdrop]
    simp [Ne.symm hc.1]

theorem splitPieces_pathOf {fuel : ℕ} (hfuel : l.length ≤ fuel) (hl : ∀ c ∈ l, slash ∉ c)
    (hne : l ≠ []) : splitPieces slash fuel (pathOf l) = l := by
  induction l generalizing fuel with
  | nil => exact absurd rfl hne
  | cons c l ih =>
    obtain ⟨fuel, rfl⟩ := Nat.exists_eq_succ_of_ne_zero (Nat.ne_of_gt (Nat.lt_of_lt_of_le
      (Nat.succ_pos l.length) hfuel))
    obtain ⟨htake, hdrop⟩ := takeWhile_component (hl c List.mem_cons_self) l
    rw [Nat.succ_eq_add_one, splitPieces, if_pos (head_pathOf hne), pathOf_cons, List.tail_cons]
    rw [htake, hdrop]
    congr 1
    split
    · rename_i hnil
      exact (pathOf_eq_nil_iff.mp hnil).symm
    · rename_i hnil
      rw [List.length_cons, Nat.succ_eq_add_one] at hfuel
      exact ih (by omega) (fun d hd => hl d (List.mem_cons_of_mem _ hd)) fun h =>
        hnil (pathOf_eq_nil_iff.mpr h)

theorem count_pathOf (hl : ∀ c ∈ l, slash ∉ c) : (pathOf l).count slash = l.length := by
  induction l with
  | nil => rfl
  | cons c l ih =>
    rw [pathOf_cons, List.count_cons_self, List.count_append,
      List.count_eq_zero_of_not_mem (hl c List.mem_cons_self),
      ih fun d hd => hl d (List.mem_cons_of_mem _ hd), Nat.zero_add, List.length_cons]

theorem length_le_pathOf (l : List (List UInt8)) : l.length ≤ (pathOf l).length := by
  induction l with
  | nil => exact Nat.zero_le _
  | cons c l ih =>
    rw [pathOf_cons, List.length_cons, List.length_cons, List.length_append]
    omega

/-- Components come back from `strsplit`, and the last one may be empty. -/
theorem strsplit_components (hc : IsComponent c) (hl : ∀ d ∈ l, slash ∉ d) :
    strsplit (c ++ pathOf l) slash = (c :: l, l.length + 1) := by
  obtain ⟨htake, hdrop⟩ := takeWhile_component hc.slash_notMem l
  have hhead : (c ++ pathOf l).head? ≠ some slash := by
    cases c with
    | nil => exact absurd rfl hc.ne_nil
    | cons x c =>
      intro h
      exact hc.slash_notMem (Option.some.inj h ▸ List.mem_cons_self)
  unfold strsplit
  rw [List.count_append, List.count_eq_zero_of_not_mem hc.slash_notMem, count_pathOf hl, Nat.zero_add,
    splitPieces, if_neg hhead]
  rw [htake, hdrop]
  congr 2
  split
  · rename_i hnil
    exact (pathOf_eq_nil_iff.mp hnil).symm
  · rename_i hnil
    apply splitPieces_pathOf _ hl fun h => hnil (pathOf_eq_nil_iff.mpr h)
    rw [List.length_append]
    have := length_le_pathOf l
    omega

/-- Any end of a path begins with the rest of a component, behind a slash or not. -/
theorem drop_pathOf (hl : ∀ c ∈ l, IsComponent c) {k : ℕ} (hk : k < (pathOf l).length) :
    ∃ c l', IsComponent c ∧ (∀ d ∈ l', IsComponent d) ∧
      ((pathOf l).drop k = c ++ pathOf l' ∨ (pathOf l).drop k = slash :: (c ++ pathOf l')) := by
  induction l generalizing k with
  | nil => exact absurd hk (Nat.not_lt_zero k)
  | cons c l ih =>
    have hc := hl c List.mem_cons_self
    have hrest : ∀ d ∈ l, IsComponent d := fun d hd => hl d (List.mem_cons_of_mem _ hd)
    rw [pathOf_cons] at hk ⊢
    cases k with
    | zero => exact ⟨c, l, hc, hrest, .inr rfl⟩
    | succ k =>
      rw [List.length_cons, List.length_append] at hk
      rw [List.drop_succ_cons, List.drop_append]
      by_cases hin : k < c.length
      · refine ⟨c.drop k, l, ⟨?_, fun h => hc.slash_notMem (List.mem_of_mem_drop h),
          fun x hx => hc.nonzero x (List.mem_of_mem_drop hx)⟩, hrest, .inl ?_⟩
        · rw [ne_eq, List.drop_eq_nil_iff]
          omega
        · rw [Nat.sub_eq_zero_of_le hin.le, List.drop_zero]
      · rw [List.drop_of_length_le (by omega), List.nil_append]
        exact ih hrest (by omega)

end Pieces

/-! ## The walk -/

section Walk
variable {fs : FileSystem}

theorem walk_one (fs : FileSystem) (p : List UInt8) (node : ℕ) : fs.walk 1 [p] node = fs.open node p := by
  rw [FileSystem.walk]
  cases fs.open node p with
  | none => rfl
  | some found =>
    cases found with
    | none => rfl
    | some _ => exact if_pos rfl

/-- Behind a directory one more component is looked up in it. -/
theorem walk_concat {ps : List (List UInt8)} {start node : ℕ} (p : List UInt8)
    (h : fs.walk ps.length ps start = some (some node)) (hdir : fs.isDir node) :
    fs.walk (ps.length + 1) (ps ++ [p]) start = fs.open node p := by
  induction ps generalizing start with
  | nil => exact nomatch h
  | cons q ps ih =>
    rw [List.length_cons, FileSystem.walk] at h
    rw [List.length_cons, List.cons_append, FileSystem.walk]
    cases hopen : fs.open start q with
    | none =>
      rw [hopen] at h
      exact nomatch h
    | some found =>
      cases found with
      | none =>
        rw [hopen] at h
        exact nomatch h
      | some next =>
        rw [hopen] at h
        dsimp only at h ⊢
        rw [if_neg (Nat.succ_ne_zero _)]
        split at h
        · -- the last component of the path
          rename_i hlast
          rw [Option.some.injEq, Option.some.injEq] at h
          rw [List.length_eq_zero_iff.mp hlast, h, if_pos hdir]
          exact walk_one fs p node
        · split at h
          · rename_i hnext
            rw [if_pos hnext]
            exact ih h
          · exact nomatch h

theorem doOpenFs_cons_slash (fs : FileSystem) (path : List UInt8) :
    fs.doOpenFs (slash :: path) = fs.walk (strsplit path slash).2 (strsplit path slash).1 fs.root := by
  unfold FileSystem.doOpenFs
  simp

theorem doOpenFs_of_head_ne {path : List UInt8} (h : path.head? ≠ some slash) :
    fs.doOpenFs path = fs.walk (strsplit path slash).2 (strsplit path slash).1 fs.root := by
  unfold FileSystem.doOpenFs
  simp [h]

/-- A slash behind the string that `do_open_fs` gets. -/
theorem doOpenFs_slash {l : List (List UInt8)} (hl : ∀ c ∈ l, IsComponent c) {k node : ℕ}
    (hk : k < (pathOf l).length) (h : fs.doOpenFs ((pathOf l).drop k) = some (some node))
    (hdir : fs.isDir node) :
    fs.doOpenFs ((pathOf l).drop k ++ [slash]) = fs.open node [] := by
  obtain ⟨c, l', hc, hl', hdrop⟩ := drop_pathOf hl hk
  have hlast : ∀ d ∈ l' ++ [[]], slash ∉ d := by
    intro d hd
    rw [List.mem_append, List.mem_singleton] at hd
    rcases hd with hd | rfl
    · exact (hl' d hd).slash_notMem
    · exact List.not_mem_nil
  have hhead : (c ++ pathOf l').head? ≠ some slash := by
    obtain ⟨x, c, rfl⟩ := List.exists_cons_of_ne_nil hc.ne_nil
    intro h
    exact hc.slash_notMem (Option.some.inj h ▸ List.mem_cons_self)
  have hhead' : (c ++ pathOf (l' ++ [[]])).head? ≠ some slash := by
    obtain ⟨x, c, rfl⟩ := List.exists_cons_of_ne_nil hc.ne_nil
    intro h
    exact hc.slash_notMem (Option.some.inj h ▸ List.mem_cons_self)
  have hwalk : fs.walk (c :: l').length (c :: l') fs.root = some (some node) ∧
      fs.doOpenFs ((pathOf l).drop k ++ [slash]) =
        fs.walk ((c :: l').length + 1) (c :: l' ++ [[]]) fs.root := by
    have hsplit := strsplit_components hc fun d hd => (hl' d hd).slash_notMem
    have hsplit' := strsplit_components hc hlast
    rw [List.length_append] at hsplit'
    rcases hdrop with hdrop | hdrop
    · rw [hdrop, doOpenFs_of_head_ne hhead, hsplit] at h
      rw [hdrop, List.append_assoc, pathOf_append_slash, doOpenFs_of_head_ne hhead', hsplit']
      exact ⟨h, rfl⟩
    · rw [hdrop, doOpenFs_cons_slash, hsplit] at h
      rw [hdrop, List.cons_append, List.append_assoc, pathOf_append_slash, doOpenFs_cons_slash, hsplit']
      exact ⟨h, rfl⟩
  rw [hwalk.2]
  exact walk_concat [] hwalk.1 hdir

end Walk

/-! ## The empty name -/

theorem open_nil_iff {fs : FileSystem} (hwf : fs.WellFormed) {dir : ℕ} (hdir : fs.isDir dir) :
    fs.open dir [] = some (some dir) ↔ fs.NamesItself dir := by
  unfold FileSystem.WellFormed at hwf
  unfold FileSystem.open FileSystem.NamesItself
  cases hscanner : fs.scanner with
  | fat32 cs junk clusters =>
    rw [hscanner] at hwf
    obtain ⟨records, hrecords, hnames⟩ := hwf dir hdir
    dsimp only
    refine iff_of_false (fun h => ?_) id
    obtain ⟨found, hfound, hnode⟩ := Option.map_eq_some_iff.mp h
    obtain ⟨i, rfl, -⟩ := Option.map_eq_some_iff.mp hnode
    exact hrecords.openDir_nil hnames junk i hfound
  | ext2 length readContent inodeRead =>
    dsimp only
    rw [Option.some.injEq, Option.filter_eq_some_iff, Ext2.openDirent_nil]
    split
    · rename_i hread
      exact (and_iff_right hread).symm
    · rename_i hread
      exact iff_of_false (fun h => nomatch h.1) fun h => hread h.1
  | iso9660 length read =>
    dsimp only
    rw [Iso9660.openLoop_nil]
    split
    · rename_i hread
      exact iff_of_false (fun h => nomatch Option.some.inj h) fun h => hread h.1
    · rename_i hread
      rw [and_iff_right (not_not.mp hread), Option.map_eq_some_iff]
      constructor
      · rintro ⟨found, hfound, hnode⟩
        obtain ⟨p, rfl, hp⟩ := Option.map_eq_some_iff.mp hnode
        exact ⟨p, hfound, hp⟩
      · rintro ⟨p, hfound, hp⟩
        exact ⟨some p, hfound, congrArg some hp⟩
  | devfs tty entries =>
    rw [hscanner] at hwf
    dsimp only
    refine iff_of_false (fun h => ?_) id
    rw [if_neg (by decide), Option.some.injEq, Option.map_eq_some_iff] at h
    obtain ⟨e, he, -⟩ := h
    exact hwf e (List.mem_of_find?_eq_some he) (by simpa using List.find?_some he)

/-! ## Mount points -/

section Mounts
variable {t : MountTable} {d : List UInt8} {m : MountPoint}

theorem strcfirst_congr {str0 str1 str1' : Mem} (h : ∀ i, (∀ j < i, str0 j = str1 j) → str0 i ≠ 0 →
    (str0 i = str1 i ↔ str0 i = str1' i)) (fuel : ℕ) {tr : ℕ} (htr : ∀ j < tr, str0 j = str1 j) :
    strcfirst str0 str1 fuel tr = strcfirst str0 str1' fuel tr := by
  induction fuel generalizing tr with
  | zero => rfl
  | succ fuel ih =>
    have hiff : str0 tr ≠ 0 ∧ str0 tr = str1 tr ↔ str0 tr ≠ 0 ∧ str0 tr = str1' tr :=
      and_congr_right (h tr htr)
    rw [strcfirst, strcfirst]
    by_cases hsame : str0 tr ≠ 0 ∧ str0 tr = str1 tr
    · rw [if_pos hsame, if_pos (hiff.mp hsame)]
      apply ih
      intro j hj
      rcases Nat.lt_succ_iff_lt_or_eq.mp hj with hlt | rfl
      · exact htr j hlt
      · exact hsame.2
    · rw [if_neg hsame, if_neg fun hsame' => hsame (hiff.mpr hsame')]

/-- A slash behind the path is a character in common only with what is mounted below the path. -/
theorem commonChars_slash (hd : ∀ x ∈ d, x ≠ 0) (hm : ∀ x ∈ m.path, x ≠ 0)
    (h : ¬d ++ [slash] <+: m.path) : commonChars d m = commonChars (d ++ [slash]) m := by
  have hlast : cstring d d.length = 0 := cstring_of_le le_rfl
  have hfront : ∀ i < d.length, cstring (d ++ [slash]) i = cstring d i := fun i hi =>
    List.getD_append _ _ _ _ hi
  have hslash : cstring (d ++ [slash]) d.length = slash := by
    unfold cstring
    rw [List.getD_append_right _ _ _ _ le_rfl, Nat.sub_self]
    rfl
  unfold commonChars
  congr 1
  apply strcfirst_congr _ _ fun j hj => absurd hj (Nat.not_lt_zero j)
  intro i hsame hi
  rcases Nat.lt_trichotomy i d.length with hlt | rfl | hgt
  · rw [hfront i hlt]
  · -- all of `d` is in front of the mount path
    rw [hlast, hslash]
    refine iff_of_false hi fun hi' => h ?_
    rw [List.prefix_iff_getElem?]
    intro k hk
    have hk' : cstring m.path k = cstring (d ++ [slash]) k := by
      rw [List.length_append, List.length_singleton] at hk
      rcases Nat.lt_succ_iff_lt_or_eq.mp hk with hlt | rfl
      · rw [hfront k hlt, hsame k hlt]
      · rw [hi', hslash]
    have hne : cstring (d ++ [slash]) k ≠ 0 := by
      apply cstring_ne _ hk
      intro x hx
      rcases List.mem_append.mp hx with hx | hx
      · exact hd x hx
      · rw [List.mem_singleton.mp hx]
        decide
    have hkm : k < m.path.length := by
      by_contra hle
      exact hne (hk' ▸ cstring_of_le (Nat.le_of_not_lt hle))
    unfold cstring at hk'
    rw [List.getD_eq_getElem _ _ hkm, List.getD_eq_getElem _ _ hk] at hk'
    rw [List.getElem?_eq_getElem hkm, hk']
  · -- the mount path has ended before
    have hend := hsame d.length hgt
    rw [hlast] at hend
    have hle : m.path.length ≤ d.length := by
      by_contra hlt
      exact cstring_ne hm (Nat.lt_of_not_le hlt) hend
    exact absurd (cstring_of_le (hle.trans hgt.le)) hi

/-- The mount point of `open_file`. -/
def bestMount (t : MountTable) (path : List UInt8) : MountPoint := findBest path t.points t.root 0

/-- The slash leads to another mount point only below the path. -/
theorem bestMount_slash (hd : IsPath d) (hlen : (bestMount t d).path.length ≤ d.length) :
    bestMount t (d ++ [slash]) = bestMount t d ∨
      d ++ [slash] <+: (bestMount t (d ++ [slash])).path := by
  have hd' : IsPath (d ++ [slash]) := by
    refine ⟨?_, fun x hx => ?_⟩
    · rw [List.head?_append, hd.absolute]
      rfl
    · rcases List.mem_append.mp hx with hx | hx
      · exact hd.nonzero x hx
      · rw [List.mem_singleton.mp hx]
        decide
  have hfirst := firstMost_findBest t hd
  have hfirst' := firstMost_findBest t hd'
  by_cases hbelow : d ++ [slash] <+: (bestMount t (d ++ [slash])).path
  · exact .inr hbelow
  left
  have hnot : ¬d ++ [slash] <+: (bestMount t d).path := by
    intro h
    have := h.length_le
    rw [List.length_append, List.length_singleton] at this
    omega
  symm
  exact hfirst.eq_of_same hfirst'
    (commonChars_slash hd.nonzero (t.isPath hfirst.mem).nonzero hnot)
    (commonChars_slash hd.nonzero (t.isPath hfirst'.mem).nonzero hbelow)

end Mounts

/-! ## The slash -/

theorem isPath_pathOf {l : List (List UInt8)} (hne : l ≠ []) (hl : ∀ c ∈ l, IsComponent c) :
    IsPath (pathOf l) := by
  refine ⟨head_pathOf hne, fun x hx => ?_⟩
  obtain ⟨c, hc, hx⟩ := List.mem_flatMap.mp hx
  rcases List.mem_cons.mp hx with rfl | hx
  · decide
  · exact (hl c hc).nonzero x hx

theorem two_le_pathOf {l : List (List UInt8)} (hne : l ≠ []) (hl : ∀ c ∈ l, IsComponent c) :
    2 ≤ (pathOf l).length := by
  obtain ⟨c, l, rfl⟩ := List.exists_cons_of_ne_nil hne
  have hc : 0 < c.length := List.length_pos_iff.mpr (hl c List.mem_cons_self).ne_nil
  rw [pathOf_cons, List.length_cons, List.length_append]
  omega

theorem doOpenFs_nil (fs : FileSystem) : fs.doOpenFs [] = fs.open fs.root [] :=
  (doOpenFs_of_head_ne (by simp)).trans (walk_one fs [] fs.root)

theorem doOpenFs_slash_nil (fs : FileSystem) : fs.doOpenFs [slash] = fs.open fs.root [] :=
  (doOpenFs_cons_slash fs []).trans (walk_one fs [] fs.root)

theorem bestMount_mem (t : MountTable) (path : List UInt8) : bestMount t path ∈ t.points := by
  unfold bestMount
  rcases @findBest_spec path t.points t.root 0 with ⟨hbest, -⟩ | ⟨hfirst, -⟩
  · rw [hbest]
    exact List.mem_cons_self
  · exact hfirst.mem

theorem openFile_eq (t : MountTable) {path : List UInt8} (hlen : 2 ≤ path.length) :
    openFile t path = if path = (bestMount t path).path then .rootDir (bestMount t path)
      else .lookup (bestMount t path) (bestMount t path).path.length := by
  unfold openFile
  rw [if_neg (by omega)]
  rfl

/-- No mount path ends with a slash behind another character. -/
theorem mount_path_ne {t : MountTable} {d : List UInt8} (hlen : 1 ≤ d.length) {m : MountPoint}
    (hm : m ∈ t.points) : d ++ [slash] ≠ m.path := by
  intro heq
  rcases List.mem_cons.mp hm with rfl | hother
  · have hlength := congrArg List.length heq
    rw [t.root_path, List.length_append, List.length_singleton] at hlength
    omega
  · apply t.others_last _ hother
    rw [← heq, List.getLast?_concat]

/-- With the slash nothing is left of a mount path, so it is looked up if it is not too long. -/
theorem resolve_of_slash {t : MountTable} {d : List UInt8} (hlen : 1 ≤ d.length)
    (fs : ℕ → FileSystem) :
    let m := bestMount t (d ++ [slash])
    resolve t fs (d ++ [slash]) = if m.path.length ≤ d.length + 1 then
      ((fs m.fs).doOpenFs ((d ++ [slash]).drop m.path.length)).map (·.map (m.fs, ·)) else none := by
  have hlength : (d ++ [slash]).length = d.length + 1 := List.length_append
  have hopen : openFile t (d ++ [slash]) =
      .lookup (bestMount t (d ++ [slash])) (bestMount t (d ++ [slash])).path.length := by
    have hmem := bestMount_mem t (d ++ [slash])
    rw [openFile_eq t (by omega)]
    exact if_neg (mount_path_ne hlen hmem)
  unfold resolve
  rw [hopen]
  dsimp only
  rw [hlength]

/-- A directory that is found under a path is found under the path with a slash exactly if nothing
else is mounted there for the longer path, and the directory names itself. (A path that is as long
as the path of its mount point without being it is the root directory's in both cases.) -/
theorem resolve_slash_iff {t : MountTable} {fs : ℕ → FileSystem} {l : List (List UInt8)} {k node : ℕ}
    (hne : l ≠ []) (hl : ∀ c ∈ l, IsComponent c) (hwf : ∀ k, (fs k).WellFormed)
    (hopen : resolve t fs (pathOf l) = some (some (k, node))) (hdir : (fs k).isDir node) :
    resolve t fs (pathOf l ++ [slash]) = some (some (k, node)) ↔
      bestMount t (pathOf l ++ [slash]) = bestMount t (pathOf l) ∧
        ((fs k).NamesItself node ∨ pathOf l ≠ (bestMount t (pathOf l)).path ∧
          (pathOf l).length = (bestMount t (pathOf l)).path.length) := by
  have hpath := isPath_pathOf hne hl
  have htwo := two_le_pathOf hne hl
  have hslash := resolve_of_slash (t := t) (d := pathOf l) (by omega) fs
  dsimp only at hslash
  have hpair : ∀ {r : Option (Option ℕ)} {j : ℕ},
      r.map (·.map (j, ·)) = some (some (k, node)) ↔ j = k ∧ r = some (some node) := by
    intro r j
    rcases r with - | - | n <;> simp
  unfold resolve at hopen
  rw [openFile_eq t htwo] at hopen
  generalize hm : bestMount t (pathOf l) = m at hopen ⊢
  have hlen : m.path.length ≤ (pathOf l).length := by
    by_cases hmount : pathOf l = m.path
    · rw [hmount]
    · rw [if_neg hmount] at hopen
      dsimp only at hopen
      split at hopen
      · assumption
      · exact nomatch hopen
  by_cases hsame : bestMount t (pathOf l ++ [slash]) = m
  · rw [hslash, hsame, if_pos (by omega), and_iff_right rfl, hpair,
      List.drop_append_of_le_length hlen]
    by_cases hmount : pathOf l = m.path
    · -- the root directory of the mount point
      rw [if_pos hmount] at hopen
      obtain ⟨rfl, rfl⟩ := Prod.mk.inj (Option.some.inj (Option.some.inj hopen))
      rw [hmount, List.drop_length, List.nil_append, doOpenFs_slash_nil, and_iff_right rfl,
        open_nil_iff (hwf _) hdir]
      exact (or_iff_left fun h => h.1 rfl).symm
    · rw [if_neg hmount] at hopen
      dsimp only at hopen
      rw [if_pos hlen, hpair] at hopen
      obtain ⟨rfl, hfound⟩ := hopen
      rw [and_iff_right rfl]
      rcases Nat.lt_or_eq_of_le hlen with hlt | heq
      · rw [doOpenFs_slash hl hlt hfound hdir, open_nil_iff (hwf _) hdir]
        exact (or_iff_left fun h => hlt.ne' h.2).symm
      · rw [heq, List.drop_length, doOpenFs_nil] at hfound
        rw [heq, List.drop_length, List.nil_append, doOpenFs_slash_nil]
        exact iff_of_true hfound (.inr ⟨hmount, rfl⟩)
  · -- the other mount path is longer than the path with the slash
    have hbelow := (bestMount_slash hpath (hm ▸ hlen)).resolve_left (hm ▸ hsame)
    have hne' := mount_path_ne (d := pathOf l) (by omega) (bestMount_mem t (pathOf l ++ [slash]))
    have hlonger : ¬(bestMount t (pathOf l ++ [slash])).path.length ≤ (pathOf l).length + 1 := by
      intro hle
      apply hne'
      apply hbelow.eq_of_length_le
      rwa [List.length_append, List.length_singleton]
    rw [hslash, if_neg hlonger]
    exact iff_of_false nofun fun h => hsame h.1

/-- A directory whose first record is `.`. -/
def letterDirectory : Mem := cstring
  [11, 0, 0, 0, 12, 0, 1, 0, 46, 0, 0, 0,
    2, 0, 0, 0, 0xF4, 3, 2, 0, 46, 46, 0, 0]

/-- An ext2 volume with the directory `/a`, and devfs. -/
def kernelFs (k : ℕ) : FileSystem :=
  if k = 0 then
    { root := 2
      isDir := fun n => n = 2 ∨ n = 11
      scanner := .ext2 (fun _ => 1024)
        (fun n _ => (.none, if n = 2 then Ext2.rootDirectory else letterDirectory)) fun _ => true }
  else { root := 0, isDir := fun n => n = 0, scanner := .devfs 1 [([104, 100, 97], 2)] }

theorem kernelFs_wellFormed (k : ℕ) : (kernelFs k).WellFormed := by
  unfold kernelFs
  split
  · trivial
  · intro e he
    rw [List.mem_singleton.mp he]
    exact List.cons_ne_nil _ _

/-- `/a/` is `/a`. -/
theorem resolve_slash_letter :
    resolve kernelMounts kernelFs (pathOf [[97]] ++ [slash]) = some (some (0, 11)) := by
  refine (resolve_slash_iff (List.cons_ne_nil _ _) ?_ kernelFs_wellFormed (by decide)
    (by decide)).mpr ⟨by decide, .inl ⟨rfl, by decide, rfl⟩⟩
  intro c hc
  rw [List.mem_singleton.mp hc]
  exact ⟨List.cons_ne_nil _ _, by simp [slash], by simp⟩

/-- `/dev` is the root directory of devfs, and `/dev/` is not found. -/
theorem resolve_slash_dev :
    resolve kernelMounts kernelFs (pathOf [[100, 101, 118]]) = some (some (1, 0)) ∧
      (kernelFs 1).isDir 0 ∧
      resolve kernelMounts kernelFs (pathOf [[100, 101, 118]] ++ [slash]) = some none := by
  decide

end VkKernel.Vfs
