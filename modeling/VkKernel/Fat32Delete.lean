import VkKernel.BlockLayer
import VkKernel.Fat32Dirent
import VkKernel.Fat32LongNames

/-!
# Deleting a FAT32 entry

`fat32fs_delete_dirent` marks the 8.3 entry of a file as deleted and leaves the parts of its
long name. `fat32_open` never forgets a long name, so it takes them for the name of the files
behind them that have none, and compares the remains of longer names behind a shorter one.
-/

namespace VkKernel.Fat32
open ByteMemory PackedStruct

/-! ## `fat32fs_delete_dirent` -/

/-- The buffer with the entries is written back to the clusters, from a pointer that moves on by
32 clusters. -/
def writeBack (cs : ℕ) (m : Mem) (clusters : List Mem) : List Mem :=
  clusters.mapIdx fun j _ => window m (j * (32 * cs))

/-- `fat32fs_delete_dirent` of the file with this first cluster: the directory behind it. The loop
that finds the entry is that of `fat32fs_update_dirent`, and the loop over the long name marks the
8.3 entry again and again. -/
def deleteDirent (cs : ℕ) (clusters : List Mem) (junk : Mem) (cluster : ℕ) :
    Option (ErrorT × List Mem) :=
  (readDirents cs (clusters.length * cs) 0 junk clusters).bind fun m =>
    (findDirent m junk cluster (clusters.length * cs / 32) 0 none).map fun found =>
      match found with
      | none => (.fileNotFound, clusters)
      | some i => (.none, writeBack cs (Function.update m (32 * i) deletedMark) clusters)

/-! ## What deletion has to do -/

/-- The number of entries of some records. -/
def entryCount (records : List Record) : ℕ := (records.flatMap Record.entries).length

/-- The files have different first clusters and different names, which are strings, and a long
name has as many parts as it needs. -/
structure WellNamed (records : List Record) : Prop where
  distinct : (filesFrom 0 records).Pairwise fun f g =>
    f.2.inode ≠ g.2.inode ∧ ¬sameName f.2.name g.2.name
  strings : ∀ f ∈ filesFrom 0 records, ∀ c ∈ f.2.name, c ≠ 0
  parts : ∀ run e, Record.file run e ∈ records → run ≠ [] →
    13 * (run.length - 1) < (Record.name run e).length

/-- The entry is deleted, its name is not found any more, and all other files are. -/
def DeletesOnly (cs : ℕ) (clusters : List Mem) (records : List Record) (e : ℕ × Listed) : Prop :=
  ∀ junk junk', ∃ clusters', deleteDirent cs clusters junk e.2.inode = some (.none, clusters') ∧
    openDir cs clusters' junk' e.2.name = some none ∧
    ∀ f ∈ filesFrom 0 records, f.1 ≠ e.1 → openDir cs clusters' junk' f.2.name = some (some f.1)

/-- The number of parts of the first long name of a directory. -/
def firstParts : List Record → ℕ
  | .file run _ :: rs => if run = [] then firstParts rs else run.length
  | .deleted _ :: rs => firstParts rs
  | [] => 0

def HasNoLongName : Record → Prop
  | .file run _ => run = []
  | .deleted _ => True

/-- The other file is found by its name: without a long name, if no file in front of it has one and
its extension has no blanks; with a long name, if the name ends in front of the end of its last
part, or has as many parts as the first one of the directory. -/
def StaysFound (parts : ℕ) (before : List Record) (run : List Mem) (e : Mem) : Prop :=
  if run = [] then
    (∀ r ∈ before, HasNoLongName r) ∧ sameName (oldName e) (Record.name run e)
  else (Record.name run e).length < 13 * run.length ∨ run.length = parts

/-- When the file between these records can be deleted: the directory has one cluster, the file
has a long name, no long name has more parts than the first one, and all others stay found. -/
structure Deletable (clusters : List Mem) (before : List Record) (run : List Mem) (e : Mem)
    (after : List Record) : Prop where
  one : clusters.length = 1
  long : run ≠ []
  fits : ∀ run' e', Record.file run' e' ∈ before ++ .file run e :: after →
    run'.length ≤ firstParts (before ++ .file run e :: after)
  others : ∀ before' run' e' after', before' ++ .file run' e' :: after' =
    before ++ .file run e :: after → before' ≠ before →
      StaysFound (firstParts (before ++ .file run e :: after)) before' run' e'

/-! ## Names as strings -/

theorem toLower_invCase (c : UInt8) : toLower (invCase c) = toLower c := by
  revert c
  decide +kernel

theorem isLower_of_isUpper {c : UInt8} : isUpper c → isLower (c + 0x20) ∧ ¬isLower c := by
  revert c
  decide +kernel

theorem toLower_eq_iff {c d : UInt8} : c = d ∨ invCase c = d ↔ toLower c = toLower d := by
  constructor
  · rintro (rfl | rfl)
    · rfl
    · exact (toLower_invCase c).symm
  · intro h
    unfold toLower at h
    by_cases hc : isUpper c
    · rw [if_pos hc] at h
      by_cases hd : isUpper d
      · rw [if_pos hd] at h
        exact .inl (UInt8.add_right_inj 0x20 |>.mp (by rwa [UInt8.add_comm, UInt8.add_comm 0x20]))
      · rw [if_neg hd] at h
        right
        unfold invCase toLower
        rw [if_neg (isLower_of_isUpper hc).2, if_pos hc, h]
    · rw [if_neg hc] at h
      by_cases hd : isUpper d
      · rw [if_pos hd] at h
        right
        unfold invCase toUpper
        rw [h, if_pos (isLower_of_isUpper hd).1, if_pos (isLower_of_isUpper hd).1]
        exact UInt8.add_sub_cancel d 0x20
      · rw [if_neg hd] at h
        exact .inl h

/-- The comparison from the place `i` on. -/
theorem strcmpnc_drop {s : Mem} {a b : List UInt8} (hs : IsString s a) (hb : ∀ c ∈ b, c ≠ 0)
    {fuel i : ℕ} (hi : i ≤ a.length) (hfuel : a.length < i + fuel) :
    strcmpnc s (cstring b) fuel i = true ↔ sameName (a.drop i) (b.drop i) := by
  induction fuel generalizing i with
  | zero => omega
  | succ fuel ih =>
    rw [strcmpnc, hs.eq i hi]
    rcases Nat.lt_or_eq_of_le hi with hlt | rfl
    · have ha : cstring a i = a[i] := List.getD_eq_getElem _ _ hlt
      have ha0 : a[i] ≠ 0 := hs.ne_zero _ (List.getElem_mem hlt)
      rw [ha, List.drop_eq_getElem_cons hlt]
      rcases Nat.lt_or_ge i b.length with hltb | hge
      · have hb' : cstring b i = b[i] := List.getD_eq_getElem _ _ hltb
        rw [hb', List.drop_eq_getElem_cons hltb]
        by_cases hsame : a[i] = b[i] ∨ invCase a[i] = b[i]
        · rw [if_pos ⟨ha0, hsame⟩, ih (by omega) (by omega)]
          unfold sameName
          rw [List.map_cons, List.map_cons, List.cons.injEq, and_iff_right (toLower_eq_iff.mp hsame)]
        · rw [if_neg fun h => hsame h.2]
          refine iff_of_false (fun h => hsame (.inl (of_decide_eq_true h))) fun h => ?_
          unfold sameName at h
          rw [List.map_cons, List.map_cons, List.cons.injEq] at h
          exact hsame (toLower_eq_iff.mpr h.1)
      · -- the second string has ended
        rw [cstring_of_le hge, List.drop_of_length_le hge, if_neg]
        · exact iff_of_false (fun h => ha0 (of_decide_eq_true h)) nofun
        · rintro ⟨-, h | h⟩
          · exact ha0 h
          · exact invCase_ne_zero ha0 h
    · rw [cstring_of_le le_rfl, if_neg fun h => h.1 rfl, List.drop_length]
      rcases Nat.lt_or_ge a.length b.length with hltb | hge
      · have hb' : cstring b a.length = b[a.length] := List.getD_eq_getElem _ _ hltb
        have hb0 : b[a.length] ≠ 0 := hb _ (List.getElem_mem hltb)
        rw [hb', List.drop_eq_getElem_cons hltb]
        exact iff_of_false (fun h => hb0 (of_decide_eq_true h).symm) nofun
      · rw [cstring_of_le hge, List.drop_of_length_le hge]
        exact iff_of_true (decide_eq_true rfl) rfl

/-- `strcmpnc` compares two strings without case. -/
theorem strcmpnc_iff {s : Mem} {a b : List UInt8} (hs : IsString s a) (hb : ∀ c ∈ b, c ≠ 0) {fuel : ℕ}
    (hfuel : a.length < fuel) : strcmpnc s (cstring b) fuel 0 = true ↔ sameName a b :=
  strcmpnc_drop hs hb (Nat.zero_le _) (by omega)

/-! ## The memory of a long name -/

/-- All characters that the parts of a long name have room for. -/
def runText (run : List Mem) : List UInt8 :=
  run.reverse.flatMap fun e => (List.range 13).map (lfnChar e)

/-- The loop of `fat32_open` over the parts of a long name. -/
def storeRun (junk : Mem) : List Mem → Option NameBuffer → Option (Option NameBuffer)
  | [], lfnName => some lfnName
  | e :: es, lfnName =>
    (storeLfn (lfnName.getD (newBuffer junk e)) e).bind fun b => storeRun junk es (some b)

/-- The parts are numbered down to 1. -/
def Numbered (run : List Mem) : Prop :=
  ∀ k (hk : k < run.length), lfnNbr run[k] = run.length - k

section Runs
variable {run : List Mem} {e : Mem} {junk : Mem} {b : NameBuffer}

theorem length_runText (run : List Mem) : (runText run).length = 13 * run.length := by
  induction run with
  | nil => rfl
  | cons e es ih =>
    unfold runText at ih ⊢
    simp only [List.reverse_cons, List.flatMap_append, List.length_append, ih]
    simp
    omega

theorem runText_cons (e : Mem) (es : List Mem) :
    runText (e :: es) = runText es ++ (List.range 13).map (lfnChar e) := by
  simp [runText]

theorem Numbered.tail (h : Numbered (e :: run)) : Numbered run := by
  intro k hk
  have hnext := h (k + 1) (Nat.succ_lt_succ hk)
  rw [List.getElem_cons_succ, List.length_cons] at hnext
  omega

variable (junk) in
/-- The parts fill the front of a memory that is large enough. -/
theorem storeRun_fits (hrun : Numbered run) (hsize : 13 * run.length + 1 ≤ b.size) :
    ∃ b', storeRun junk run (some b) = some (some b') ∧ b'.size = b.size ∧
      (∀ k < 13 * run.length, b'.chars k = (runText run).getD k 0) ∧
      ∀ k, 13 * run.length ≤ k → b'.chars k = b.chars k := by
  induction run generalizing b with
  | nil => exact ⟨b, rfl, rfl, fun k hk => absurd hk (Nat.not_lt_zero k), fun _ _ => rfl⟩
  | cons e es ih =>
    have hnbr : lfnNbr e = es.length + 1 := hrun 0 (Nat.succ_pos _)
    rw [List.length_cons] at hsize ⊢
    have hstore : ∃ b₁, storeLfn b e = some b₁ ∧ b₁.size = b.size ∧
        ∀ k, b₁.chars k = if 13 * es.length ≤ k ∧ k < 13 * es.length + 13 then
          lfnChar e (k - 13 * es.length) else b.chars k := by
      unfold storeLfn
      rw [hnbr, Nat.add_sub_cancel]
      dsimp only
      rw [if_pos ⟨Nat.succ_ne_zero _, by omega⟩]
      exact ⟨_, rfl, rfl, fun _ => rfl⟩
    obtain ⟨b₁, hstore, hsize₁, hchars₁⟩ := hstore
    obtain ⟨b', hb', hsize', hfront, hback⟩ := ih hrun.tail (by omega : 13 * es.length + 1 ≤ b₁.size)
    have hlen := length_runText es
    refine ⟨b', ?_, hsize'.trans hsize₁, fun k hk => ?_, fun k hk => ?_⟩
    · rw [storeRun, Option.getD_some, hstore]
      exact hb'
    · rw [runText_cons]
      by_cases hin : k < 13 * es.length
      · rw [hfront k hin, List.getD_append _ _ _ _ (by omega)]
      · rw [hback k (by omega), hchars₁, if_pos (by omega), List.getD_append_right _ _ _ _ (by omega),
          hlen, List.getD_eq_getElem _ _ (by simp; omega)]
        simp
    · rw [hback k (by omega), hchars₁, if_neg (by omega)]

/-- The first part of a longer name does not fit into the memory of a shorter one. -/
theorem storeRun_too_long (hrun : Numbered run) (hsize : b.size < 13 * run.length) :
    storeRun junk run (some b) = none := by
  cases run with
  | nil => exact absurd hsize (Nat.not_lt_zero _)
  | cons e es =>
    have hnbr : lfnNbr e = es.length + 1 := hrun 0 (Nat.succ_pos _)
    have hlong : b.size < 13 * (es.length + 1) := hsize
    have hstore : storeLfn b e = none := by
      unfold storeLfn
      rw [hnbr, Nat.add_sub_cancel]
      dsimp only
      exact if_neg fun h => by omega
    rw [storeRun, Option.getD_some, hstore]
    rfl

theorem storeRun_append (es fs : List Mem) (s : Option NameBuffer) :
    storeRun junk (es ++ fs) s = (storeRun junk es s).bind (storeRun junk fs) := by
  induction es generalizing s with
  | nil => rfl
  | cons e es ih =>
    rw [List.cons_append, storeRun, storeRun, Option.bind_assoc]
    simp only [ih]

end Runs

/-! ## What the memory holds behind some records -/

/-- The parts of the long name of a record. -/
def Record.run : Record → List Mem
  | deleted _ => []
  | file run _ => run

/-- The last long name of some records. -/
def lastRun : List Record → List Mem
  | [] => []
  | r :: rs => if lastRun rs = [] then r.run else lastRun rs

/-- The long names of well-formed records. -/
structure Canonical (r : Record) : Prop where
  numbered : Numbered r.run
  fills : r.run ≠ [] → 13 * (r.run.length - 1) < ((runText r.run).takeWhile (· ≠ 0)).length

/-- No long name has more parts than the first one. -/
def Fits (records : List Record) : Prop := ∀ r ∈ records, r.run.length ≤ firstParts records

/-- The memory has room for `parts` parts and starts with this long name. Behind it are remains of
others, and every part starts with a character. -/
structure Holds (parts : ℕ) (run : List Mem) (b : NameBuffer) : Prop where
  size : b.size = 13 * parts + 1
  stop : b.chars (13 * parts) = 0
  starts : ∀ n < parts, b.chars (13 * n) ≠ 0
  le : run.length ≤ parts
  front : ∀ k < 13 * run.length, b.chars k = (runText run).getD k 0

section Holds
variable {run h : List Mem} {parts : ℕ} {junk : Mem} {b : NameBuffer} {r : Record}
  {records : List Record}

theorem ne_zero_of_mem_takeWhile {l : List UInt8} {c : UInt8} (h : c ∈ l.takeWhile (· ≠ 0)) :
    c ≠ 0 := by
  have hc := List.mem_takeWhile_imp h
  exact of_decide_eq_true hc

/-- A list goes on with its first zero byte, or ends. -/
theorem takeWhile_stop (l : List UInt8) : l.getD (l.takeWhile (· ≠ 0)).length 0 = 0 := by
  induction l with
  | nil => rfl
  | cons c l ih =>
    by_cases hc : c = 0
    · simp [hc]
    · simpa [hc] using ih

/-- The characters of a list before its first zero byte. -/
theorem takeWhile_getD {l : List UInt8} {k : ℕ} (hk : k < (l.takeWhile (· ≠ 0)).length) :
    l.getD k 0 = (l.takeWhile (· ≠ 0)).getD k 0 ∧ l.getD k 0 ≠ 0 := by
  have hpre : (l.takeWhile (· ≠ 0)) <+: l := List.takeWhile_prefix _
  have hlt : k < l.length := Nat.lt_of_lt_of_le hk hpre.length_le
  have hget : l.getD k 0 = (l.takeWhile (· ≠ 0)).getD k 0 := by
    rw [List.getD_eq_getElem _ _ hlt, List.getD_eq_getElem _ _ hk]
    exact (hpre.getElem hk).symm
  refine ⟨hget, ?_⟩
  rw [hget, List.getD_eq_getElem _ _ hk]
  exact ne_zero_of_mem_takeWhile (List.getElem_mem hk)

theorem starts_of_canonical (hr : Canonical r) {n : ℕ} (hn : n < r.run.length) :
    (runText r.run).getD (13 * n) 0 ≠ 0 := by
  have hne : r.run ≠ [] := by
    intro hnil
    rw [hnil] at hn
    exact absurd hn (Nat.not_lt_zero n)
  have hfills := hr.fills hne
  exact (takeWhile_getD (by omega)).2

/-- A long name that is not longer is put over the one in the memory. -/
theorem Holds.store (hb : Holds parts h b) (hr : Canonical r) (hle : r.run.length ≤ parts) :
    ∃ b', storeRun junk r.run (some b) = some (some b') ∧ Holds parts r.run b' := by
  have hsize := hb.size
  obtain ⟨b', hstore, hsize', hfront, hback⟩ :=
    storeRun_fits junk hr.numbered (show 13 * r.run.length + 1 ≤ b.size by omega)
  refine ⟨b', hstore, hsize'.trans hsize, ?_, fun n hn => ?_, hle, hfront⟩
  · rw [hback _ (by omega)]
    exact hb.stop
  · by_cases hin : n < r.run.length
    · rw [hfront _ (by omega)]
      exact starts_of_canonical hr hin
    · rw [hback _ (by omega)]
      exact hb.starts n hn

/-- The first long name gets memory of its size. -/
theorem holds_first (hr : Canonical r) (hne : r.run ≠ []) :
    ∃ b', storeRun junk r.run none = some (some b') ∧ Holds r.run.length r.run b' := by
  cases hrun : r.run with
  | nil => exact absurd hrun hne
  | cons e es =>
    have hnumbered := hr.numbered
    rw [hrun] at hnumbered
    have hnbr : lfnNbr e = es.length + 1 := hnumbered 0 (Nat.succ_pos _)
    have hsize : (newBuffer junk e).size = 13 * (e :: es).length + 1 := by
      change 13 * lfnNbr e + 1 = _
      rw [hnbr]
      rfl
    obtain ⟨b', hstore, hsize', hfront, hback⟩ := storeRun_fits junk hnumbered hsize.ge
    refine ⟨b', hstore, hsize'.trans hsize, ?_, fun n hn => ?_, le_rfl, hfront⟩
    · rw [hback _ le_rfl]
      exact if_pos (by rw [hnbr]; rfl)
    · rw [hfront _ (by omega), ← hrun]
      exact starts_of_canonical hr (hrun ▸ hn)

/-- All parts of the long names. -/
def partsOf (records : List Record) : List Mem := records.flatMap Record.run

theorem partsOf_eq_nil : partsOf records = [] ↔ ∀ r ∈ records, r.run = [] :=
  List.flatMap_eq_nil_iff

theorem partsOf_concat (records : List Record) (r : Record) :
    partsOf (records ++ [r]) = partsOf records ++ r.run := by
  simp [partsOf]

theorem firstParts_cons (r : Record) (rs : List Record) :
    firstParts (r :: rs) = if r.run = [] then firstParts rs else r.run.length := by
  cases r with
  | deleted e => rfl
  | file run e => rfl

theorem firstParts_append (rs rs' : List Record) :
    firstParts (rs ++ rs') = if partsOf rs = [] then firstParts rs' else firstParts rs := by
  induction rs with
  | nil => rfl
  | cons r rs ih =>
    rw [List.cons_append, firstParts_cons, firstParts_cons, ih]
    by_cases hr : r.run = []
    · simp [partsOf, hr]
    · simp [partsOf, hr]

theorem lastRun_concat (rs : List Record) (r : Record) :
    lastRun (rs ++ [r]) = if r.run = [] then lastRun rs else r.run := by
  induction rs with
  | nil =>
    by_cases hr : r.run = []
    · simp [lastRun, hr]
    · simp [lastRun]
  | cons r' rs ih =>
    rw [List.cons_append, lastRun, ih, lastRun]
    by_cases hr : r.run = []
    · simp [hr]
    · simp [hr]

theorem lastRun_mem (h : partsOf records ≠ []) :
    lastRun records ≠ [] ∧ ∃ r ∈ records, r.run = lastRun records := by
  induction records using List.reverseRecOn with
  | nil => exact absurd rfl h
  | append_singleton rs r ih =>
    rw [lastRun_concat]
    by_cases hr : r.run = []
    · rw [partsOf_concat, hr, List.append_nil] at h
      rw [if_pos hr]
      obtain ⟨hne, r', hmem, heq⟩ := ih h
      exact ⟨hne, r', List.mem_append_left _ hmem, heq⟩
    · rw [if_neg hr]
      exact ⟨hr, r, List.mem_append_right _ (List.mem_singleton_self r), rfl⟩

theorem Fits.prefix {rs rs' : List Record} (h : Fits (rs ++ rs')) : Fits rs := by
  intro r hr
  by_cases hnil : partsOf rs = []
  · rw [partsOf_eq_nil.mp hnil r hr]
    exact Nat.zero_le _
  · have hle := h r (List.mem_append_left _ hr)
    rwa [firstParts_append, if_neg hnil] at hle

variable (junk) in
/-- The memory behind records none of whose long names is too long. -/
theorem holds_records (hcan : ∀ r ∈ records, Canonical r) (hfits : Fits records)
    (hne : partsOf records ≠ []) :
    ∃ b, storeRun junk (partsOf records) none = some (some b) ∧
      Holds (firstParts records) (lastRun records) b := by
  induction records using List.reverseRecOn with
  | nil => exact absurd rfl hne
  | append_singleton rs r ih =>
    have hcan' : ∀ r' ∈ rs, Canonical r' := fun r' hr' => hcan r' (List.mem_append_left _ hr')
    have hr := hcan r (List.mem_append_right _ (List.mem_singleton_self r))
    have hle := hfits r (List.mem_append_right _ (List.mem_singleton_self r))
    rw [partsOf_concat] at hne ⊢
    rw [firstParts_append] at hle ⊢
    rw [lastRun_concat, storeRun_append]
    by_cases hnil : partsOf rs = []
    · -- this is the first long name
      rw [hnil, List.nil_append] at hne
      rw [hnil, if_pos rfl, if_neg hne, firstParts_cons, if_neg hne]
      exact holds_first hr hne
    · rw [if_neg hnil] at hle ⊢
      obtain ⟨b, hstore, hb⟩ := ih hcan' hfits.prefix hnil
      rw [hstore, Option.bind_some]
      by_cases hrun : r.run = []
      · rw [if_pos hrun, hrun]
        exact ⟨b, rfl, hb⟩
      · rw [if_neg hrun]
        exact hb.store hr hle

/-- Without a fault no long name is too long. -/
theorem fits_of_storeRun (hcan : ∀ r ∈ records, Canonical r) {s : Option NameBuffer}
    (hstore : storeRun junk (partsOf records) none = some s) : Fits records := by
  induction records using List.reverseRecOn generalizing s with
  | nil => exact fun r hr => absurd hr List.not_mem_nil
  | append_singleton rs r ih =>
    have hcan' : ∀ r' ∈ rs, Canonical r' := fun r' hr' => hcan r' (List.mem_append_left _ hr')
    have hr := hcan r (List.mem_append_right _ (List.mem_singleton_self r))
    rw [partsOf_concat, storeRun_append, Option.bind_eq_some_iff] at hstore
    obtain ⟨s', hrs, hlast⟩ := hstore
    have hfits := ih hcan' hrs
    intro r' hr'
    rw [firstParts_append]
    by_cases hnil : partsOf rs = []
    · rw [if_pos hnil, firstParts_cons]
      rcases List.mem_append.mp hr' with hold | hnew
      · rw [partsOf_eq_nil.mp hnil r' hold]
        exact Nat.zero_le _
      · rw [List.mem_singleton.mp hnew]
        split
        · rename_i hrun
          rw [hrun]
          exact Nat.zero_le _
        · exact le_rfl
    · rw [if_neg hnil]
      rcases List.mem_append.mp hr' with hold | hnew
      · exact hfits r' hold
      · rw [List.mem_singleton.mp hnew]
        obtain ⟨b, hstore, hb⟩ := holds_records junk hcan' hfits hnil
        have hsize := hb.size
        rw [hstore, Option.some.injEq] at hrs
        by_contra hlong
        rw [← hrs, storeRun_too_long hr.numbered (by omega)] at hlast
        exact nomatch hlast

end Holds

/-! ## The comparison at an entry -/

/-- Whether `fat32_open` takes an entry for the file with this name. -/
def opens (lfnName : Option NameBuffer) (e key : Mem) : Bool :=
  match lfnName with
  | some b => strcmpnc b.chars key b.size 0
  | none => strcmpnc (cstring (oldName e)) key 13 0

/-- A string that is found equal ends where the name ends. -/
theorem strcmpnc_true {s : Mem} {key : List UInt8} (hkey : ∀ c ∈ key, c ≠ 0) {fuel i : ℕ}
    (hi : i ≤ key.length) (h : strcmpnc s (cstring key) fuel i = true) :
    s key.length = 0 ∧ ∀ k, i ≤ k → k < key.length → s k ≠ 0 := by
  induction fuel generalizing i with
  | zero => exact nomatch h
  | succ fuel ih =>
    rw [strcmpnc] at h
    split at h
    · rename_i hsame
      have hlt : i < key.length := by
        by_contra hge
        rw [cstring_of_le (by omega)] at hsame
        rcases hsame.2 with hzero | hzero
        · exact hsame.1 hzero
        · exact invCase_ne_zero hsame.1 hzero
      obtain ⟨hstop, hrest⟩ := ih hlt h
      refine ⟨hstop, fun k hk hlen => ?_⟩
      rcases Nat.eq_or_lt_of_le hk with rfl | hnext
      · exact hsame.1
      · exact hrest k hnext hlen
    · rename_i hdiff
      have heq : s i = cstring key i := of_decide_eq_true h
      have hzero : s i = 0 := by
        by_contra hne
        exact hdiff ⟨hne, .inl heq⟩
      have hend : i = key.length := by
        by_contra hne
        have hlt : i < key.length := by omega
        have hget : cstring key i = key[i] := List.getD_eq_getElem _ _ hlt
        exact hkey _ (List.getElem_mem hlt) (hget.symm.trans (heq.symm.trans hzero))
      rw [← hend]
      exact ⟨hzero, fun k hk hlt => absurd hlt (by omega)⟩

theorem oldName_spec (e : Mem) : (oldName e).length ≤ 12 ∧ ∀ c ∈ oldName e, c ≠ 0 := by
  have hbase : ((((List.range 8).map e).takeWhile (· ≠ 0)).rdropWhile (· = 0x20)) <+:
      ((List.range 8).map e).takeWhile (· ≠ 0) := List.rdropWhile_prefix _ _
  have hlen8 := hbase.length_le.trans (List.takeWhile_prefix _).length_le
  have hlen3 := (List.takeWhile_prefix (l := (List.range 3).map fun i => e (8 + i))
    (p := (· ≠ 0))).length_le
  rw [List.length_map, List.length_range] at hlen8 hlen3
  unfold oldName
  constructor
  · rw [List.length_append]
    split
    · rw [List.length_cons]
      omega
    · rw [List.length_nil]
      omega
  · intro c hc
    rcases List.mem_append.mp hc with hc | hc
    · exact ne_zero_of_mem_takeWhile (hbase.subset hc)
    · split at hc
      · rcases List.mem_cons.mp hc with rfl | hc
        · decide
        · exact ne_zero_of_mem_takeWhile hc
      · exact nomatch hc

theorem length_name_nil (e : Mem) : (Record.name [] e).length ≤ 12 := by
  have hbase := (List.rdropWhile_prefix (l := (List.range 8).map e) (· = 0x20)).length_le
  have hext := (List.rdropWhile_prefix (l := (List.range 3).map fun i => e (8 + i))
    (· = 0x20)).length_le
  rw [List.length_map, List.length_range] at hbase hext
  unfold Record.name
  rw [if_pos rfl]
  dsimp only
  split
  · omega
  · rw [List.length_append, List.length_cons]
    omega

theorem name_of_ne_nil {run : List Mem} (h : run ≠ []) (e : Mem) :
    Record.name run e = (runText run).takeWhile (· ≠ 0) := if_neg h

/-- The string in the memory is the long name, if it ends inside the last part or the memory ends
there. -/
theorem Holds.isString {parts : ℕ} {run : List Mem} {b : NameBuffer} (hb : Holds parts run b)
    (hends : ((runText run).takeWhile (· ≠ 0)).length < 13 * run.length ∨ run.length = parts) :
    IsString b.chars ((runText run).takeWhile (· ≠ 0)) where
  ne_zero c hc := ne_zero_of_mem_takeWhile hc
  eq k hk := by
    have hle := (List.takeWhile_prefix (l := runText run) (p := (· ≠ 0))).length_le
    rw [length_runText] at hle
    rcases Nat.lt_or_eq_of_le hk with hlt | rfl
    · rw [hb.front k (by omega)]
      exact (takeWhile_getD hlt).1
    · rw [cstring_of_le le_rfl]
      by_cases hin : ((runText run).takeWhile (· ≠ 0)).length < 13 * run.length
      · rw [hb.front _ hin]
        exact takeWhile_stop _
      · have hfull : ((runText run).takeWhile (· ≠ 0)).length = 13 * parts := by omega
        rw [hfull]
        exact hb.stop

section Opens
variable {before : List Record} {run : List Mem} {e : Mem} {junk : Mem} {s : Option NameBuffer}

/-- What the memory holds at the entry of a file. -/
theorem state_at_file (hcan : ∀ r ∈ before ++ [.file run e], Canonical r)
    (hs : storeRun junk (partsOf (before ++ [.file run e])) none = some s) :
    partsOf (before ++ [.file run e]) = [] ∧ s = none ∨
      ∃ b, s = some b ∧ Holds (firstParts (before ++ [.file run e]))
        (lastRun (before ++ [.file run e])) b := by
  by_cases hnil : partsOf (before ++ [.file run e]) = []
  · rw [hnil] at hs
    exact .inl ⟨hnil, (Option.some.inj hs).symm⟩
  · obtain ⟨b, hstore, hb⟩ := holds_records junk hcan (fits_of_storeRun hcan hs) hnil
    exact .inr ⟨b, Option.some.inj (hs.symm.trans hstore), hb⟩

/-- A file that stays found is compared by its name. -/
theorem opens_of_staysFound (hcan : ∀ r ∈ before ++ [.file run e], Canonical r)
    (hs : storeRun junk (partsOf (before ++ [.file run e])) none = some s)
    (hstays : StaysFound (firstParts (before ++ [.file run e])) before run e) {key : List UInt8}
    (hkey : ∀ c ∈ key, c ≠ 0) :
    opens s e (cstring key) = true ↔ sameName (Record.name run e) key := by
  have hlast := lastRun_concat before (.file run e)
  unfold StaysFound at hstays
  by_cases hrun : run = []
  · -- no file in front has a long name
    rw [if_pos hrun] at hstays
    have hnil : partsOf (before ++ [.file run e]) = [] := by
      apply partsOf_eq_nil.mpr
      intro r hr
      rcases List.mem_append.mp hr with hr | hr
      · have hnone := hstays.1 r hr
        cases r with
        | deleted e => rfl
        | file run' e' => exact hnone
      · rw [List.mem_singleton.mp hr]
        exact hrun
    rw [hnil] at hs
    rw [← Option.some.inj hs]
    obtain ⟨hlen, hne⟩ := oldName_spec e
    have hsame : sameName (oldName e) (Record.name run e) := hstays.2
    unfold sameName at hsame ⊢
    rw [← hsame]
    exact strcmpnc_iff (isString_cstring hne) hkey (by omega)
  · rw [if_neg hrun, name_of_ne_nil hrun] at hstays
    have hlast' : lastRun (before ++ [.file run e]) = run := hlast.trans (if_neg hrun)
    rcases state_at_file hcan hs with ⟨hnil, -⟩ | ⟨b, rfl, hb⟩
    · rw [partsOf_concat] at hnil
      exact absurd (List.append_eq_nil_iff.mp hnil).2 hrun
    · rw [hlast'] at hb
      have hsize := hb.size
      have hle := hb.le
      have hlen := (List.takeWhile_prefix (l := runText run) (p := (· ≠ 0))).length_le
      rw [length_runText] at hlen
      rw [name_of_ne_nil hrun]
      exact strcmpnc_iff (hb.isString hstays) hkey (by omega)

/-- A file that is found by its name, and not as a file in front of it, stays found. -/
theorem staysFound_of_opens (hcan : ∀ r ∈ before ++ [.file run e], Canonical r)
    (hs : storeRun junk (partsOf (before ++ [.file run e])) none = some s)
    (hstring : ∀ c ∈ Record.name run e, c ≠ 0)
    (hother : ∀ run' e', Record.file run' e' ∈ before → ¬sameName (Record.name run' e') (Record.name run e))
    (hopens : opens s e (cstring (Record.name run e)) = true) :
    StaysFound (firstParts (before ++ [.file run e])) before run e := by
  have hlast := lastRun_concat before (.file run e)
  unfold StaysFound
  by_cases hrun : run = []
  · rw [if_pos hrun]
    rcases state_at_file hcan hs with ⟨hnil, rfl⟩ | ⟨b, rfl, hb⟩
    · rw [partsOf_eq_nil] at hnil
      obtain ⟨hlen, hne⟩ := oldName_spec e
      refine ⟨fun r hr => ?_, ?_⟩
      · have hnone := hnil r (List.mem_append_left _ hr)
        cases r with
        | deleted e => trivial
        | file run' e' => exact hnone
      · exact (strcmpnc_iff (isString_cstring hne) hstring (by omega)).mp hopens
    · -- the name would be the long name of a file in front
      exfalso
      have hlast' : lastRun (before ++ [.file run e]) = lastRun before := hlast.trans (if_pos hrun)
      rw [hlast'] at hb
      have hne : partsOf before ≠ [] := by
        intro hnil
        rw [partsOf_concat, hnil] at hs
        change storeRun junk run none = _ at hs
        rw [hrun] at hs
        exact nomatch hs
      obtain ⟨hlong, r, hr, heq⟩ := lastRun_mem hne
      have hpos := List.length_pos_iff.mpr hlong
      have hshort : (Record.name run e).length ≤ 12 := by
        rw [hrun]
        exact length_name_nil e
      obtain ⟨hstop, -⟩ := strcmpnc_true hstring (Nat.zero_le _) hopens
      rw [hb.front _ (by omega)] at hstop
      have hends : ((runText (lastRun before)).takeWhile (· ≠ 0)).length < 13 * (lastRun before).length := by
        by_contra hge
        exact (takeWhile_getD (by omega)).2 hstop
      cases r with
      | deleted e => exact absurd heq.symm hlong
      | file run' e' =>
        have heq' : run' = lastRun before := heq
        apply hother run' e' hr
        rw [name_of_ne_nil (heq' ▸ hlong), heq']
        have hsize := hb.size
        have hle := hb.le
        exact (strcmpnc_iff (hb.isString (.inl hends)) hstring (by omega)).mp hopens
  · rw [if_neg hrun]
    have hlast' : lastRun (before ++ [.file run e]) = run := hlast.trans (if_neg hrun)
    rcases state_at_file hcan hs with ⟨hnil, -⟩ | ⟨b, rfl, hb⟩
    · rw [partsOf_concat] at hnil
      exact absurd (List.append_eq_nil_iff.mp hnil).2 hrun
    · rw [hlast'] at hb
      obtain ⟨hstop, -⟩ := strcmpnc_true hstring (Nat.zero_le _) hopens
      have hlen := (List.takeWhile_prefix (l := runText run) (p := (· ≠ 0))).length_le
      rw [length_runText, ← name_of_ne_nil hrun e] at hlen
      have hle := hb.le
      by_contra hnot
      have hfull : (Record.name run e).length = 13 * run.length := by omega
      rw [hfull] at hstop
      exact hb.starts run.length (by omega) hstop

end Opens

/-! ## The scan of a directory with a deleted entry -/

/-- The loop of `fat32_open` over records, without the 8.3 entry of this number. -/
def scan (junk key : Mem) (gone : ℕ) : ℕ → List Record → Option NameBuffer → Option (Option ℕ)
  | _, [], _ => some none
  | i, .deleted _ :: rs, lfnName => scan junk key gone (i + 1) rs lfnName
  | i, .file run e :: rs, lfnName =>
    (storeRun junk run lfnName).bind fun s =>
      if i + run.length ≠ gone ∧ opens s e key = true then some (some (i + run.length))
      else scan junk key gone (i + run.length + 1) rs s

section Scan
variable {m junk key : Mem} {gone i : ℕ} {records : List Record} {s : Option NameBuffer}

theorem le_of_mem_filesFrom {f : ℕ × Listed} (h : f ∈ filesFrom i records) : i ≤ f.1 := by
  induction records generalizing i with
  | nil => exact nomatch h
  | cons r rs ih =>
    cases r with
    | deleted e =>
      have := ih h
      omega
    | file run e =>
      rcases List.mem_cons.mp h with rfl | h
      · exact Nat.le_add_right _ _
      · have := ih h
        omega

theorem lfnChar_congr {e e' : Mem} (h : ∀ b < 32, e b = e' b) {k : ℕ} (hk : k < 13) :
    lfnChar e k = lfnChar e' k := by
  unfold lfnChar
  split_ifs
  · exact h _ (by omega)
  · exact h _ (by omega)
  · exact h _ (by omega)

theorem lfnNbr_congr {e e' : Mem} (h : ∀ b < 32, e b = e' b) : lfnNbr e = lfnNbr e' := by
  unfold lfnNbr
  rw [h 0 (by omega)]

/-- The same bytes are stored as the same part. -/
theorem storeLfn_congr {e e' : Mem} (h : ∀ b < 32, e b = e' b) (b : NameBuffer) :
    storeLfn b e = storeLfn b e' := by
  unfold storeLfn
  rw [lfnNbr_congr h]
  dsimp only
  congr 3
  funext k
  split
  · rename_i hk
    exact lfnChar_congr h (by omega)
  · rfl

theorem newBuffer_congr {e e' : Mem} (h : ∀ b < 32, e b = e' b) (junk : Mem) :
    newBuffer junk e = newBuffer junk e' := by
  unfold newBuffer
  rw [lfnNbr_congr h]

/-- The entries of other numbers are as before. -/
theorem window_of_ne {k b : ℕ} (hk : k ≠ gone) (hb : b < 32) :
    window (Function.update m (32 * gone) deletedMark) (32 * k) b = window m (32 * k) b := by
  unfold window
  exact Function.update_of_ne (by omega) _ _

/-- The parts of a long name are put into memory. -/
theorem openFrom_run {run : List Mem}
    (hparts : ∀ part ∈ run, part 0 ≠ 0 ∧ part 0 ≠ deletedMark ∧ attributes part = attrLfn)
    (hstored : StoredAt m i run) (hgone : gone < i ∨ i + run.length ≤ gone) (fuel : ℕ) :
    openFrom (Function.update m (32 * gone) deletedMark) key junk (run.length + fuel) i s =
      (storeRun junk run s).bind fun s' =>
        openFrom (Function.update m (32 * gone) deletedMark) key junk fuel (i + run.length) s' := by
  induction run generalizing i s with
  | nil => rw [List.length_nil, Nat.zero_add, Nat.add_zero, storeRun, Option.bind_some]
  | cons e es ih =>
    rw [List.length_cons] at hgone
    have happend : StoredAt m i ([e] ++ es) := hstored
    obtain ⟨hhead, htail⟩ := happend.append
    have hsame : ∀ b < 32,
        window (Function.update m (32 * gone) deletedMark) (32 * i) b = e b := by
      intro b hb
      rw [window_of_ne (by omega) hb]
      exact hhead 0 Nat.one_pos b hb
    obtain ⟨hzero, hdeleted, hattr⟩ := hparts e List.mem_cons_self
    have hattr' : attributes (window (Function.update m (32 * gone) deletedMark) (32 * i)) = attrLfn :=
      (hsame 11 (by omega)).trans hattr
    rw [List.length_cons, show es.length + 1 + fuel = es.length + fuel + 1 by omega, openFrom.eq_def,
      storeRun, Option.bind_assoc]
    dsimp only
    rw [if_neg (hsame 0 (by omega) ▸ hzero), if_neg (hsame 0 (by omega) ▸ hdeleted),
      if_pos hattr', newBuffer_congr hsame, storeLfn_congr hsame]
    cases storeLfn (s.getD (newBuffer junk e)) e with
    | none => rfl
    | some b =>
      dsimp only
      have hrest := ih (i := i + 1) (s := some b)
        (fun part hpart => hparts part (List.mem_cons_of_mem _ hpart)) htail (by omega)
      rw [Option.bind_some, hrest]
      simp only [Nat.add_assoc, Nat.add_comm 1]

theorem parts_of_valid {run : List Mem} {e : Mem} (hvalid : (Record.file run e).Valid) :
    ∀ part ∈ run, part 0 ≠ 0 ∧ part 0 ≠ deletedMark ∧ attributes part = attrLfn := by
  intro part hpart
  obtain ⟨k, hk, rfl⟩ := List.getElem_of_mem hpart
  have hback : run.length - (run.length - (k + 1) + 1) = k := by omega
  have hget : run[run.length - (run.length - (k + 1) + 1)] = run[k] := getElem_congr_idx hback
  exact (hvalid.part (n := run.length - (k + 1)) (by omega) (by omega) fun b _ => by rw [hget]).2

/-- The loop of `fat32_open` is the scan of the records, if the directory ends behind them. -/
theorem openFrom_eq_scan (hvalid : ∀ r ∈ records, r.Valid)
    (hstored : StoredAt m i (records.flatMap Record.entries))
    (hgone : gone < i ∨ ∃ f ∈ filesFrom i records, f.1 = gone) {fuel : ℕ}
    (hend : fuel = 0 ∨ m (32 * (i + (records.flatMap Record.entries).length)) = 0) :
    openFrom (Function.update m (32 * gone) deletedMark) key junk
        ((records.flatMap Record.entries).length + fuel) i s =
      scan junk key gone i records s := by
  induction records generalizing i s with
  | nil =>
    have hlt : gone < i := hgone.resolve_right fun ⟨_, hf, _⟩ => nomatch hf
    rw [List.flatMap_nil, List.length_nil, Nat.zero_add, scan]
    cases fuel with
    | zero => rw [openFrom]
    | succ fuel =>
      have hzero : window (Function.update m (32 * gone) deletedMark) (32 * i) 0 = 0 := by
        rw [window_of_ne (by omega) (by omega)]
        exact hend.resolve_left (Nat.succ_ne_zero fuel)
      rw [openFrom.eq_def]
      dsimp only
      rw [if_pos hzero]
  | cons r rs ih =>
    rw [List.flatMap_cons] at hstored hend ⊢
    obtain ⟨hr, hrs⟩ := hstored.append
    have hvalid' : ∀ r' ∈ rs, r'.Valid := fun r' hr' => hvalid r' (List.mem_cons_of_mem _ hr')
    rw [List.length_append, ← Nat.add_assoc] at hend
    rw [List.length_append, Nat.add_assoc]
    have hr' := hvalid r List.mem_cons_self
    cases r with
    | deleted e =>
      have hgone' : gone < i + 1 ∨ ∃ f ∈ filesFrom (i + 1) rs, f.1 = gone := by
        rcases hgone with hlt | hfile
        · exact .inl (Nat.lt_succ_of_lt hlt)
        · exact .inr hfile
      have hne : i ≠ gone := by
        rcases hgone with hlt | ⟨f, hf, rfl⟩
        · exact hlt.ne'
        · have hle : i + 1 ≤ f.1 := le_of_mem_filesFrom (show f ∈ filesFrom (i + 1) rs from hf)
          exact Nat.ne_of_lt hle
      have hfirst : window (Function.update m (32 * gone) deletedMark) (32 * i) 0 = deletedMark := by
        rw [window_of_ne hne (by omega)]
        exact (hr 0 Nat.one_pos 0 (by omega)).trans hr'
      change openFrom _ key junk (1 + _) i s = _
      rw [Nat.add_comm 1, openFrom.eq_def, scan]
      dsimp only
      rw [hfirst, if_neg (by decide), if_pos rfl]
      exact ih hvalid' hrs hgone' hend
    | file run e =>
      obtain ⟨hrun, he⟩ := hr.append
      have hlen : (Record.file run e).entries.length = run.length + 1 := List.length_append
      rw [hlen] at hrs hend ⊢
      have hgone' : gone < i ∨ i + run.length ≤ gone := by
        rcases hgone with hlt | ⟨f, hf, rfl⟩
        · exact .inl hlt
        · rcases List.mem_cons.mp hf with rfl | hf
          · exact .inr le_rfl
          · have := le_of_mem_filesFrom hf
            exact .inr (by omega)
      have hnext : gone < i + (run.length + 1) ∨
          ∃ f ∈ filesFrom (i + (run.length + 1)) rs, f.1 = gone := by
        rcases hgone with hlt | ⟨f, hf, rfl⟩
        · exact .inl (by omega)
        · rcases List.mem_cons.mp hf with rfl | hf
          · exact .inl (Nat.lt_succ_self _)
          · exact .inr ⟨f, hf, rfl⟩
      rw [Nat.add_assoc, openFrom_run (parts_of_valid hr') hrun hgone', scan]
      cases storeRun junk run s with
      | none => rfl
      | some s' =>
        rw [Option.bind_some, Option.bind_some, Nat.add_comm 1, openFrom.eq_def]
        dsimp only
        by_cases hhere : i + run.length = gone
        · -- the entry that has been deleted
          have hfirst : window (Function.update m (32 * gone) deletedMark)
              (32 * (i + run.length)) 0 = deletedMark := by
            rw [hhere]
            exact Function.update_self _ _ _
          rw [hfirst, if_neg (by decide), if_pos rfl, if_neg fun h => h.1 hhere]
          exact ih hvalid' hrs hnext hend
        · have hsame : ∀ b < 32, window (Function.update m (32 * gone) deletedMark)
              (32 * (i + run.length)) b = e b := by
            intro b hb
            rw [window_of_ne hhere hb]
            exact he 0 Nat.one_pos b hb
          obtain ⟨hzero, hdeleted, -, hattr⟩ := hr'.1
          have hattr' : attributes (window (Function.update m (32 * gone) deletedMark)
              (32 * (i + run.length))) ≠ attrLfn := by
            unfold attributes
            rw [hsame 11 (by omega)]
            exact hattr
          rw [if_neg (hsame 0 (by omega) ▸ hzero), if_neg (hsame 0 (by omega) ▸ hdeleted),
            if_neg hattr', oldName_congr hsame]
          have hrest := ih (s := s') hvalid' hrs hnext hend
          rw [← Nat.add_assoc] at hrest
          rw [hrest]
          cases s' <;> simp [hhere, opens]

theorem entryCount_append (rs rs' : List Record) :
    entryCount (rs ++ rs') = entryCount rs + entryCount rs' := by
  simp [entryCount]

theorem entryCount_file (run : List Mem) (e : Mem) (rs : List Record) :
    entryCount (.file run e :: rs) = run.length + 1 + entryCount rs := by
  have hlen : (Record.file run e).entries.length = run.length + 1 := List.length_append
  unfold entryCount
  rw [List.flatMap_cons, List.length_append, hlen]

theorem entryCount_deleted (e : Mem) (rs : List Record) :
    entryCount (.deleted e :: rs) = 1 + entryCount rs := by
  unfold entryCount
  rw [List.flatMap_cons, List.length_append]
  rfl

/-- The files are the records that are not deleted. -/
theorem mem_filesFrom_iff {f : ℕ × Listed} : f ∈ filesFrom i records ↔
    ∃ before run e after, records = before ++ .file run e :: after ∧
      f = (i + entryCount before + run.length, ⟨Record.name run e, firstCluster e⟩) := by
  induction records generalizing i with
  | nil => simp [filesFrom]
  | cons r rs ih =>
    constructor
    · intro h
      cases r with
      | deleted e =>
        obtain ⟨before, run, e', after, rfl, rfl⟩ := ih.mp h
        refine ⟨.deleted e :: before, run, e', after, rfl, ?_⟩
        rw [entryCount_deleted, Nat.add_assoc i]
      | file run e =>
        rcases List.mem_cons.mp h with rfl | h
        · exact ⟨[], run, e, rs, rfl, rfl⟩
        · obtain ⟨before, run', e', after, rfl, rfl⟩ := ih.mp h
          refine ⟨.file run e :: before, run', e', after, rfl, ?_⟩
          rw [entryCount_file, Nat.add_assoc i, Nat.add_assoc i]
    · intro ⟨before, run, e, after, heq, hf⟩
      cases before with
      | nil =>
        rw [List.nil_append] at heq
        rw [heq, hf]
        exact List.mem_cons_self
      | cons r' before =>
        obtain ⟨rfl, rfl⟩ := List.cons.inj heq
        cases r with
        | deleted e' =>
          refine ih.mpr ⟨before, run, e, after, rfl, ?_⟩
          rw [hf, entryCount_deleted, ← Nat.add_assoc i]
        | file run' e' =>
          refine List.mem_cons_of_mem _ (ih.mpr ⟨before, run, e, after, rfl, ?_⟩)
          rw [hf, entryCount_file, ← Nat.add_assoc i, ← Nat.add_assoc i]

/-- A scan to the end has stored all long names. -/
theorem storeRun_of_scan (h : scan junk key gone i records s = some none) :
    ∃ s', storeRun junk (partsOf records) s = some s' := by
  induction records generalizing i s with
  | nil => exact ⟨s, rfl⟩
  | cons r rs ih =>
    cases r with
    | deleted e => exact ih h
    | file run e =>
      rw [scan, Option.bind_eq_some_iff] at h
      obtain ⟨s₁, hrun, hrest⟩ := h
      split at hrest
      · exact nomatch hrest
      · obtain ⟨s', hs'⟩ := ih hrest
        refine ⟨s', ?_⟩
        change storeRun junk (run ++ partsOf rs) s = some s'
        rw [storeRun_append, hrun]
        exact hs'

/-- The file that is found is compared behind the long names in front of it. -/
theorem scan_found {k : ℕ} (h : scan junk key gone i records s = some (some k)) :
    ∃ before run e after s', records = before ++ .file run e :: after ∧
      k = i + entryCount before + run.length ∧ k ≠ gone ∧
      storeRun junk (partsOf (before ++ [.file run e])) s = some s' ∧ opens s' e key = true := by
  induction records generalizing i s with
  | nil => exact nomatch h
  | cons r rs ih =>
    cases r with
    | deleted e =>
      obtain ⟨before, run, e', after, s', rfl, hk, hrest⟩ := ih h
      refine ⟨.deleted e :: before, run, e', after, s', rfl, ?_, hrest⟩
      rw [hk, entryCount_deleted, Nat.add_assoc i]
    | file run e =>
      rw [scan, Option.bind_eq_some_iff] at h
      obtain ⟨s₁, hrun, hrest⟩ := h
      split at hrest
      · rename_i hfound
        cases hrest
        refine ⟨[], run, e, rs, s₁, rfl, rfl, hfound.1, ?_, hfound.2⟩
        simpa [partsOf, Record.run] using hrun
      · obtain ⟨before, run', e', after, s', rfl, hk, hne, hstore, hopens⟩ := ih hrest
        refine ⟨.file run e :: before, run', e', after, s', rfl, ?_, hne, ?_, hopens⟩
        · rw [hk, entryCount_file, Nat.add_assoc i, Nat.add_assoc i]
        · change storeRun junk (run ++ partsOf (before ++ [.file run' e'])) s = some s'
          rw [storeRun_append, hrun]
          exact hstore

/-- Files with other names are passed over. -/
theorem scan_pass {before rest : List Record} {s' : Option NameBuffer}
    (hstore : storeRun junk (partsOf before) s = some s')
    (hno : ∀ before₁ run e after₁ s₁, before = before₁ ++ .file run e :: after₁ →
      i + entryCount before₁ + run.length ≠ gone →
      storeRun junk (partsOf (before₁ ++ [.file run e])) s = some s₁ → ¬opens s₁ e key = true) :
    scan junk key gone i (before ++ rest) s = scan junk key gone (i + entryCount before) rest s' := by
  induction before generalizing i s with
  | nil =>
    rw [← Option.some.inj hstore]
    rfl
  | cons r rs ih =>
    cases r with
    | deleted e =>
      rw [entryCount_deleted, ← Nat.add_assoc]
      refine ih hstore fun before₁ run e' after₁ s₁ heq hne hs₁ => ?_
      refine hno (.deleted e :: before₁) run e' after₁ s₁ (by rw [heq]; rfl) ?_ hs₁
      rwa [entryCount_deleted, ← Nat.add_assoc]
    | file run e =>
      change storeRun junk (run ++ partsOf rs) s = some s' at hstore
      rw [storeRun_append, Option.bind_eq_some_iff] at hstore
      obtain ⟨s₁, hrun, hrest⟩ := hstore
      rw [List.cons_append, scan, hrun, Option.bind_some, if_neg, entryCount_file,
        ← Nat.add_assoc, ← Nat.add_assoc]
      · refine ih hrest fun before₁ run' e' after₁ s₂ heq hne hs₂ => ?_
        refine hno (.file run e :: before₁) run' e' after₁ s₂ (by rw [heq]; rfl) ?_ ?_
        · rwa [entryCount_file, ← Nat.add_assoc, ← Nat.add_assoc]
        · change storeRun junk (run ++ partsOf (before₁ ++ [.file run' e'])) s = some s₂
          rw [storeRun_append, hrun]
          exact hs₂
      · intro hfound
        refine hno [] run e rs s₁ rfl hfound.1 ?_ hfound.2
        simpa [partsOf, Record.run] using hrun

end Scan

/-! ## Which entry is deleted -/

/-- The first file with a long name and this first cluster. -/
def findRecord (cluster : ℕ) : ℕ → List Record → Option ℕ
  | _, [] => none
  | i, .deleted _ :: rs => findRecord cluster (i + 1) rs
  | i, .file run e :: rs =>
    if run ≠ [] ∧ firstCluster e = cluster then some (i + run.length)
    else findRecord cluster (i + run.length + 1) rs

section Find
variable {cs : ℕ} {clusters : List Mem} {m : Mem} (junk : Mem) (cluster : ℕ) {i : ℕ}
  {records : List Record}

theorem findDirent_eq (hvalid : ∀ r ∈ records, r.Valid)
    (hstored : StoredAt m i (records.flatMap Record.entries)) {fuel : ℕ}
    (hend : fuel = 0 ∨ m (32 * (i + (records.flatMap Record.entries).length)) = 0) :
    findDirent m junk cluster ((records.flatMap Record.entries).length + fuel) i none =
      some (findRecord cluster i records) := by
  induction records generalizing i with
  | nil =>
    rw [List.flatMap_nil, List.length_nil, Nat.zero_add]
    cases fuel with
    | zero => rfl
    | succ fuel =>
      rw [findDirent]
      exact if_pos (hend.resolve_left (Nat.succ_ne_zero fuel))
  | cons r rs ih =>
    rw [List.flatMap_cons] at hstored hend ⊢
    obtain ⟨hr, hrs⟩ := hstored.append
    have hvalid' : ∀ r' ∈ rs, r'.Valid := fun r' hr' => hvalid r' (List.mem_cons_of_mem _ hr')
    have hr' := hvalid r List.mem_cons_self
    rw [List.length_append, ← Nat.add_assoc] at hend
    rw [List.length_append, Nat.add_assoc]
    cases r with
    | deleted e =>
      have hfirst : window m (32 * i) 0 = deletedMark := (hr 0 Nat.one_pos 0 (by omega)).trans hr'
      change findDirent m junk cluster (1 + _) i none = _
      rw [Nat.add_comm 1, findDirent]
      rw [hfirst, if_neg (by decide), if_pos rfl]
      exact ih hvalid' hrs hend
    | file run e =>
      have hlen : (Record.file run e).entries.length = run.length + 1 := List.length_append
      rw [hlen] at hrs hend ⊢
      rw [findDirent_file junk cluster hr' hr, ih hvalid' hrs hend, findRecord]
      split <;> rfl

theorem content_writeBack (hone : clusters.length = 1) {k : ℕ} (hk : k < cs) :
    content cs (writeBack cs m clusters) k = m k := by
  obtain ⟨c, rfl⟩ := List.length_eq_one_iff.mp hone
  unfold content
  rw [Nat.div_eq_of_lt hk, Nat.mod_eq_of_lt hk]
  change m (0 * (32 * cs) + k) = m k
  rw [Nat.zero_mul, Nat.zero_add]

/-- What `fat32fs_delete_dirent` does in a directory of one cluster. -/
theorem IsDirectory.deleteDirent (h : IsDirectory cs clusters records) (hone : clusters.length = 1) :
    ∃ m, (∀ k < cs, m k = content cs clusters k) ∧
      Fat32.deleteDirent cs clusters junk cluster = match findRecord cluster 0 records with
        | none => some (.fileNotFound, clusters)
        | some i => some (.none, writeBack cs (Function.update m (32 * i) deletedMark) clusters) := by
  obtain ⟨m, hread, hm⟩ := readDirents_single cs hone junk
  have hfits := h.fits
  have hended := h.ended
  rw [hone, Nat.one_mul] at hfits hended
  have hstored : StoredAt m 0 (records.flatMap Record.entries) := by
    intro k hk b hb
    rw [Nat.zero_add]
    exact (hm _ (by omega)).trans (h.stored k hk b hb)
  obtain ⟨fuel, hfuel⟩ := Nat.exists_eq_add_of_le
    (show (records.flatMap Record.entries).length ≤ cs / 32 by omega)
  have hend : fuel = 0 ∨ m (32 * (0 + (records.flatMap Record.entries).length)) = 0 := by
    by_cases hf : fuel = 0
    · exact .inl hf
    · right
      rw [Nat.zero_add, hm _ (by omega)]
      exact hended (by omega)
  refine ⟨m, hm, ?_⟩
  unfold Fat32.deleteDirent
  rw [hread, Option.bind_some, hone, Nat.one_mul, hfuel, findDirent_eq junk cluster h.valid hstored hend]
  cases findRecord cluster 0 records with
  | none => rfl
  | some i => rfl

/-- What `fat32_open` finds behind the deletion of an entry. -/
theorem IsDirectory.openDir_deleted (h : IsDirectory cs clusters records) (hone : clusters.length = 1)
    (hm : ∀ k < cs, m k = content cs clusters k) {gone : ℕ} (hgone : ∃ f ∈ filesFrom 0 records, f.1 = gone)
    (name : List UInt8) :
    openDir cs (writeBack cs (Function.update m (32 * gone) deletedMark) clusters) junk name =
      scan junk (cstring name) gone 0 records none := by
  have hone' : (writeBack cs (Function.update m (32 * gone) deletedMark) clusters).length = 1 := by
    unfold writeBack
    rw [List.length_mapIdx, hone]
  obtain ⟨m', hread, hm'⟩ := readDirents_single cs hone' junk
  have hfits := h.fits
  have hended := h.ended
  rw [hone, Nat.one_mul] at hfits hended
  have hstored : StoredAt (fun k => if k < cs then m k else m' k) 0
      (records.flatMap Record.entries) := by
    intro k hk b hb
    rw [Nat.zero_add]
    exact (if_pos (by omega)).trans ((hm _ (by omega)).trans (h.stored k hk b hb))
  obtain ⟨f, hf, rfl⟩ := hgone
  have hlt : f.1 < (records.flatMap Record.entries).length := by
    obtain ⟨before, run, e, after, rfl, rfl⟩ := mem_filesFrom_iff.mp hf
    change 0 + entryCount before + run.length < entryCount _
    rw [entryCount_append, entryCount_file]
    omega
  have hbytes : m' = Function.update (fun k => if k < cs then m k else m' k) (32 * f.1) deletedMark := by
    funext k
    by_cases hk : k < cs
    · rw [hm' k hk, content_writeBack hone hk]
      simp [Function.update_apply, hk]
    · rw [Function.update_of_ne (by omega), if_neg hk]
  obtain ⟨fuel, hfuel⟩ := Nat.exists_eq_add_of_le
    (show (records.flatMap Record.entries).length ≤ cs / 32 by omega)
  have hend : fuel = 0 ∨ (if 32 * (0 + (records.flatMap Record.entries).length) < cs then
      m (32 * (0 + (records.flatMap Record.entries).length))
      else m' (32 * (0 + (records.flatMap Record.entries).length))) = 0 := by
    by_cases hf0 : fuel = 0
    · exact .inl hf0
    · right
      rw [Nat.zero_add, if_pos (by omega), hm _ (by omega)]
      exact hended (by omega)
  unfold openDir
  rw [hread, Option.bind_some, hone', Nat.one_mul, hfuel, hbytes]
  exact openFrom_eq_scan h.valid hstored (.inr ⟨f, hf, rfl⟩) hend

end Find

/-! ## When deletion is right -/

section Deletable
variable {cs : ℕ} {clusters : List Mem} {before after : List Record} {run : List Mem} {e : Mem}

theorem canonical_of_wellNamed {records : List Record} (hvalid : ∀ r ∈ records, r.Valid)
    (hnamed : WellNamed records) {r : Record} (hr : r ∈ records) : Canonical r := by
  cases r with
  | deleted e => exact ⟨fun k hk => absurd hk (Nat.not_lt_zero k), fun hne => absurd rfl hne⟩
  | file run e =>
    constructor
    · intro k hk
      have hk' : k < run.length := hk
      have hback : run.length - (run.length - (k + 1) + 1) = k := by omega
      have hget : run[run.length - (run.length - (k + 1) + 1)] = run[k] := getElem_congr_idx hback
      have hsame : ∀ b < 32, run[k] b = run[run.length - (run.length - (k + 1) + 1)] b := by
        intro b _
        rw [hget]
      obtain ⟨hnbr, -⟩ := (hvalid _ hr).part (n := run.length - (k + 1)) (by omega) (by omega) hsame
      change lfnNbr run[k] = run.length - k
      omega
    · intro hne
      have hparts := hnamed.parts run e hr hne
      rwa [name_of_ne_nil (show run ≠ [] from hne)] at hparts

/-- The number of its 8.3 entry says which file it is. -/
theorem split_unique {before₁ after₁ before₂ after₂ : List Record} {run₁ run₂ : List Mem} {e₁ e₂ : Mem}
    (heq : before₁ ++ .file run₁ e₁ :: after₁ = before₂ ++ .file run₂ e₂ :: after₂)
    (hpos : entryCount before₁ + run₁.length = entryCount before₂ + run₂.length) :
    before₁ = before₂ := by
  rcases List.append_eq_append_iff.mp heq with ⟨x, rfl, hx⟩ | ⟨x, rfl, hx⟩
  · cases x with
    | nil => exact (List.append_nil _).symm
    | cons r x =>
      obtain ⟨rfl, -⟩ := List.cons.inj hx
      rw [entryCount_append, entryCount_file] at hpos
      omega
  · cases x with
    | nil => exact List.append_nil _
    | cons r x =>
      obtain ⟨rfl, -⟩ := List.cons.inj hx
      rw [entryCount_append, entryCount_file] at hpos
      omega

/-- Two files of the directory have different first clusters and names. -/
theorem WellNamed.ne {records : List Record} (h : WellNamed records) {f g : ℕ × Listed}
    (hf : f ∈ filesFrom 0 records) (hg : g ∈ filesFrom 0 records) (hne : f.1 ≠ g.1) :
    f.2.inode ≠ g.2.inode ∧ ¬sameName f.2.name g.2.name := by
  have hsymm : Std.Symm fun f g : ℕ × Listed =>
      f.2.inode ≠ g.2.inode ∧ ¬sameName f.2.name g.2.name := by
    constructor
    intro f g hfg
    exact ⟨hfg.1.symm, fun hsame => hfg.2 hsame.symm⟩
  exact h.distinct.forall hf hg fun heq => hne (congrArg Prod.fst heq)

/-- In a directory whose files have different first clusters, the entry that is found is that of
the file, if it has a long name. -/
theorem findRecord_split {cluster i : ℕ}
    (hbefore : ∀ f ∈ filesFrom i before, f.2.inode ≠ cluster) (rs : List Record) :
    findRecord cluster i (before ++ rs) = findRecord cluster (i + entryCount before) rs := by
  induction before generalizing i with
  | nil => rfl
  | cons r before ih =>
    cases r with
    | deleted e =>
      rw [entryCount_deleted, ← Nat.add_assoc]
      exact ih hbefore
    | file run e =>
      have hne : firstCluster e ≠ cluster := hbefore _ List.mem_cons_self
      rw [List.cons_append, findRecord, if_neg fun h => hne h.2, entryCount_file, ← Nat.add_assoc,
        ← Nat.add_assoc]
      exact ih fun f hf => hbefore f (List.mem_cons_of_mem _ hf)

theorem findRecord_of_ne {cluster i : ℕ} {records : List Record}
    (h : ∀ f ∈ filesFrom i records, f.2.inode ≠ cluster) : findRecord cluster i records = none := by
  have hsplit := findRecord_split h []
  rw [List.append_nil] at hsplit
  exact hsplit

theorem exists_storeRun {records : List Record} (junk : Mem) (hcan : ∀ r ∈ records, Canonical r)
    (hfits : Fits records) : ∃ s, storeRun junk (partsOf records) none = some s := by
  by_cases hnil : partsOf records = []
  · rw [hnil]
    exact ⟨none, rfl⟩
  · obtain ⟨b, hb, -⟩ := holds_records junk hcan hfits hnil
    exact ⟨some b, hb⟩

theorem staysFound_append {before' after' : List Record} {run' : List Mem} {e' : Mem} :
    StaysFound (firstParts (before' ++ .file run' e' :: after')) before' run' e' ↔
      StaysFound (firstParts (before' ++ [.file run' e'])) before' run' e' := by
  unfold StaysFound
  by_cases hrun : run' = []
  · rw [if_pos hrun, if_pos hrun]
  · have hne : (Record.file run' e').run ≠ [] := hrun
    simp only [firstParts_append, firstParts_cons, if_neg hne]

theorem mem_of_split {records : List Record}
    (heq : records = before ++ .file run e :: after) :
    (entryCount before + run.length, (⟨Record.name run e, firstCluster e⟩ : Listed)) ∈
      filesFrom 0 records :=
  mem_filesFrom_iff.mpr ⟨before, run, e, after, heq, by rw [Nat.zero_add]⟩

theorem mem_of_mem_concat {r : Record} (hr : r ∈ before ++ [.file run e]) :
    r ∈ before ++ .file run e :: after := by
  rcases List.mem_append.mp hr with hr | hr
  · exact List.mem_append_left _ hr
  · rw [List.mem_singleton.mp hr]
    exact List.mem_append_right _ List.mem_cons_self

/-- The entry that `fat32fs_delete_dirent` finds for the file. -/
theorem findRecord_file (hnamed : WellNamed (before ++ .file run e :: after)) :
    findRecord (firstCluster e) 0 (before ++ .file run e :: after) =
      if run = [] then none else some (entryCount before + run.length) := by
  have hother : ∀ f ∈ filesFrom 0 (before ++ .file run e :: after),
      f.1 ≠ entryCount before + run.length → f.2.inode ≠ firstCluster e :=
    fun f hf hne => (hnamed.ne hf (mem_of_split rfl) hne).1
  have hbefore : ∀ f ∈ filesFrom 0 before, f.2.inode ≠ firstCluster e := by
    intro f hf
    obtain ⟨before₁, run₁, e₁, after₁, rfl, rfl⟩ := mem_filesFrom_iff.mp hf
    refine hother _ (mem_filesFrom_iff.mpr ⟨before₁, run₁, e₁, after₁ ++ .file run e :: after, ?_, rfl⟩) ?_
    · rw [List.append_assoc]
      rfl
    · rw [entryCount_append, entryCount_file]
      dsimp only
      omega
  rw [findRecord_split hbefore, Nat.zero_add, findRecord]
  by_cases hrun : run = []
  · rw [if_neg fun h => h.1 hrun, if_pos hrun]
    apply findRecord_of_ne
    intro f hf
    have hle := le_of_mem_filesFrom hf
    obtain ⟨before₁, run₁, e₁, after₁, rfl, rfl⟩ := mem_filesFrom_iff.mp hf
    refine hother _ (mem_filesFrom_iff.mpr
      ⟨before ++ .file run e :: before₁, run₁, e₁, after₁, ?_, ?_⟩) (by omega)
    · rw [List.append_assoc]
      rfl
    · rw [entryCount_append, entryCount_file]
      congr 1
      omega
  · rw [if_pos ⟨hrun, rfl⟩, if_neg hrun]

/-- What deletion does and what is found behind it, in a directory of one cluster. -/
theorem deleteDirent_file (h : IsDirectory cs clusters (before ++ .file run e :: after))
    (hnamed : WellNamed (before ++ .file run e :: after)) (hone : clusters.length = 1) (junk : Mem) :
    if run = [] then deleteDirent cs clusters junk (firstCluster e) = some (.fileNotFound, clusters)
    else ∃ clusters', deleteDirent cs clusters junk (firstCluster e) = some (.none, clusters') ∧
      ∀ junk' name, openDir cs clusters' junk' name = scan junk' (cstring name)
        (entryCount before + run.length) 0 (before ++ .file run e :: after) none := by
  obtain ⟨m, hm, hresult⟩ := h.deleteDirent junk (firstCluster e) hone
  rw [findRecord_file hnamed] at hresult
  by_cases hrun : run = []
  · rw [if_pos hrun] at hresult ⊢
    exact hresult
  · rw [if_neg hrun] at hresult ⊢
    exact ⟨_, hresult, fun junk' => h.openDir_deleted junk' hone hm ⟨_, mem_of_split rfl, rfl⟩⟩

/-- If deletion removes the entry only, all others stay found. -/
theorem deletable_of_deletesOnly (h : IsDirectory cs clusters (before ++ .file run e :: after))
    (hnamed : WellNamed (before ++ .file run e :: after))
    (hdel : DeletesOnly cs clusters (before ++ .file run e :: after)
      (entryCount before + run.length, ⟨Record.name run e, firstCluster e⟩)) :
    Deletable clusters before run e after := by
  obtain ⟨sectors, hsectors, hcs⟩ := h.cluster_size
  have hcan : ∀ r ∈ before ++ .file run e :: after, Canonical r :=
    fun r hr => canonical_of_wellNamed h.valid hnamed hr
  obtain ⟨clusters', hdelete, hmiss, hopen⟩ := hdel (fun _ => 0) fun _ => 0
  dsimp only at hdelete hmiss hopen
  have hone : clusters.length = 1 := by
    unfold deleteDirent at hdelete
    obtain ⟨m, hm, -⟩ := Option.bind_eq_some_iff.mp hdelete
    exact length_of_readDirents (by omega) h.clusters_ne hm
  have hresult := deleteDirent_file h hnamed hone fun _ => 0
  rw [hdelete] at hresult
  have hrun : run ≠ [] := by
    intro hnil
    rw [if_pos hnil] at hresult
    exact nomatch hresult
  rw [if_neg hrun] at hresult
  obtain ⟨clusters'', heq, hscan⟩ := hresult
  obtain rfl := (Prod.mk.inj (Option.some.inj heq)).2
  obtain ⟨s, hs⟩ := storeRun_of_scan ((hscan (fun _ => 0) _).symm.trans hmiss)
  have hfits := fits_of_storeRun hcan hs
  refine ⟨hone, hrun, fun run' e' hr => hfits _ hr, ?_⟩
  intro before' run' e' after' heq hne
  have hpos : entryCount before' + run'.length ≠ entryCount before + run.length :=
    fun hpos => hne (split_unique heq hpos)
  have hmem' := mem_of_split heq.symm
  have hfound := hopen _ hmem' hpos
  rw [hscan] at hfound
  obtain ⟨before₁, run₁, e₁, after₁, s₁, heq₁, hk, -, hs₁, hopens⟩ := scan_found hfound
  dsimp only at hk hopens
  rw [Nat.zero_add] at hk
  obtain rfl := split_unique (heq.trans heq₁) hk
  obtain ⟨hrecord, rfl⟩ := List.cons.inj (List.append_cancel_left (heq.trans heq₁))
  obtain ⟨rfl, rfl⟩ := Record.file.inj hrecord
  rw [← heq, staysFound_append]
  refine staysFound_of_opens (fun r hr => hcan r (heq ▸ mem_of_mem_concat hr)) hs₁
    (hnamed.strings _ hmem') ?_ hopens
  intro run₂ e₂ hr
  obtain ⟨front, back, rfl⟩ := List.append_of_mem hr
  have hsplit : before ++ .file run e :: after =
      front ++ .file run₂ e₂ :: (back ++ .file run' e' :: after') := by
    rw [← heq, List.append_assoc]
    rfl
  refine (hnamed.ne (mem_of_split hsplit) hmem' ?_).2
  dsimp only
  rw [entryCount_append, entryCount_file]
  omega

/-- A file that stays found is found by its own name only. -/
theorem Deletable.opens_iff (hvalid : ∀ r ∈ before ++ .file run e :: after, r.Valid)
    (hnamed : WellNamed (before ++ .file run e :: after)) (hdel : Deletable clusters before run e after)
    {before₁ after₁ : List Record} {run₁ : List Mem} {e₁ junk : Mem} {s : Option NameBuffer}
    (heq : before ++ .file run e :: after = before₁ ++ .file run₁ e₁ :: after₁)
    (hpos : entryCount before₁ + run₁.length ≠ entryCount before + run.length)
    (hs : storeRun junk (partsOf (before₁ ++ [.file run₁ e₁])) none = some s) {f : ℕ × Listed}
    (hf : f ∈ filesFrom 0 (before ++ .file run e :: after)) :
    opens s e₁ (cstring f.2.name) = true ↔ f.1 = entryCount before₁ + run₁.length := by
  have hne : before₁ ≠ before := by
    intro hsame
    rw [hsame] at heq hpos
    obtain ⟨rfl, -⟩ := Record.file.inj (List.cons.inj (List.append_cancel_left heq)).1
    exact hpos rfl
  have hstays := hdel.others _ _ _ _ heq.symm hne
  rw [heq, staysFound_append] at hstays
  have hcan : ∀ r ∈ before₁ ++ [.file run₁ e₁], Canonical r :=
    fun r hr => canonical_of_wellNamed hvalid hnamed (heq ▸ mem_of_mem_concat hr)
  rw [opens_of_staysFound hcan hs hstays (hnamed.strings f hf)]
  constructor
  · intro hsame
    by_contra hother
    exact (hnamed.ne (mem_of_split heq) hf (Ne.symm hother)).2 hsame
  · intro hsame
    obtain ⟨before₂, run₂, e₂, after₂, heq₂, rfl⟩ := mem_filesFrom_iff.mp hf
    rw [Nat.zero_add] at hsame
    obtain rfl := split_unique (heq₂.symm.trans heq) hsame
    obtain ⟨rfl, rfl⟩ := Record.file.inj (List.cons.inj (List.append_cancel_left (heq₂.symm.trans heq))).1
    rfl

/-- Where the entry can be deleted, the others stay found. -/
theorem deletesOnly_of_deletable (h : IsDirectory cs clusters (before ++ .file run e :: after))
    (hnamed : WellNamed (before ++ .file run e :: after)) (hdel : Deletable clusters before run e after) :
    DeletesOnly cs clusters (before ++ .file run e :: after)
      (entryCount before + run.length, ⟨Record.name run e, firstCluster e⟩) := by
  intro junk junk'
  have hcan : ∀ r ∈ before ++ .file run e :: after, Canonical r :=
    fun r hr => canonical_of_wellNamed h.valid hnamed hr
  have hfits : Fits (before ++ .file run e :: after) := by
    intro r hr
    cases r with
    | deleted e => exact Nat.zero_le _
    | file run' e' => exact hdel.fits run' e' hr
  have hresult := deleteDirent_file h hnamed hdel.one junk
  rw [if_neg hdel.long] at hresult
  obtain ⟨clusters', hdelete, hscan⟩ := hresult
  refine ⟨clusters', hdelete, ?_, fun f hf hne => ?_⟩
  · -- no other file has the name
    obtain ⟨s, hs⟩ := exists_storeRun junk' hcan hfits
    have hpass := @scan_pass junk' (cstring (Record.name run e)) (entryCount before + run.length) 0 none
      _ [] s hs ?_
    · rw [List.append_nil] at hpass
      rw [hscan, hpass]
      rfl
    · intro before₁ run₁ e₁ after₁ s₁ heq hpos hs₁ hopens
      rw [Nat.zero_add] at hpos
      have hfound := (hdel.opens_iff h.valid hnamed heq hpos hs₁ (mem_of_split rfl)).mp hopens
      exact hpos hfound.symm
  · obtain ⟨before₂, run₂, e₂, after₂, heq₂, rfl⟩ := mem_filesFrom_iff.mp hf
    have hfits₂ := hfits
    rw [heq₂] at hfits₂
    obtain ⟨s, hs⟩ := exists_storeRun junk'
      (fun r hr => hcan r (heq₂ ▸ List.mem_append_left _ hr)) hfits₂.prefix
    have hfits₃ : Fits (before₂ ++ [.file run₂ e₂]) := by
      rw [List.append_cons] at hfits₂
      exact hfits₂.prefix
    obtain ⟨s', hs'⟩ := exists_storeRun junk'
      (fun r hr => hcan r (heq₂ ▸ mem_of_mem_concat hr)) hfits₃
    have hrun : storeRun junk' run₂ s = some s' := by
      rw [partsOf_concat, storeRun_append, hs] at hs'
      exact hs'
    dsimp only at hne
    rw [Nat.zero_add] at hne
    have hopens := (hdel.opens_iff h.valid hnamed heq₂ hne hs' hf).mpr (by rw [Nat.zero_add])
    have hpass := @scan_pass junk' (cstring (Record.name run₂ e₂)) (entryCount before + run.length) 0
      none _ (.file run₂ e₂ :: after₂) s hs ?_
    · rw [hscan, heq₂, hpass, scan, hrun, Option.bind_some, if_pos ⟨by rwa [Nat.zero_add], hopens⟩]
    · intro before₁ run₁ e₁ after₁ s₁ heq hpos hs₁ hfound
      rw [Nat.zero_add] at hpos
      have hsplit : before ++ .file run e :: after =
          before₁ ++ .file run₁ e₁ :: (after₁ ++ .file run₂ e₂ :: after₂) := by
        rw [heq₂, heq, List.append_assoc]
        rfl
      have hsame := (hdel.opens_iff h.valid hnamed hsplit hpos hs₁ hf).mp hfound
      dsimp only at hsame
      rw [heq, entryCount_append, entryCount_file] at hsame
      omega

/-- Deletion removes the entry only, exactly if the directory has one cluster, the file has a long
name, no long name has more parts than the first one, and all other files stay found. -/
theorem deletesOnly_iff (h : IsDirectory cs clusters (before ++ .file run e :: after))
    (hnamed : WellNamed (before ++ .file run e :: after)) :
    DeletesOnly cs clusters (before ++ .file run e :: after)
        (entryCount before + run.length, ⟨Record.name run e, firstCluster e⟩) ↔
      Deletable clusters before run e after :=
  ⟨deletable_of_deletesOnly h hnamed, deletesOnly_of_deletable h hnamed⟩

end Deletable

/-- The part of the long name `a`. -/
def letterPart : Mem := fun k => if k = 0 then 0x41 else if k = 1 then 0x61 else if k = 11 then attrLfn else 0

/-- A cluster with the file `a`, which has a long name. -/
def letterCluster : Mem := fun k => if k < 32 then letterPart k else singleEntry 0x41 (k - 32)

theorem isDirectory_letter :
    IsDirectory 512 [letterCluster] [.file [letterPart] (singleEntry 0x41)] := by
  have hcontent : ∀ k < 512, content 512 [letterCluster] k = letterCluster k := by
    intro k hk
    unfold content
    rw [Nat.div_eq_of_lt hk, Nat.mod_eq_of_lt hk]
    rfl
  refine ⟨⟨1, le_rfl, rfl⟩, List.cons_ne_nil _ _, fun r hr => ?_, by decide, fun i hi k hk => ?_,
    fun _ => hcontent 64 (by decide)⟩
  · rw [List.mem_singleton.mp hr]
    refine ⟨by decide, by decide, fun k hk => ?_⟩
    have hk0 : k = 0 := Nat.lt_one_iff.mp hk
    subst hk0
    exact ⟨rfl, rfl⟩
  · have hi2 : i = 0 ∨ i = 1 := by
      have : i < 2 := hi
      omega
    rcases hi2 with rfl | rfl
    · rw [hcontent _ (by omega)]
      refine (if_pos (by omega)).trans ?_
      rw [Nat.mul_zero, Nat.zero_add]
      rfl
    · rw [hcontent _ (by omega)]
      refine (if_neg (by omega)).trans ?_
      rw [Nat.mul_one, Nat.add_sub_cancel_left]
      rfl

/-- The only file of a directory with a long name can be deleted. -/
theorem deletesOnly_letter :
    DeletesOnly 512 [letterCluster] [.file [letterPart] (singleEntry 0x41)]
      (1, ⟨Record.name [letterPart] (singleEntry 0x41), firstCluster (singleEntry 0x41)⟩) := by
  refine (@deletesOnly_iff _ _ [] [] _ _ isDirectory_letter ?_).mpr ?_
  · refine ⟨List.pairwise_singleton _ _, fun f hf c hc => ?_, fun run e hr _ => ?_⟩
    · rw [List.mem_singleton.mp hf] at hc
      exact ne_zero_of_mem_takeWhile hc
    · obtain ⟨rfl, rfl⟩ := Record.file.inj (List.mem_singleton.mp hr)
      decide
  · refine ⟨rfl, List.cons_ne_nil _ _, fun run e hr => ?_, fun before run e after heq hne => ?_⟩
    · obtain ⟨rfl, rfl⟩ := Record.file.inj (List.mem_singleton.mp hr)
      exact le_rfl
    · -- there is no other file
      have hlen := congrArg List.length heq
      have hpos := List.length_pos_iff.mpr hne
      rw [List.length_append, List.length_cons] at hlen
      change before.length + (after.length + 1) = 1 at hlen
      omega

/-- The file `A`, which has no long name, is not found. -/
theorem not_deletesOnly_short_name :
    IsDirectory 512 [singleEntry 0x41] [.file [] (singleEntry 0x41)] ∧
      WellNamed [.file [] (singleEntry 0x41)] ∧
      (deleteDirent 512 [singleEntry 0x41] (fun _ => 0) 0).map Prod.fst = some .fileNotFound ∧
      ¬DeletesOnly 512 [singleEntry 0x41] [.file [] (singleEntry 0x41)]
        (0, ⟨Record.name [] (singleEntry 0x41), firstCluster (singleEntry 0x41)⟩) := by
  have hvalid : (Record.file [] (singleEntry 0x41)).Valid :=
    ⟨by decide, by decide, fun k hk => absurd hk (Nat.not_lt_zero k)⟩
  have hresult : (deleteDirent 512 [singleEntry 0x41] (fun _ => 0) 0).map Prod.fst =
      some .fileNotFound := by decide
  refine ⟨isDirectory_singleEntry rfl hvalid, ⟨List.pairwise_singleton _ _, ?_, ?_⟩, hresult, ?_⟩
  · intro f hf c hc
    have hname : Record.name [] (singleEntry 0x41) = [0x41] := by decide
    rw [List.mem_singleton.mp hf] at hc
    dsimp only at hc
    rw [hname, List.mem_singleton] at hc
    rw [hc]
    decide
  · intro run e hr hne
    obtain ⟨rfl, rfl⟩ := Record.file.inj (List.mem_singleton.mp hr)
    exact absurd rfl hne
  · intro hdel
    obtain ⟨clusters', hdelete, -⟩ := hdel (fun _ => 0) fun _ => 0
    have hcluster : firstCluster (singleEntry 0x41) = 0 := by decide
    rw [hcluster] at hdelete
    rw [hdelete] at hresult
    exact nomatch hresult

end VkKernel.Fat32
