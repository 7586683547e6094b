import VkKernel.Fat32Delete

/-!
# Renaming a FAT32 file

`fat32_rename` deletes the entry of the file and creates one with the new name, and one with the
old name if that fails. It hands its arguments to `fat32fs_create_dirent` in the wrong places, so
that both attempts are refused.
-/

namespace VkKernel.Fat32
open ByteMemory PackedStruct

/-- A node that has been opened. `fat32_dirent_normalize_cache` and `fat32fs_create_dirent` give it
a link, and no link is taken away. -/
structure Node where
  cluster : ℕ
  hardLinks : ℕ
  linked : hardLinks ≠ 0

/-- `fat32fs_create_dirent` of a file in a directory: the result, and the clusters of the directory
behind it. What it does for a node without links, from the reading of the directory on, is
`create`. -/
def createDirent (create : Node → List UInt8 → Node → List Mem → Option (ErrorT × List Mem))
    (file : Node) (name : List UInt8) (dir : Node) (clusters : List Mem) :
    Option (ErrorT × List Mem) :=
  if file.hardLinks ≠ 0 then some (.fileFsInternal, clusters) else create file name dir clusters

/-- `fat32_rename`: the result, and the clusters of `dir` behind it. The source file is given as the
directory of the new entry. -/
def rename (create : Node → List UInt8 → Node → List Mem → Option (ErrorT × List Mem)) (cs : ℕ)
    (junk : Mem) (srcFile : Node) (srcFileName newFileName : List UInt8) (dir : Node)
    (clusters : List Mem) : Option (ErrorT × List Mem) :=
  (deleteDirent cs clusters junk srcFile.cluster).bind fun (oldDirent, clusters) =>
    if oldDirent ≠ .none then some (oldDirent, clusters)
    else (createDirent create dir newFileName srcFile clusters).bind fun (newDirent, clusters) =>
      if newDirent ≠ .none then
        (createDirent create dir srcFileName srcFile clusters).map fun (_, clusters) =>
          (newDirent, clusters)
      else some (.none, clusters)

/-- The name opens an entry with this first cluster. The node is then the one with this cluster in
the cache, so that the length is that of the node, too. -/
def Opens (cs : ℕ) (clusters : List Mem) (junk : Mem) (name : List UInt8) (file : Node) : Prop :=
  ∃ i, openDir cs clusters junk name = some (some i) ∧
    firstCluster (window (content cs clusters) (32 * i)) = file.cluster

/-- The directory behind a renaming: the new name opens the node and the old one nothing, or all is
as before. -/
structure AllOrNothing (cs : ℕ) (clusters : List Mem) (file : Node) (name newName : List UInt8)
    (result : ErrorT) (clusters' : List Mem) : Prop where
  done : result = .none → ∀ junk,
    Opens cs clusters' junk newName file ∧ openDir cs clusters' junk name = some none
  failed : result ≠ .none →
    (∀ k < clusters.length * cs, content cs clusters' k = content cs clusters k) ∧
    ∀ junk, Opens cs clusters junk name file → Opens cs clusters' junk name file

/-- Every renaming of the file is all or nothing. -/
def RenamesAllOrNothing (cs : ℕ) (clusters : List Mem) (file : Node) (name newName : List UInt8)
    (dir : Node) : Prop :=
  ∀ create junk, ∃ result clusters',
    rename create cs junk file name newName dir clusters = some (result, clusters') ∧
      AllOrNothing cs clusters file name newName result clusters'

section Find
variable {cluster i : ℕ} {records : List Record}

theorem findRecord_eq_none : findRecord cluster i records = none ↔
    ∀ run e, Record.file run e ∈ records → run ≠ [] → firstCluster e ≠ cluster := by
  induction records generalizing i with
  | nil => simp [findRecord]
  | cons r rs ih =>
    cases r with
    | deleted e =>
      rw [findRecord, ih]
      simp
    | file run e =>
      rw [findRecord]
      by_cases hfound : run ≠ [] ∧ firstCluster e = cluster
      · rw [if_pos hfound]
        exact iff_of_false (Option.some_ne_none _) fun h =>
          h run e List.mem_cons_self hfound.1 hfound.2
      · rw [if_neg hfound, ih]
        constructor
        · intro h run' e' hr hne heq
          rcases List.mem_cons.mp hr with hr | hr
          · obtain ⟨rfl, rfl⟩ := Record.file.inj hr
            exact hfound ⟨hne, heq⟩
          · exact h run' e' hr hne heq
        · exact fun h run' e' hr => h run' e' (List.mem_cons_of_mem _ hr)

theorem findRecord_eq_some {k : ℕ} (h : findRecord cluster i records = some k) :
    ∃ before run e after, records = before ++ .file run e :: after ∧
      k = i + entryCount before + run.length := by
  induction records generalizing i with
  | nil => exact nomatch h
  | cons r rs ih =>
    cases r with
    | deleted e =>
      obtain ⟨before, run, e', after, rfl, hk⟩ := ih h
      refine ⟨.deleted e :: before, run, e', after, rfl, ?_⟩
      rw [hk, entryCount_deleted, Nat.add_assoc i]
    | file run e =>
      rw [findRecord] at h
      split at h
      · exact ⟨[], run, e, rs, rfl, (Option.some.inj h).symm⟩
      · obtain ⟨before, run', e', after, rfl, hk⟩ := ih h
        refine ⟨.file run e :: before, run', e', after, rfl, ?_⟩
        rw [hk, entryCount_file, Nat.add_assoc i, Nat.add_assoc i]

end Find

section Rename
variable {cs : ℕ} {clusters : List Mem} {records : List Record}

/-- The first byte of the 8.3 entry of a file. -/
theorem IsDirectory.first_byte {before after : List Record} {run : List Mem} {e : Mem}
    (h : IsDirectory cs clusters (before ++ .file run e :: after)) :
    32 * (entryCount before + run.length) < clusters.length * cs ∧
      content cs clusters (32 * (entryCount before + run.length)) = e 0 := by
  have hsplit : (before ++ .file run e :: after).flatMap Record.entries =
      (before.flatMap Record.entries ++ run) ++ e :: after.flatMap Record.entries := by
    simp [Record.entries]
  have hlen : (before.flatMap Record.entries ++ run).length = entryCount before + run.length :=
    List.length_append
  have hfits := h.fits
  have hstored := h.stored
  rw [hsplit] at hfits hstored
  have hlt : entryCount before + run.length <
      ((before.flatMap Record.entries ++ run) ++ e :: after.flatMap Record.entries).length := by
    rw [List.length_append, hlen, List.length_cons]
    omega
  refine ⟨by omega, ?_⟩
  have hbyte := hstored _ hlt 0 (by omega)
  rw [Nat.add_zero] at hbyte
  have hget : ((before.flatMap Record.entries ++ run) ++ e :: after.flatMap Record.entries)[
      entryCount before + run.length] = e := by
    rw [List.getElem_append_right hlen.le]
    have hidx : entryCount before + run.length - (before.flatMap Record.entries ++ run).length = 0 := by
      rw [hlen, Nat.sub_self]
    simp only [hidx, List.getElem_cons_zero]
  rw [hbyte, hget]

/-- Renaming a file that has been opened by its name is all or nothing exactly if no entry with a
long name has its first cluster: then the entry is not found, and nothing is done. -/
theorem rename_allOrNothing_iff (h : IsDirectory cs clusters records) {name : List UInt8} {file : Node}
    {junk₀ : Mem} (hopen : Opens cs clusters junk₀ name file) (newName : List UInt8) (dir : Node) :
    RenamesAllOrNothing cs clusters file name newName dir ↔
      ∀ run e, Record.file run e ∈ records → run ≠ [] → firstCluster e ≠ file.cluster := by
  obtain ⟨sectors, hsectors, hcs⟩ := h.cluster_size
  have hone : clusters.length = 1 := by
    obtain ⟨k, hk, -⟩ := hopen
    unfold openDir at hk
    obtain ⟨m, hm, -⟩ := Option.bind_eq_some_iff.mp hk
    exact length_of_readDirents (by omega) h.clusters_ne hm
  rw [← findRecord_eq_none (i := 0)]
  cases hfind : findRecord file.cluster 0 records with
  | none =>
    refine iff_of_true (fun create junk => ?_) rfl
    obtain ⟨m, hm, hresult⟩ := h.deleteDirent junk file.cluster hone
    rw [hfind] at hresult
    refine ⟨.fileNotFound, clusters, ?_, nofun, fun _ => ⟨fun _ _ => rfl, fun _ h => h⟩⟩
    unfold rename
    rw [hresult]
    rfl
  | some i =>
    refine iff_of_false (fun hall => ?_) nofun
    obtain ⟨result, clusters', hrename, hprop⟩ := hall (fun _ _ _ _ => none) fun _ => 0
    obtain ⟨m, hm, hresult⟩ := h.deleteDirent (fun _ => 0) file.cluster hone
    rw [hfind] at hresult
    unfold rename createDirent at hrename
    rw [hresult] at hrename
    simp only [Option.bind_some, ne_eq, not_true_eq_false, if_false, dir.linked, not_false_eq_true,
      if_true, reduceCtorEq, Option.map_some, Option.some.injEq, Prod.mk.injEq] at hrename
    obtain ⟨rfl, rfl⟩ := hrename
    -- the entry is marked as deleted, and stays so
    obtain ⟨before, run, e, after, rfl, rfl⟩ := findRecord_eq_some hfind
    obtain ⟨hlt, hbyte⟩ := h.first_byte
    have hsame := (hprop.failed nofun).1 _ hlt
    rw [hone, Nat.one_mul] at hlt
    rw [hbyte, content_writeBack hone (by omega), Nat.zero_add, Function.update_self] at hsame
    obtain ⟨hlive, -⟩ := h.valid _ (List.mem_append_right before List.mem_cons_self)
    exact hlive.2.1 hsame.symm

end Rename

/-- A node with one link, as `fat32_dirent_normalize_cache` makes it. -/
def openedNode (cluster : ℕ) : Node := ⟨cluster, 1, Nat.one_ne_zero⟩

/-- The file `A`, which has no long name, keeps its name. -/
theorem rename_allOrNothing_short_name :
    RenamesAllOrNothing 512 [singleEntry 0x41] (openedNode 0) [0x41] [0x62] (openedNode 2) := by
  have hvalid : (Record.file [] (singleEntry 0x41)).Valid :=
    ⟨by decide, by decide, fun k hk => absurd hk (Nat.not_lt_zero k)⟩
  have hopen : Opens 512 [singleEntry 0x41] (fun _ => 0) [0x41] (openedNode 0) :=
    ⟨0, by decide, by decide⟩
  refine (rename_allOrNothing_iff (isDirectory_singleEntry rfl hvalid) hopen [0x62] (openedNode 2)).mpr ?_
  intro run e hr hne
  obtain ⟨rfl, rfl⟩ := Record.file.inj (List.mem_singleton.mp hr)
  exact absurd rfl hne

/-- The file `a`, which has a long name, has no name any more. -/
theorem not_rename_allOrNothing_letter :
    IsDirectory 512 [letterCluster] [.file [letterPart] (singleEntry 0x41)] ∧
      Opens 512 [letterCluster] (fun _ => 0) [0x61] (openedNode 0) ∧
      ((rename (fun _ _ _ _ => none) 512 (fun _ => 0) (openedNode 0) [0x61] [0x62] (openedNode 2)
        [letterCluster]).map fun r => (r.1, openDir 512 r.2 (fun _ => 0) [0x61],
          openDir 512 r.2 (fun _ => 0) [0x62])) = some (.fileFsInternal, some none, some none) ∧
      ¬RenamesAllOrNothing 512 [letterCluster] (openedNode 0) [0x61] [0x62] (openedNode 2) := by
  have hopen : Opens 512 [letterCluster] (fun _ => 0) [0x61] (openedNode 0) :=
    ⟨1, by decide, by decide⟩
  have hresult : ((rename (fun _ _ _ _ => none) 512 (fun _ => 0) (openedNode 0) [0x61] [0x62]
      (openedNode 2) [letterCluster]).map fun r => (r.1, openDir 512 r.2 (fun _ => 0) [0x61],
        openDir 512 r.2 (fun _ => 0) [0x62])) = some (.fileFsInternal, some none, some none) := by
    decide
  refine ⟨isDirectory_letter, hopen, hresult, fun hall => ?_⟩
  obtain ⟨result, clusters', hrename, hprop⟩ := hall (fun _ _ _ _ => none) fun _ => 0
  rw [hrename, Option.map_some, Option.some.injEq, Prod.mk.injEq, Prod.mk.injEq] at hresult
  obtain ⟨rfl, hlost, -⟩ := hresult
  obtain ⟨i, hi, -⟩ := (hprop.failed nofun).2 _ hopen
  exact nomatch hlost.symm.trans hi

end VkKernel.Fat32
