import VkKernel.Fat32Dir

/-!
# Directory entries of FAT32 files

`fat32fs_update_dirent` looks for the 8.3 entry with the first cluster of a file and
stores the length, the times and two attributes of the file in it. It passes over files
that have no long name.
-/

namespace VkKernel.Fat32
open ByteMemory PackedStruct IntervalUpdate

/-- What is stored in an entry besides the length of the file. The times are in the
format of FAT. -/
structure Stamp where
  directory : Bool
  hidden : Bool
  creationTime : ℕ
  creationDate : ℕ
  lastAccessDate : ℕ
  lastModificationTime : ℕ
  lastModificationDate : ℕ

def setFlag (on : Bool) (flag a : UInt8) : UInt8 := if on then a ||| flag else a &&& ~~~flag

/-- The entry with the new attributes, times and length. -/
def stampEntry (stamp : Stamp) (length : ℕ) (e : Mem) : Mem :=
  let e := storeLE e 28 4 length
  let e := Function.update e 11
    (setFlag stamp.hidden 0x02 (setFlag stamp.directory 0x10 (attributes e)))
  let e := storeLE (storeLE e 14 2 stamp.creationTime) 16 2 stamp.creationDate
  let e := storeLE (storeLE e 22 2 stamp.lastModificationTime) 24 2 stamp.lastModificationDate
  storeLE e 18 2 stamp.lastAccessDate

/-- The bytes of an entry that get a new value. -/
def Stamped (k : ℕ) : Prop := k = 11 ∨ 14 ≤ k ∧ k < 20 ∨ 22 ≤ k ∧ k < 26 ∨ 28 ≤ k ∧ k < 32

instance (k : ℕ) : Decidable (Stamped k) := inferInstanceAs (Decidable (_ ∨ _))

/-- The loop of `fat32fs_update_dirent`: the number of the entry that it finds. -/
def findDirent (m junk : Mem) (cluster : ℕ) : ℕ → ℕ → Option NameBuffer → Option (Option ℕ)
  | 0, _, _ => some none
  | fuel + 1, i, lfnName =>
    let e := window m (32 * i)
    if e 0 = 0 then some none
    else if e 0 = deletedMark then findDirent m junk cluster fuel (i + 1) lfnName
    else if attributes e = attrLfn then
      match storeLfn (lfnName.getD (newBuffer junk e)) e with
      | none => none
      | some b => findDirent m junk cluster fuel (i + 1) (some b)
    else if lfnName.isSome ∧ firstCluster e = cluster then some (some i)
    else findDirent m junk cluster fuel (i + 1) none

theorem stampEntry_of_not_stamped {k : ℕ} (h : ¬Stamped k) (stamp : Stamp) (length : ℕ) (e : Mem) :
    stampEntry stamp length e k = e k := by
  unfold Stamped at h
  unfold stampEntry
  rw [storeLE_apply_of_lt (by omega), storeLE_apply_of_lt (by omega), storeLE_apply_of_lt (by omega),
    storeLE_apply_of_lt (by omega), storeLE_apply_of_lt (by omega), Function.update_of_ne (by omega),
    storeLE_apply_of_lt (by omega)]

/-- The entry that is found is one of those that are looked at. -/
theorem findDirent_bounds {m junk : Mem} {cluster fuel i j : ℕ} {lfnName : Option NameBuffer}
    (h : findDirent m junk cluster fuel i lfnName = some (some j)) : i ≤ j ∧ j < i + fuel := by
  induction fuel generalizing i lfnName with
  | zero => cases h
  | succ fuel ih =>
    have hnext : ∀ {b}, findDirent m junk cluster fuel (i + 1) b = some (some j) →
        i ≤ j ∧ j < i + (fuel + 1) := by
      intro b hb
      have := ih hb
      omega
    rw [findDirent] at h
    split at h
    · cases h
    split at h
    · exact hnext h
    split at h
    · split at h
      · cases h
      · exact hnext h
    split at h
    · rw [Option.some.injEq, Option.some.injEq] at h
      omega
    · exact hnext h

/-! ## The entries of a directory -/

/-- The entries are in the buffer from entry `i` on. -/
def StoredAt (m : Mem) (i : ℕ) (es : List Mem) : Prop :=
  ∀ k (hk : k < es.length), ∀ b < 32, window m (32 * (i + k)) b = es[k] b

theorem filesFrom_cons (i : ℕ) (r : Record) (rs : List Record) :
    filesFrom i (r :: rs) = filesFrom i [r] ++ filesFrom (i + r.entries.length) rs := by
  cases r with
  | deleted e => rfl
  | file run e =>
    have hlen : (Record.file run e).entries.length = run.length + 1 := List.length_append
    rw [hlen]
    rfl

section Scan
variable {m : Mem} (junk : Mem) (cluster : ℕ) {i : ℕ}

theorem StoredAt.append {es fs : List Mem} (h : StoredAt m i (es ++ fs)) :
    StoredAt m i es ∧ StoredAt m (i + es.length) fs := by
  constructor
  · intro k hk b hb
    rw [h k (by rw [List.length_append]; omega) b hb, List.getElem_append_left hk]
  · intro k hk b hb
    have hin : es.length + k < (es ++ fs).length := by
      rw [List.length_append]
      omega
    have hget : (es ++ fs)[es.length + k] = fs[k] := by
      rw [List.getElem_append_right (by omega)]
      simp only [Nat.add_sub_cancel_left]
    rw [Nat.add_assoc, h _ hin b hb, hget]

theorem firstCluster_congr {e e' : Mem} (h : ∀ b < 32, e b = e' b) :
    firstCluster e = firstCluster e' := by
  have hhigh : loadLE e 20 2 = loadLE e' 20 2 := loadLE_congr fun x _ hx => h x (by omega)
  have hlow : loadLE e 26 2 = loadLE e' 26 2 := loadLE_congr fun x _ hx => h x (by omega)
  unfold firstCluster
  rw [hhigh, hlow]

/-- Entries with the same bytes have the same 8.3 name. -/
theorem oldName_congr {e e' : Mem} (h : ∀ b < 32, e b = e' b) : oldName e = oldName e' := by
  have hbase : (List.range 8).map e = (List.range 8).map e' :=
    List.map_congr_left fun b hb => h b (by have := List.mem_range.mp hb; omega)
  have hext : ((List.range 3).map fun i => e (8 + i)) = (List.range 3).map fun i => e' (8 + i) :=
    List.map_congr_left fun b hb => h (8 + b) (by have := List.mem_range.mp hb; omega)
  unfold oldName
  rw [hbase, hext, h 8 (by omega)]

theorem invCase_ne_zero {c : UInt8} (h : c ≠ 0) : invCase c ≠ 0 := by
  revert c
  decide +kernel

/-- The numbers of the parts of a long name. -/
theorem lfnNbr_of_numbered {e : Mem} {n : ℕ} (hn : n ≤ 20) {c : ℕ} (hc : c = 0 ∨ c = 0x40)
    (he : (e 0).toNat = n + c) : lfnNbr e = n := by
  unfold lfnNbr
  rw [he]
  obtain rfl | rfl := hc
  · interval_cases n <;> rfl
  · interval_cases n <;> rfl

/-- The parts of a long name in a buffer, by their number. -/
theorem Record.Valid.part {run : List Mem} {e : Mem} (hvalid : (Record.file run e).Valid) {n : ℕ}
    (hn : n < run.length) (hk : run.length - (n + 1) < run.length) {part : Mem}
    (hsame : ∀ b < 32, part b = run[run.length - (n + 1)] b) :
    lfnNbr part = n + 1 ∧ part 0 ≠ 0 ∧ part 0 ≠ deletedMark ∧ attributes part = attrLfn := by
  obtain ⟨-, hlen, hparts⟩ := hvalid
  obtain ⟨hattr, hnum⟩ := hparts _ hk
  have hnum0 : (part 0).toNat = n + 1 + if run.length - (n + 1) = 0 then 0x40 else 0 := by
    rw [hsame 0 (by omega), hnum]
    omega
  have hnbr : lfnNbr part = n + 1 := by
    refine lfnNbr_of_numbered (by omega) ?_ hnum0
    split
    · exact Or.inr rfl
    · exact Or.inl rfl
  have hlt : (part 0).toNat ≤ 84 := by
    rw [hnum0]
    split <;> omega
  have hzero : part 0 ≠ 0 := by
    intro h0
    rw [h0] at hnum0
    have : (0 : UInt8).toNat = 0 := rfl
    omega
  have hdeleted : part 0 ≠ deletedMark := by
    intro h0
    rw [h0] at hlt
    exact absurd hlt (by decide)
  exact ⟨hnbr, hzero, hdeleted, (hsame 11 (by omega)).trans hattr⟩

/-- The parts of a long name are stored inside the memory for the name. -/
theorem findDirent_parts {run : List Mem} {e : Mem} (hvalid : (Record.file run e).Valid)
    (hstored : StoredAt m i run) (fuel : ℕ) {n : ℕ} (hn : n ≤ run.length)
    {lfnName : Option NameBuffer} (hnone : lfnName = none ↔ n = run.length)
    (hsize : ∀ b ∈ lfnName, b.size = 13 * run.length + 1) :
    ∃ lfnName', (lfnName' = none ↔ 0 = run.length) ∧
      findDirent m junk cluster (n + fuel) (i + (run.length - n)) lfnName =
        findDirent m junk cluster fuel (i + run.length) lfnName' := by
  induction n generalizing lfnName with
  | zero => exact ⟨lfnName, hnone, by rw [Nat.zero_add, Nat.sub_zero]⟩
  | succ n ih =>
    have hk : run.length - (n + 1) < run.length := by omega
    generalize hpart : window m (32 * (i + (run.length - (n + 1)))) = part
    have hsame : ∀ b < 32, part b = run[run.length - (n + 1)] b := by
      intro b hb
      rw [← hpart]
      exact hstored _ hk b hb
    obtain ⟨hnbr, hzero, hdeleted, hattr'⟩ := hvalid.part (by omega) hk hsame
    have hbuffer : (lfnName.getD (newBuffer junk part)).size = 13 * run.length + 1 := by
      cases lfnName with
      | none =>
        have hall := hnone.mp rfl
        change 13 * lfnNbr part + 1 = _
        rw [hnbr, hall]
      | some b => exact hsize b rfl
    have hstore : ∃ b, storeLfn (lfnName.getD (newBuffer junk part)) part = some b ∧
        b.size = 13 * run.length + 1 := by
      unfold storeLfn
      rw [hnbr, hbuffer, if_pos ⟨by omega, by omega⟩]
      exact ⟨_, rfl, rfl⟩
    obtain ⟨b, hb, hbsize⟩ := hstore
    have hiff : some b = none ↔ n = run.length := by
      constructor
      · intro h
        cases h
      · omega
    obtain ⟨lfnName', hlast, hrest⟩ := ih (by omega) hiff fun b' hb' => by
      rw [← Option.some.inj hb']
      exact hbsize
    refine ⟨lfnName', hlast, ?_⟩
    rw [show n + 1 + fuel = n + fuel + 1 by omega]
    rw [findDirent]
    rw [hpart, if_neg hzero, if_neg hdeleted, if_pos hattr', hb]
    dsimp only
    rw [← hrest]
    congr 1
    omega

/-- A file is found by its first cluster if it has a long name, and passed over otherwise. -/
theorem findDirent_file {run : List Mem} {e : Mem} (hvalid : (Record.file run e).Valid)
    (hstored : StoredAt m i (run ++ [e])) (fuel : ℕ) :
    findDirent m junk cluster (run.length + 1 + fuel) i none =
      if run ≠ [] ∧ firstCluster e = cluster then some (some (i + run.length))
      else findDirent m junk cluster fuel (i + (run.length + 1)) none := by
  obtain ⟨hrun, he⟩ := hstored.append
  obtain ⟨hzero, hdeleted, -, hattr⟩ := hvalid.1
  have hnone : (none : Option NameBuffer) = none ↔ run.length = run.length :=
    ⟨fun _ => rfl, fun _ => rfl⟩
  obtain ⟨lfnName, hlast, hparts⟩ := findDirent_parts junk cluster hvalid hrun (fuel + 1) le_rfl hnone
    fun b hb => nomatch hb
  have hsame : ∀ b < 32, window m (32 * (i + run.length)) b = e b := he 0 Nat.one_pos
  have hcluster := firstCluster_congr hsame
  have hattr' : attributes (window m (32 * (i + run.length))) ≠ attrLfn := by
    unfold attributes
    rw [hsame 11 (by omega)]
    exact hattr
  have hsome : lfnName.isSome ↔ run ≠ [] := by
    rw [Option.isSome_iff_ne_none, ne_eq, hlast, eq_comm, List.length_eq_zero_iff]
  rw [Nat.sub_self, Nat.add_zero i] at hparts
  rw [show run.length + 1 + fuel = run.length + (fuel + 1) by omega, hparts, findDirent]
  rw [if_neg (hsame 0 (by omega) ▸ hzero), if_neg (hsame 0 (by omega) ▸ hdeleted), if_neg hattr',
    hcluster]
  simp only [hsome, Nat.add_assoc]

/-- A record is passed over, or its 8.3 entry is the one that is looked for. -/
theorem findDirent_record {r : Record} (hvalid : r.Valid) (hstored : StoredAt m i r.entries)
    (fuel : ℕ) :
    findDirent m junk cluster (r.entries.length + fuel) i none =
        findDirent m junk cluster fuel (i + r.entries.length) none ∨
      ∃ f ∈ filesFrom i [r], f.2.inode = cluster ∧
        findDirent m junk cluster (r.entries.length + fuel) i none = some (some f.1) := by
  cases r with
  | deleted e =>
    left
    have hfirst : window m (32 * i) 0 = deletedMark := (hstored 0 Nat.one_pos 0 (by omega)).trans hvalid
    change findDirent m junk cluster (1 + fuel) i none = findDirent m junk cluster fuel (i + 1) none
    rw [Nat.add_comm 1, findDirent]
    rw [hfirst, if_neg (by decide), if_pos rfl]
  | file run e =>
    have hlen : (Record.file run e).entries.length = run.length + 1 := List.length_append
    rw [hlen, findDirent_file junk cluster hvalid hstored]
    split
    · rename_i hfound
      exact Or.inr ⟨_, List.mem_singleton_self _, hfound.2, rfl⟩
    · exact Or.inl rfl

theorem findDirent_records {records : List Record} (hvalid : ∀ r ∈ records, r.Valid)
    (hstored : StoredAt m i (records.flatMap Record.entries)) (fuel : ℕ) :
    findDirent m junk cluster ((records.flatMap Record.entries).length + fuel) i none =
        findDirent m junk cluster fuel (i + (records.flatMap Record.entries).length) none ∨
      ∃ f ∈ filesFrom i records, f.2.inode = cluster ∧
        findDirent m junk cluster ((records.flatMap Record.entries).length + fuel) i none =
          some (some f.1) := by
  induction records generalizing i with
  | nil =>
    left
    rw [List.flatMap_nil, List.length_nil, Nat.zero_add, Nat.add_zero]
  | cons r rs ih =>
    rw [List.flatMap_cons] at hstored ⊢
    obtain ⟨hr, hrs⟩ := hstored.append
    rw [List.length_append, Nat.add_assoc, filesFrom_cons]
    obtain hpass | ⟨f, hf, hfound⟩ := findDirent_record junk cluster (hvalid r List.mem_cons_self) hr
      ((rs.flatMap Record.entries).length + fuel)
    · rw [hpass]
      obtain hrest | ⟨f, hf, hfound⟩ := ih (fun r' hr' => hvalid r' (List.mem_cons_of_mem _ hr')) hrs
      · left
        rw [hrest, Nat.add_assoc]
      · exact Or.inr ⟨f, List.mem_append_right _ hf, hfound⟩
    · exact Or.inr ⟨f, List.mem_append_left _ hf, hfound⟩

end Scan

/-- In a directory of one cluster the entry that is found is that of a file with the
first cluster. -/
theorem IsDirectory.findDirent {cs : ℕ} {clusters : List Mem} {records : List Record}
    (h : IsDirectory cs clusters records) (hone : clusters.length = 1) {m : Mem}
    (hm : ∀ k < cs, m k = content cs clusters k) (junk : Mem) (cluster : ℕ) :
    ∃ found, Fat32.findDirent m junk cluster (cs / 32) 0 none = some found ∧
      ∀ j ∈ found, ∃ f ∈ filesFrom 0 records, f.2.inode = cluster ∧ f.1 = j := by
  have hfits := h.fits
  have hended := h.ended
  rw [hone, Nat.one_mul] at hfits hended
  have hstored : StoredAt m 0 (records.flatMap Record.entries) := by
    intro k hk b hb
    rw [Nat.zero_add]
    exact (hm _ (by omega)).trans (h.stored k hk b hb)
  obtain ⟨fuel, hfuel⟩ := Nat.exists_eq_add_of_le
    (show (records.flatMap Record.entries).length ≤ cs / 32 by omega)
  rw [hfuel]
  obtain hpass | ⟨f, hf, hcluster, hfound⟩ :=
    findDirent_records junk cluster h.valid hstored fuel
  · refine ⟨none, ?_, fun j hj => nomatch hj⟩
    rw [hpass, Nat.zero_add]
    cases fuel with
    | zero => rw [Fat32.findDirent]
    | succ fuel =>
      have hend : m (32 * (records.flatMap Record.entries).length) = 0 := by
        rw [hm _ (by omega)]
        exact hended (by omega)
      rw [Fat32.findDirent]
      exact if_pos hend
  · exact ⟨some f.1, hfound, fun j hj => ⟨f, hf, hcluster, Option.some.inj hj⟩⟩

end VkKernel.Fat32
