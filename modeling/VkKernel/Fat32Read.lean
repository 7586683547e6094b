import VkKernel.Fat32File

/-!
# Reading FAT32 files

`fat32_read_file` takes one transfer for a range in the first cluster, and otherwise walks
along the chain. The first piece of the walk begins inside its cluster but is as long as a
cluster, and the pieces behind it begin at cluster boundaries, so a read across a cluster
boundary is right if it begins at one, or if it ends in the next cluster and this is the
next one of the disk, too.
-/

namespace VkKernel.Fat32
open ByteMemory PackedStruct IntervalUpdate Chains

namespace Volume

def withDisk (v : Volume) (disk : Mem) : Volume := { v with disk := disk }

/-- The bytes of the clusters of a list, one cluster after the other. -/
def clusterBytes (v : Volume) (l : List ℕ) : Mem := fun i =>
  v.disk (v.pos (l.getD (i / v.clusterSize) 0) + i % v.clusterSize)

end Volume

/-- Whatever is on the disk, a read returns the bytes of the file, and stores nothing behind
them. -/
def ReadsFile (v : Volume) (first offset count : ℕ) : Prop :=
  ∀ disk out, ∃ out', (v.withDisk disk).readFile first offset count out = some out' ∧
    (∀ i < count, (v.withDisk disk).fileByte first (offset + i) = some (out' i)) ∧
    ∀ i, count ≤ i → out' i = out i

/-- The read begins at a cluster boundary, or it ends in the cluster in which it begins, or
in the next one, which is the next one of the disk. The length that is left is a 32-bit
word behind the first cluster. -/
def ReadsStraight (v : Volume) (chain : List ℕ) (offset count : ℕ) : Prop :=
  offset % v.clusterSize = 0 ∧ count < 2 ^ 32 + v.clusterSize ∨
    offset % v.clusterSize + count ≤ v.clusterSize ∨
    count ≤ v.clusterSize ∧
      chain[offset / v.clusterSize + 1]? = some (chain.getD (offset / v.clusterSize) 0 + 1)

instance (v : Volume) (chain : List ℕ) (offset count : ℕ) :
    Decidable (ReadsStraight v chain offset count) := inferInstanceAs (Decidable (_ ∨ _))

/-! ## The walk along the chain -/

variable {v : Volume} {first length offset count : ℕ} {chain : List ℕ}

/-- Cluster by cluster, the walk puts the bytes of the clusters behind each other. -/
theorem readClusters_eq (hcs : 0 < v.clusterSize) {fuel p : ℕ} {l : List ℕ} {buffer : Mem}
    (hl : count ≤ l.length * v.clusterSize) (hfuel : count ≤ fuel * v.clusterSize)
    (hcount : count < 2 ^ 32 + v.clusterSize) :
    v.readClusters fuel count 0 l p buffer = some (overwrite buffer p count (v.clusterBytes l)) := by
  induction fuel generalizing count p l buffer with
  | zero =>
    have h0 : count = 0 := by omega
    rw [Volume.readClusters, h0, overwrite_zero]
  | succ fuel ih =>
    unfold Volume.readClusters
    by_cases h0 : count = 0
    · rw [if_pos h0, h0, overwrite_zero]
    rw [if_neg h0]
    cases l with
    | nil =>
      rw [List.length_nil, Nat.zero_mul] at hl
      omega
    | cons c rest =>
      -- the piece from the first cluster
      have hpiece : ∀ n ≤ v.clusterSize, overwrite buffer p n (window v.disk (v.pos c + 0)) =
          overwrite buffer p n (v.clusterBytes (c :: rest)) := by
        intro n hn
        apply overwrite_congr
        intro i hi
        unfold Volume.clusterBytes
        rw [Nat.div_eq_of_lt (by omega), Nat.mod_eq_of_lt (by omega), window, Nat.add_zero,
          List.getD_cons_zero]
      -- the rest of the bytes
      have hrest : ∀ i, v.clusterBytes rest i = v.clusterBytes (c :: rest) (v.clusterSize + i) := by
        intro i
        unfold Volume.clusterBytes
        rw [Nat.add_div_left i hcs, Nat.add_mod_left, List.getD_cons_succ]
      dsimp only
      by_cases hfull : count ≥ v.clusterSize
      · rw [List.length_cons, Nat.succ_mul] at hl
        rw [Nat.succ_mul] at hfuel
        rw [if_pos hfull, u32_of_lt (by omega), ih (by omega) (by omega) (by omega), hpiece _ le_rfl,
          funext hrest, overwrite_append, Nat.add_sub_cancel' hfull]
      · rw [if_neg hfull, hpiece _ (by omega)]

theorem IsFile.withDisk (h : IsFile v first length chain) (disk : Mem) :
    IsFile (v.withDisk disk) first length chain :=
  ⟨h.sectors, h.sectors_lt, h.isChain, h.clusters, h.length_le⟩

/-- What the file has at a position in its chain. -/
theorem IsFile.fileByte_withDisk (h : IsFile v first length chain) (disk : Mem) (p : ℕ) :
    (v.withDisk disk).fileByte first p = (chain[p / v.clusterSize]?).map fun c =>
      disk (v.pos c + p % v.clusterSize) := by
  have hchain := Fat.getClusterChain_of_isChain (h.withDisk disk).isChain
  unfold Volume.fileByte
  rw [hchain]
  rfl

section Read
variable (hfile : IsFile v first length chain) (hin : offset + count ≤ length)
include hfile hin

/-- Every position of the read has a cluster. -/
theorem IsFile.place_lt {p : ℕ} (hp : p < offset + count) :
    p / v.clusterSize < chain.length := by
  have hle := hfile.length_le
  rw [Nat.div_lt_iff_lt_mul hfile.clusterSize_pos]
  omega

theorem IsFile.fileByte_place {p : ℕ} (hp : p < offset + count) (disk : Mem) :
    (v.withDisk disk).fileByte first p =
      some (disk (v.pos (chain.getD (p / v.clusterSize) 0) + p % v.clusterSize)) := by
  have hlt := hfile.place_lt hin hp
  rw [hfile.fileByte_withDisk, List.getElem?_eq_getElem hlt, List.getD_eq_getElem _ _ hlt]
  rfl

variable (hcount : 1 ≤ count)
include hcount

/-- A read of more than one cluster is one transfer of the length of a cluster, and the walk
along the rest of the chain. -/
theorem IsFile.readFile_long (disk out : Mem) (hlong : v.clusterSize < count) :
    (v.withDisk disk).readFile first offset count out =
      some (overwrite (overwrite out 0 v.clusterSize (window disk
          (v.pos (chain.getD (offset / v.clusterSize) 0) + offset % v.clusterSize)))
        v.clusterSize (u32 (count - v.clusterSize))
        ((v.withDisk disk).clusterBytes (chain.drop (offset / v.clusterSize + 1)))) := by
  have hcs := hfile.clusterSize_pos
  have hlt := hfile.place_lt hin (p := offset) (by omega)
  have hsize : (v.withDisk disk).clusterSize = v.clusterSize := rfl
  have hdrop : chain.drop (offset / v.clusterSize) =
      chain.getD (offset / v.clusterSize) 0 :: chain.drop (offset / v.clusterSize + 1) := by
    rw [List.drop_eq_getElem_cons hlt, List.getD_eq_getElem _ _ hlt]
  -- the clusters behind the first one have the rest of the bytes
  have hleft : u32 (count - v.clusterSize) ≤
      (chain.length - (offset / v.clusterSize + 1)) * v.clusterSize := by
    have hmod : u32 (count - v.clusterSize) ≤ count - v.clusterSize := Nat.mod_le _ _
    have hdiv : offset / v.clusterSize * v.clusterSize ≤ offset := Nat.div_mul_le_self _ _
    have hle := hfile.length_le
    rw [Nat.sub_mul, Nat.succ_mul]
    omega
  obtain ⟨n, hn⟩ := Nat.exists_eq_succ_of_ne_zero (Nat.ne_zero_of_lt hlt)
  have hfuel : u32 (count - v.clusterSize) ≤ n * v.clusterSize := by
    apply hleft.trans
    apply Nat.mul_le_mul_right
    rw [hn, Nat.succ_sub_succ]
    exact Nat.sub_le _ _
  have hlt32 := u32_lt (count - v.clusterSize)
  unfold Volume.readFile
  rw [hsize, if_neg (by omega), Fat.getClusterChain_of_isChain (hfile.withDisk disk).isChain,
    Option.bind_some, skipFull_eq hcs le_rfl]
  dsimp only
  rw [hn, hdrop]
  unfold Volume.readClusters
  rw [if_neg (by omega), hsize]
  dsimp only
  rw [if_pos (le_of_lt hlong), readClusters_eq (v := v.withDisk disk) hcs, Nat.zero_add]
  · rfl
  · rwa [List.length_drop]
  · exact hfuel
  · change _ < _ + v.clusterSize
    omega

/-- A read that leaves its first cluster inside is right if it takes one transfer to the next
cluster of the disk. -/
theorem IsFile.readsFile_one (hle : count ≤ v.clusterSize)
    (hnext : offset % v.clusterSize + count ≤ v.clusterSize ∨
      chain[offset / v.clusterSize + 1]? = some (chain.getD (offset / v.clusterSize) 0 + 1)) :
    ReadsFile v first offset count := by
  have hcs := hfile.clusterSize_pos
  have hlt := hfile.place_lt hin (p := offset) (by omega)
  intro disk out
  refine ⟨_, readFile_eq hfile disk hcount hle hlt out, ?_, ?_⟩
  · intro i hi
    rw [hfile.fileByte_place hin (by omega), overwrite_of_mem (Nat.zero_le i) (by omega),
      Nat.sub_zero, window]
    refine congrArg (fun x => some (disk x)) ?_
    have hmod := Nat.mod_lt offset hcs
    have hsum := Nat.mod_add_div offset v.clusterSize
    by_cases hsame : offset % v.clusterSize + i < v.clusterSize
    · have hdiv : (offset + i) / v.clusterSize = offset / v.clusterSize := by
        rw [← hsum, Nat.add_right_comm, Nat.add_mul_div_left _ _ hcs, Nat.div_eq_of_lt hsame,
          Nat.zero_add, hsum]
      have hmod' : (offset + i) % v.clusterSize = offset % v.clusterSize + i := by
        rw [← hsum, Nat.add_right_comm, Nat.add_mul_mod_self_left, Nat.mod_eq_of_lt hsame, hsum]
      rw [hdiv, hmod', Nat.add_assoc]
    · -- the byte is in the next cluster
      have hnext' := hnext.resolve_left (by omega)
      obtain ⟨hlt', hget⟩ := List.getElem?_eq_some_iff.mp hnext'
      obtain ⟨k, hk⟩ := Nat.exists_eq_add_of_le (not_lt.mp hsame)
      have hk' : k < v.clusterSize := by omega
      have hplace : offset + i = k + v.clusterSize * (offset / v.clusterSize + 1) := by
        rw [Nat.mul_add, Nat.mul_one]
        omega
      have hdiv : (offset + i) / v.clusterSize = offset / v.clusterSize + 1 := by
        rw [hplace, Nat.add_mul_div_left _ _ hcs, Nat.div_eq_of_lt hk', Nat.zero_add]
      have hmod' : (offset + i) % v.clusterSize = k := by
        rw [hplace, Nat.add_mul_mod_self_left, Nat.mod_eq_of_lt hk']
      have hmem : chain.getD (offset / v.clusterSize) 0 ∈ chain := by
        rw [List.getD_eq_getElem _ _ hlt]
        exact List.getElem_mem hlt
      obtain ⟨h2, hlast⟩ := hfile.mem_bounds hmem
      rw [hdiv, hmod', List.getD_eq_getElem _ _ hlt', hget, hfile.pos_succ h2 hlast]
      omega
  · intro i hi
    exact overwrite_of_notMem (by omega)

/-- A walk that begins at a cluster boundary is right. -/
theorem IsFile.readsFile_boundary (hstart : offset % v.clusterSize = 0) (hlong : v.clusterSize < count)
    (hcount' : count < 2 ^ 32 + v.clusterSize) : ReadsFile v first offset count := by
  have hcs := hfile.clusterSize_pos
  intro disk out
  refine ⟨_, hfile.readFile_long hin hcount disk out hlong, ?_, ?_⟩
  · intro i hi
    have hdiv : (offset + i) / v.clusterSize = offset / v.clusterSize + i / v.clusterSize := by
      have hsum := Nat.mod_add_div offset v.clusterSize
      rw [hstart, Nat.zero_add] at hsum
      rw [← hsum, Nat.add_comm, Nat.add_mul_div_left _ _ hcs, hsum, Nat.add_comm]
    have hmod : (offset + i) % v.clusterSize = i % v.clusterSize := by
      rw [Nat.add_mod, hstart, Nat.zero_add, Nat.mod_mod]
    rw [hfile.fileByte_place hin (by omega), hdiv, hmod, u32_of_lt (by omega)]
    by_cases hfirst : i < v.clusterSize
    · rw [overwrite_of_notMem (by omega), overwrite_of_mem (Nat.zero_le i) (by omega), hstart,
        Nat.div_eq_of_lt hfirst, Nat.mod_eq_of_lt hfirst, window, Nat.add_zero, Nat.add_zero,
        Nat.sub_zero]
    · obtain ⟨k, rfl⟩ := Nat.exists_eq_add_of_le (not_lt.mp hfirst)
      rw [overwrite_of_mem (by omega) (by omega), Nat.add_sub_cancel_left, Nat.add_div_left k hcs,
        Nat.add_mod_left]
      have hget : (chain.drop (offset / v.clusterSize + 1)).getD (k / v.clusterSize) 0 =
          chain.getD (offset / v.clusterSize + (k / v.clusterSize + 1)) 0 := by
        rw [List.getD_eq_getElem?_getD, List.getD_eq_getElem?_getD, List.getElem?_drop,
          Nat.add_assoc, Nat.add_comm 1]
      rw [← hget]
      rfl
  · intro i hi
    rw [u32_of_lt (by omega), overwrite_of_notMem (by omega), overwrite_of_notMem (by omega)]

/-- A right read of more than one cluster begins at a cluster boundary. -/
theorem ReadsFile.of_long (hread : ReadsFile v first offset count) (hlong : v.clusterSize < count) :
    offset % v.clusterSize = 0 ∧ count < 2 ^ 32 + v.clusterSize := by
  have hcs := hfile.clusterSize_pos
  have hlt := hfile.place_lt hin (p := offset) (by omega)
  constructor
  · by_contra hstart
    -- the second piece has the first byte of its cluster in the place of a later one
    have hplace : (offset + v.clusterSize) / v.clusterSize = offset / v.clusterSize + 1 :=
      Nat.add_div_right _ hcs
    have hlt' := hfile.place_lt hin (p := offset + v.clusterSize) (by omega)
    rw [hplace] at hlt'
    generalize hd : chain.getD (offset / v.clusterSize + 1) 0 = d
    obtain ⟨out', hrun, hbytes, -⟩ := hread
      (fun x => if x = v.pos d + offset % v.clusterSize then 1 else 0) fun _ => 0
    have hbyte := hbytes v.clusterSize hlong
    rw [hfile.fileByte_place hin (by omega), hplace, Nat.add_mod_right, hd, if_pos rfl] at hbyte
    rw [hfile.readFile_long hin hcount _ _ hlong, Option.some.injEq] at hrun
    rw [← hrun] at hbyte
    by_cases hzero : u32 (count - v.clusterSize) = 0
    · rw [hzero, overwrite_zero, overwrite_of_notMem (by omega)] at hbyte
      exact absurd hbyte (by decide)
    · rw [overwrite_of_mem le_rfl (by omega), Nat.sub_self] at hbyte
      have hfirst : (chain.drop (offset / v.clusterSize + 1)).getD 0 0 = d := by
        rw [← hd, List.getD_eq_getElem?_getD, List.getElem?_drop, Nat.add_zero,
          ← List.getD_eq_getElem?_getD]
      unfold Volume.clusterBytes at hbyte
      rw [Nat.zero_div, Nat.zero_mod, hfirst] at hbyte
      change some (1 : UInt8) = some (if v.pos d + 0 = v.pos d + offset % v.clusterSize then 1 else 0)
        at hbyte
      rw [if_neg (by omega)] at hbyte
      exact absurd hbyte (by decide)
  · by_contra hcount'
    -- the length that is left is cut to a 32-bit word, and the last byte is not stored
    obtain ⟨out', hrun, hbytes, -⟩ := hread (fun _ => 0) fun _ => 1
    have hbyte := hbytes (count - 1) (by omega)
    have hlt32 := u32_lt (count - v.clusterSize)
    rw [hfile.fileByte_place hin (by omega)] at hbyte
    rw [hfile.readFile_long hin hcount _ _ hlong, Option.some.injEq] at hrun
    rw [← hrun, overwrite_of_notMem (by omega), overwrite_of_notMem (by omega)] at hbyte
    exact absurd hbyte (by decide)

/-- A right read with one transfer that leaves its cluster goes on in the next one of the
disk. -/
theorem ReadsFile.of_short (hread : ReadsFile v first offset count) (hle : count ≤ v.clusterSize)
    (hout : v.clusterSize < offset % v.clusterSize + count) :
    chain[offset / v.clusterSize + 1]? = some (chain.getD (offset / v.clusterSize) 0 + 1) := by
  have hcs := hfile.clusterSize_pos
  have hmod := Nat.mod_lt offset hcs
  have hsum := Nat.mod_add_div offset v.clusterSize
  have hlt := hfile.place_lt hin (p := offset) (by omega)
  -- the first byte behind the cluster
  obtain ⟨i, hi⟩ : ∃ i, offset % v.clusterSize + i = v.clusterSize :=
    ⟨v.clusterSize - offset % v.clusterSize, by omega⟩
  have hplace : offset + i = v.clusterSize * (offset / v.clusterSize + 1) := by
    rw [Nat.mul_add, Nat.mul_one]
    omega
  have hdiv : (offset + i) / v.clusterSize = offset / v.clusterSize + 1 := by
    rw [hplace, Nat.mul_div_cancel_left _ hcs]
  have hlt' := hfile.place_lt hin (p := offset + i) (by omega)
  rw [hdiv] at hlt'
  generalize hc : chain.getD (offset / v.clusterSize) 0 = c
  have hmem : c ∈ chain := by
    rw [← hc, List.getD_eq_getElem _ _ hlt]
    exact List.getElem_mem hlt
  obtain ⟨h2, hlast⟩ := hfile.mem_bounds hmem
  obtain ⟨h2', hlast'⟩ := hfile.mem_bounds (List.getElem_mem hlt')
  obtain ⟨out', hrun, hbytes, -⟩ := hread (fun x => if x = v.pos (c + 1) then 1 else 0) fun _ => 0
  have hbyte := hbytes i (by omega)
  rw [hfile.fileByte_place hin (by omega), hdiv, hplace, Nat.mul_mod_right, Nat.add_zero,
    List.getD_eq_getElem _ _ hlt'] at hbyte
  have hrun' := hrun.symm.trans (readFile_eq hfile _ hcount hle hlt _)
  rw [Option.some.inj hrun', overwrite_of_mem (Nat.zero_le i) (by omega), Nat.sub_zero, window, hc,
    Nat.add_assoc, hi, hfile.pos_succ h2 hlast, if_pos rfl] at hbyte
  rw [List.getElem?_eq_getElem hlt', Option.some.injEq]
  -- different clusters are at different places
  by_contra hne
  rw [Option.some.injEq, if_neg] at hbyte
  · exact absurd hbyte (by decide)
  · intro heq
    rw [← hfile.pos_succ h2 hlast] at heq
    rcases Nat.lt_or_gt_of_ne hne with hlt'' | hgt
    · have := hfile.pos_apart h2' hlt'' (by omega)
      omega
    · have := hfile.pos_apart (by omega) hgt (by omega)
      omega

end Read

/-- A read inside a file is right, whatever the clusters hold, exactly if it is straight. -/
theorem readsFile_iff_straight (hfile : IsFile v first length chain) (hcount : 1 ≤ count)
    (hin : offset + count ≤ length) :
    ReadsFile v first offset count ↔ ReadsStraight v chain offset count := by
  unfold ReadsStraight
  by_cases hlong : v.clusterSize < count
  · constructor
    · intro hread
      exact Or.inl (hread.of_long hfile hin hcount hlong)
    · intro hstraight
      rcases hstraight with ⟨hstart, hcount'⟩ | hshort | ⟨hle, -⟩
      · exact hfile.readsFile_boundary hin hcount hstart hlong hcount'
      · omega
      · omega
  · constructor
    · intro hread
      by_cases hout : v.clusterSize < offset % v.clusterSize + count
      · exact Or.inr (Or.inr ⟨not_lt.mp hlong, hread.of_short hfile hin hcount (not_lt.mp hlong) hout⟩)
      · exact Or.inr (Or.inl (not_lt.mp hout))
    · intro hstraight
      apply hfile.readsFile_one hin hcount (not_lt.mp hlong)
      rcases hstraight with ⟨hstart, -⟩ | hshort | ⟨-, hnext⟩
      · exact Or.inl (by omega)
      · exact Or.inl hshort
      · exact Or.inr hnext

/-- Both clusters of a file that are not next to each other are read. -/
theorem readsFile_two_clusters : ReadsFile smallVolume 3 0 1024 :=
  (readsFile_iff_straight (smallVolume_isFile le_rfl) (by decide) (by decide)).mpr
    (Or.inl ⟨rfl, by decide⟩)

/-- A read of 512 bytes from the second byte on has a byte of the wrong cluster. -/
theorem readsFile_fails_inside_cluster :
    IsFile smallVolume 3 1024 [3, 5] ∧ ¬ReadsFile smallVolume 3 1 512 := by
  refine ⟨smallVolume_isFile le_rfl, ?_⟩
  rw [readsFile_iff_straight (smallVolume_isFile le_rfl) (by decide) (by decide)]
  decide

end VkKernel.Fat32
