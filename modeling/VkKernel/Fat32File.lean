import VkKernel.Lib.IntervalUpdate
import VkKernel.Lib.PackedStruct
import VkKernel.Fat32
import VkKernel.Fat32Dirent

/-!
# FAT32 files

`fat32_write_file` and `fat32_read_file` over the bytes of a disk. Reads and writes of
the block layer are exact. A write begins in the cluster before a cluster boundary,
does not stop at the end of a cluster, and takes the same bytes of the buffer for every
cluster, so it is right if it stays in one cluster or goes on into the next cluster of
the disk.
-/

namespace VkKernel.Fat32
open ByteMemory PackedStruct IntervalUpdate Chains

structure Volume where
  bpbOffset : ℕ
  reservedSectors : ℕ
  fatsNumber : ℕ
  fatSize : ℕ
  bytesPerSector : ℕ
  sectorsPerCluster : ℕ
  fat : Fat
  disk : Mem

/-- `while(offset > cluster size)`: the rest of the offset, and the number of clusters. -/
def skipAbove (cs : ℕ) : ℕ → ℕ → ℕ → ℕ × ℕ
  | 0, offset, k => (offset, k)
  | fuel + 1, offset, k =>
    if offset > cs then skipAbove cs fuel (offset - cs) (k + 1) else (offset, k)

/-- `while(offset >= cluster size)`, along the list of clusters. -/
def skipFull (cs : ℕ) : ℕ → ℕ → List ℕ → ℕ × List ℕ
  | 0, offset, l => (offset, l)
  | fuel + 1, offset, l =>
    if offset ≥ cs then skipFull cs fuel (offset - cs) l.tail else (offset, l)

namespace Volume

def clusterSize (v : Volume) : ℕ := v.sectorsPerCluster * 512

/-- `fat32fs_cluster_to_lba`; the clusters of a file are not below 2. -/
def clusterToLba (v : Volume) (c : ℕ) : ℕ :=
  u32 (v.bpbOffset + v.reservedSectors + v.fatsNumber * v.fatSize + c * v.sectorsPerCluster) -
    2 * v.sectorsPerCluster

/-- The place of a cluster on the disk. -/
def pos (v : Volume) (c : ℕ) : ℕ := v.clusterToLba c * 512

/-- `fat32fs_write_fat` -/
def writeFat (v : Volume) : Volume :=
  { v with
    disk := overwrite v.disk ((v.bpbOffset + v.reservedSectors) * 512)
      (v.fatSize * v.bytesPerSector) fun i => UInt8.ofNat (v.fat.table (i / 4) / 256 ^ (i % 4)) }

/-- The part of `fat32_write_file` that expands the file. Only the first new cluster gets
into the list of clusters. -/
def expand (v : Volume) (chain : List ℕ) (neededClusters : ℕ) : Option (Volume × List ℕ) :=
  match v.fat.gmFreeClusters neededClusters, chain.getLast? with
  | some (fnc, fat), some last => some ({ v with fat := fat.set last fnc }.writeFat, chain ++ [fnc])
  | _, _ => none

/-- The loop of `fat32_write_file` over `n` clusters; behind the list there is no result. -/
def writeClusters (v : Volume) (count : ℕ) (buffer : Mem) : ℕ → ℕ → List ℕ → Option Volume
  | 0, _, _ => some v
  | _ + 1, _, [] => none
  | n + 1, offset, c :: rest =>
    { v with
      disk := overwrite v.disk (v.pos c + offset) (if n = 0 then count else v.clusterSize)
        buffer }.writeClusters count buffer n 0 rest

/-- The buffer with the entries is written back to the clusters of the directory. -/
def writeDirents (v : Volume) (m : Mem) : ℕ → List ℕ → Mem → Mem
  | _, [], disk => disk
  | p, c :: rest, disk =>
    v.writeDirents m (p + 32 * v.clusterSize) rest
      (overwrite disk (v.pos c) v.clusterSize (window m p))

/-- `fat32fs_update_dirent`: the bytes of the disk behind it. -/
def updateDirent (stamp : Stamp) (junk : Mem) (v : Volume) (dirCluster first length : ℕ) :
    Option Mem :=
  (v.fat.getClusterChain dirCluster).bind fun dir =>
    (readDirents v.clusterSize (dir.length * v.clusterSize) 0 junk
      (dir.map fun c => window v.disk (v.pos c))).bind fun m =>
      (findDirent m junk first (dir.length * v.clusterSize / 32) 0 none).map fun found =>
        found.elim v.disk fun i =>
          v.writeDirents (overwrite m (32 * i) 32 (stampEntry stamp length (window m (32 * i)))) 0
            dir v.disk

/-- `fat32_write_file` to the file of this first cluster and length. The result of
`fat32fs_update_dirent` is not looked at. -/
def writeFile (stamp : Stamp) (junk : Mem) (v : Volume)
    (dirCluster first length offset count : ℕ) (buffer : Mem) : Option Volume :=
  (v.fat.getClusterChain first).bind fun chain =>
    let (off, fclus) := skipAbove v.clusterSize offset offset 0
    let (cnt, lclus) := skipAbove v.clusterSize count count fclus
    let expanded := if lclus > chain.length then
        v.expand chain (if lclus - fclus = 0 then 1 else lclus - fclus)
      else some (v, chain)
    expanded.bind fun (v, chain) =>
      (v.writeClusters cnt buffer (lclus + 1 - fclus) off (chain.drop fclus)).bind fun v =>
        (if count + offset > length then
          v.updateDirent stamp junk dirCluster first (count + offset)
        else some v.disk).map fun disk => { v with disk := disk }

/-- The loop of `fat32_read_file`, from position `p` of the buffer on. -/
def readClusters (v : Volume) : ℕ → ℕ → ℕ → List ℕ → ℕ → Mem → Option Mem
  | 0, _, _, _, _, buffer => some buffer
  | cluss + 1, count, offset, l, p, buffer =>
    if count = 0 then some buffer
    else
      match l with
      | [] => none
      | c :: rest =>
        if count ≥ v.clusterSize then
          v.readClusters cluss (u32 (count - v.clusterSize)) 0 rest (p + v.clusterSize)
            (overwrite buffer p v.clusterSize (window v.disk (v.pos c + offset)))
        else some (overwrite buffer p count (window v.disk (v.pos c + offset)))

/-- `fat32_read_file` -/
def readFile (v : Volume) (first offset count : ℕ) (buffer : Mem) : Option Mem :=
  if count + offset < v.clusterSize then
    some (overwrite buffer 0 count (window v.disk (v.pos first + offset)))
  else
    (v.fat.getClusterChain first).bind fun chain =>
      let (off, clusbuffer) := skipFull v.clusterSize offset offset chain
      v.readClusters chain.length count off clusbuffer 0 buffer

/-- The byte of a file at a position. -/
def fileByte (v : Volume) (first p : ℕ) : Option UInt8 :=
  (v.fat.getClusterChain first).bind fun chain =>
    (chain[p / v.clusterSize]?).map fun c => v.disk (v.pos c + p % v.clusterSize)

end Volume

/-- A file with its chain on a volume that ends below sector 2 ^ 32. -/
structure IsFile (v : Volume) (first length : ℕ) (chain : List ℕ) : Prop where
  sectors : 1 ≤ v.sectorsPerCluster
  sectors_lt : v.bpbOffset + v.reservedSectors + v.fatsNumber * v.fatSize +
    (v.fat.size + 1) * v.sectorsPerCluster < 2 ^ 32
  isChain : IsChain v.fat.next first chain
  clusters : ∀ c ∈ chain, 2 ≤ c
  length_le : length ≤ chain.length * v.clusterSize

/-- The chain of another file. -/
def IsOther (v : Volume) (chain l : List ℕ) : Prop :=
  (∃ c, IsChain v.fat.next c l) ∧ (∀ x ∈ l, 2 ≤ x) ∧ l.Disjoint chain

/-- The attributes, times and length in entry `j` of a directory with these clusters. -/
def entryBytes (v : Volume) (dir : List ℕ) (j : ℕ) : Set ℕ :=
  {x | ∃ c k, dir[32 * j / v.clusterSize]? = some c ∧ Stamped k ∧
    x = v.pos c + 32 * j % v.clusterSize + k}

/-- The file has entry `j` in its directory, and no other file there has its first
cluster. -/
structure HasEntry (v : Volume) (first : ℕ) (chain : List ℕ) (dirCluster : ℕ) (dir : List ℕ)
    (records : List Record) (j : ℕ) : Prop where
  isChain : IsChain v.fat.next dirCluster dir
  isOther : IsOther v chain dir
  isDirectory : IsDirectory v.clusterSize (dir.map fun c => window v.disk (v.pos c)) records
  mem_files : ∃ f ∈ filesFrom 0 records, f.2.inode = first ∧ f.1 = j
  eq_of_mem : ∀ f ∈ filesFrom 0 records, f.2.inode = first → f.1 = j

/-- Whatever is written is read again, the rest of the file and other files stay as they
are, but for the entry of the file in its directory, and the chain is long enough. -/
def WritesThenReads (stamp : Stamp) (junk : Mem) (v : Volume) (dirCluster : ℕ) (dir : List ℕ)
    (j first length : ℕ) (chain : List ℕ) (offset count : ℕ) : Prop :=
  ∀ buffer, ∃ v',
    v.writeFile stamp junk dirCluster first length offset count buffer = some v' ∧
    (∀ out, ∃ out', v'.readFile first offset count out = some out' ∧ ∀ i < count, out' i = buffer i) ∧
    (∀ p < length, p < offset ∨ offset + count ≤ p → v'.fileByte first p = v.fileByte first p) ∧
    (∀ l, IsOther v chain l → ∀ x ∈ l, ∀ k < v.clusterSize, v.pos x + k ∉ entryBytes v dir j →
      v'.disk (v.pos x + k) = v.disk (v.pos x + k)) ∧
    ∃ chain', v'.fat.getClusterChain first = some chain' ∧
      offset + count ≤ chain'.length * v.clusterSize

/-- The cluster is in another file, or holds bytes of this file. -/
def Taken (v : Volume) (length : ℕ) (chain : List ℕ) (x : ℕ) : Prop :=
  (∃ k, chain[k]? = some x ∧ k * v.clusterSize < length) ∨ ∃ l, IsOther v chain l ∧ x ∈ l

/-- The place in the chain of the cluster in which a write begins. -/
def firstWritten (v : Volume) (offset : ℕ) : ℕ := (offset - 1) / v.clusterSize

/-- Where the write begins in this cluster. -/
def startOffset (v : Volume) (offset : ℕ) : ℕ := offset - firstWritten v offset * v.clusterSize

def startCluster (v : Volume) (chain : List ℕ) (offset : ℕ) : ℕ :=
  chain.getD (firstWritten v offset) 0

/-- The write has at most one cluster and does not need a new one. It stays in its
cluster, or the next cluster of the file is the next one of the disk, or nobody uses
this one and the write does not begin at a cluster boundary. -/
def WritesInPlace (v : Volume) (length : ℕ) (chain : List ℕ) (offset count : ℕ) : Prop :=
  count ≤ v.clusterSize ∧ offset + count ≤ chain.length * v.clusterSize ∧
    (startOffset v offset + count ≤ v.clusterSize ∨
      chain[firstWritten v offset + 1]? = some (startCluster v chain offset + 1) ∨
      offset % v.clusterSize ≠ 0 ∧ ¬Taken v length chain (startCluster v chain offset + 1))

/-! ## The loops over clusters -/

theorem skipAbove_eq {cs fuel offset k : ℕ} (hcs : 0 < cs) (hfuel : offset ≤ fuel) :
    skipAbove cs fuel offset k = (offset - (offset - 1) / cs * cs, k + (offset - 1) / cs) := by
  induction fuel generalizing offset k with
  | zero =>
    have h0 : offset = 0 := by omega
    rw [skipAbove, h0, Nat.zero_sub, Nat.zero_div, Nat.add_zero]
  | succ fuel ih =>
    rw [skipAbove]
    by_cases h : offset > cs
    · have hdiv : (offset - 1) / cs = (offset - cs - 1) / cs + 1 := by
        rw [show offset - 1 = offset - cs - 1 + cs by omega, Nat.add_div_right _ hcs]
      rw [if_pos h, ih (by omega), hdiv, Nat.add_mul, Nat.one_mul, Prod.mk.injEq]
      constructor <;> omega
    · rw [if_neg h, Nat.div_eq_of_lt (by omega), Nat.zero_mul, Nat.sub_zero, Nat.add_zero]

theorem skipFull_eq {cs fuel offset : ℕ} {l : List ℕ} (hcs : 0 < cs) (hfuel : offset ≤ fuel) :
    skipFull cs fuel offset l = (offset % cs, l.drop (offset / cs)) := by
  induction fuel generalizing offset l with
  | zero =>
    have h0 : offset = 0 := by omega
    rw [skipFull, h0, Nat.zero_mod, Nat.zero_div, List.drop_zero]
  | succ fuel ih =>
    rw [skipFull]
    by_cases h : offset ≥ cs
    · rw [if_pos h, ih (by omega), Nat.mod_eq_sub_mod h, Nat.div_eq_sub_div hcs h,
        ← List.drop_one, List.drop_drop, Nat.add_comm]
    · rw [if_neg h, Nat.mod_eq_of_lt (by omega), Nat.div_eq_of_lt (by omega), List.drop_zero]

/-! ## Places on the disk -/

/-- A cluster begins at a sector. -/
theorem pos_mod (v : Volume) (c : ℕ) : v.pos c % 32 = 0 := by
  unfold Volume.pos
  omega

section File
variable {v : Volume} {first length : ℕ} {chain : List ℕ} (hfile : IsFile v first length chain)
include hfile

theorem IsFile.clusterSize_pos : 0 < v.clusterSize := by
  have := hfile.sectors
  unfold Volume.clusterSize
  omega

theorem IsFile.pos_eq {c : ℕ} (h2 : 2 ≤ c) (hc : c ≤ v.fat.size) :
    v.pos c = (v.bpbOffset + v.reservedSectors + v.fatsNumber * v.fatSize) * 512 +
      (c - 2) * v.clusterSize := by
  obtain ⟨d, rfl⟩ := Nat.exists_eq_add_of_le h2
  have hlt := hfile.sectors_lt
  have hle : (2 + d) * v.sectorsPerCluster ≤ (v.fat.size + 1) * v.sectorsPerCluster :=
    Nat.mul_le_mul_right _ (by omega)
  have hsplit : (2 + d) * v.sectorsPerCluster = 2 * v.sectorsPerCluster + d * v.sectorsPerCluster :=
    Nat.add_mul ..
  unfold Volume.pos Volume.clusterToLba Volume.clusterSize
  rw [u32_of_lt (by omega), Nat.add_sub_cancel_left, ← Nat.mul_assoc, ← Nat.add_mul]
  congr 1
  omega

theorem IsFile.pos_succ {c : ℕ} (h2 : 2 ≤ c) (hc : c < v.fat.size) :
    v.pos (c + 1) = v.pos c + v.clusterSize := by
  rw [hfile.pos_eq (by omega) hc, hfile.pos_eq h2 (by omega), show c + 1 - 2 = c - 2 + 1 by omega]
  ring

/-- Different clusters are at different places. -/
theorem IsFile.pos_apart {c d : ℕ} (h2 : 2 ≤ c) (hcd : c < d) (hd : d ≤ v.fat.size) :
    v.pos c + v.clusterSize ≤ v.pos d := by
  rw [hfile.pos_eq h2 (by omega), hfile.pos_eq (by omega) hd, Nat.add_assoc]
  apply Nat.add_le_add_left
  calc (c - 2) * v.clusterSize + v.clusterSize = (c - 2 + 1) * v.clusterSize := by ring
    _ ≤ (d - 2) * v.clusterSize := Nat.mul_le_mul_right _ (by omega)

theorem IsFile.mem_bounds {c : ℕ} (hc : c ∈ chain) : 2 ≤ c ∧ c < v.fat.size :=
  ⟨hfile.clusters c hc, Fat.isChain_lt hfile.isChain hc⟩

/-- The write begins in a cluster of the file. -/
theorem IsFile.firstWritten_lt {offset : ℕ} (hoff : offset ≤ length) :
    firstWritten v offset < chain.length := by
  have hlen : 0 < chain.length := List.length_pos_of_mem hfile.isChain.mem_self
  have hcs := hfile.clusterSize_pos
  unfold firstWritten
  rw [Nat.div_lt_iff_lt_mul hcs]
  have hle := hfile.length_le
  have hpos : 0 < chain.length * v.clusterSize := Nat.mul_pos hlen hcs
  omega

end File

/-! ## Writes of at most one cluster -/

/-- The disk after the data has been written. -/
def written (v : Volume) (chain : List ℕ) (offset count : ℕ) (buffer : Mem) : Mem :=
  overwrite v.disk (v.pos (startCluster v chain offset) + startOffset v offset) count buffer

/-- The bytes of the disk when `fat32_write_file` returns. -/
def finalDisk (stamp : Stamp) (junk : Mem) (v : Volume)
    (dirCluster first length offset count : ℕ) (disk : Mem) : Option Mem :=
  if count + offset > length then
    { v with disk := disk }.updateDirent stamp junk dirCluster first (count + offset)
  else some disk

theorem writeFile_eq {v : Volume} {first length : ℕ} {chain : List ℕ}
    (hfile : IsFile v first length chain) {offset count : ℕ} (hoff : offset ≤ length)
    (hcount : 1 ≤ count) (hle : count ≤ v.clusterSize) (stamp : Stamp) (junk : Mem)
    (dirCluster : ℕ) (buffer : Mem) :
    v.writeFile stamp junk dirCluster first length offset count buffer =
      (finalDisk stamp junk v dirCluster first length offset count
        (written v chain offset count buffer)).map fun disk => { v with disk := disk } := by
  have hcs := hfile.clusterSize_pos
  have hf := hfile.firstWritten_lt hoff
  have hlast : (count - 1) / v.clusterSize = 0 := Nat.div_eq_of_lt (by omega)
  have hdrop : chain.drop (firstWritten v offset) =
      chain.getD (firstWritten v offset) 0 :: chain.drop (firstWritten v offset + 1) := by
    rw [List.drop_eq_getElem_cons hf, List.getD_eq_getElem _ _ hf]
  unfold Volume.writeFile
  rw [Fat.getClusterChain_of_isChain hfile.isChain, Option.bind_some, skipAbove_eq hcs le_rfl]
  dsimp only
  rw [skipAbove_eq hcs le_rfl, hlast]
  dsimp only
  have hstart : (offset - 1) / v.clusterSize = firstWritten v offset := rfl
  have hin : ¬firstWritten v offset > chain.length := by omega
  rw [Nat.zero_mul, Nat.sub_zero, Nat.zero_add, Nat.add_zero, hstart, if_neg hin, Option.bind_some]
  dsimp only
  rw [Nat.add_sub_cancel_left, hdrop, Volume.writeClusters, Volume.writeClusters, if_pos rfl,
    Option.bind_some]
  rfl

/-- A read of at most one cluster is one transfer. -/
theorem readFile_eq {v : Volume} {first length : ℕ} {chain : List ℕ}
    (hfile : IsFile v first length chain) (disk : Mem) {offset count : ℕ} (hcount : 1 ≤ count)
    (hle : count ≤ v.clusterSize) (hin : offset / v.clusterSize < chain.length) (out : Mem) :
    { v with disk := disk }.readFile first offset count out = some (overwrite out 0 count
      (window disk (v.pos (chain.getD (offset / v.clusterSize) 0) + offset % v.clusterSize))) := by
  have hcs := hfile.clusterSize_pos
  have hchain := Fat.getClusterChain_of_isChain hfile.isChain
  have hsize : { v with disk := disk }.clusterSize = v.clusterSize := rfl
  unfold Volume.readFile
  rw [hsize]
  by_cases hsmall : count + offset < v.clusterSize
  · -- the range lies in the first cluster
    have hdiv : offset / v.clusterSize = 0 := Nat.div_eq_of_lt (by omega)
    have hfirst : chain.getD 0 0 = first := by
      cases hfile.isChain with
      | last _ => rfl
      | cons _ _ => rfl
    rw [if_pos hsmall, hdiv, hfirst, Nat.mod_eq_of_lt (by omega)]
    rfl
  · have hdrop : chain.drop (offset / v.clusterSize) =
        chain.getD (offset / v.clusterSize) 0 :: chain.drop (offset / v.clusterSize + 1) := by
      rw [List.drop_eq_getElem_cons hin, List.getD_eq_getElem _ _ hin]
    obtain ⟨n, hn⟩ := Nat.exists_eq_succ_of_ne_zero (Nat.ne_zero_of_lt hin)
    rw [if_neg hsmall, hchain, Option.bind_some, skipFull_eq hcs le_rfl]
    dsimp only
    rw [hn, hdrop]
    unfold Volume.readClusters
    rw [if_neg (by omega), hsize]
    dsimp only
    by_cases hfull : count ≥ v.clusterSize
    · have heq : count = v.clusterSize := by omega
      rw [if_pos hfull, heq, Nat.sub_self]
      unfold Volume.readClusters
      cases n with
      | zero => rfl
      | succ n => exact if_pos rfl
    · rw [if_neg hfull]
      rfl

/-! ## Writes of more than one cluster -/

/-- Only the first bytes of the buffer are ever written. -/
theorem writeClusters_congr {v : Volume} {count n offset : ℕ} {l : List ℕ} {b b' : Mem}
    (hcount : count ≤ v.clusterSize) (h : ∀ i < v.clusterSize, b i = b' i) :
    v.writeClusters count b n offset l = v.writeClusters count b' n offset l := by
  induction n generalizing v offset l with
  | zero => rw [Volume.writeClusters, Volume.writeClusters]
  | succ n ih =>
    cases l with
    | nil => rw [Volume.writeClusters, Volume.writeClusters]
    | cons c rest =>
      rw [Volume.writeClusters, Volume.writeClusters]
      have hsame : ∀ i < (if n = 0 then count else v.clusterSize), b i = b' i := by
        intro i hi
        apply h
        split at hi
        · omega
        · exact hi
      rw [overwrite_congr hsame]
      exact ih hcount h

theorem expand_clusterSize {v w : Volume} {chain chain' : List ℕ} {n : ℕ}
    (h : v.expand chain n = some (w, chain')) : w.clusterSize = v.clusterSize := by
  unfold Volume.expand at h
  split at h
  · rw [Option.some.injEq, Prod.mk.injEq] at h
    rw [← h.1]
    rfl
  · cases h

theorem writeFile_congr {stamp : Stamp} {junk : Mem} {v : Volume}
    {dirCluster first length offset count : ℕ} {b b' : Mem} (hcs : 0 < v.clusterSize)
    (h : ∀ i < v.clusterSize, b i = b' i) :
    v.writeFile stamp junk dirCluster first length offset count b =
      v.writeFile stamp junk dirCluster first length offset count b' := by
  unfold Volume.writeFile
  congr 1
  funext chain
  rw [skipAbove_eq hcs le_rfl]
  dsimp only
  rw [skipAbove_eq hcs le_rfl]
  dsimp only
  have hlast : count - (count - 1) / v.clusterSize * v.clusterSize ≤ v.clusterSize := by
    have := Nat.lt_mul_div_succ (count - 1) hcs
    rw [Nat.mul_add, Nat.mul_one, Nat.mul_comm v.clusterSize] at this
    omega
  generalize hexp : (if 0 + (offset - 1) / v.clusterSize + (count - 1) / v.clusterSize > chain.length
    then _ else _ : Option (Volume × List ℕ)) = expanded
  cases expanded with
  | none => rfl
  | some result =>
    have hsize : result.1.clusterSize = v.clusterSize := by
      split at hexp
      · exact expand_clusterSize hexp
      · rw [← Option.some.inj hexp]
    have hlast' : count - (count - 1) / v.clusterSize * v.clusterSize ≤ result.1.clusterSize := by
      rw [hsize]
      exact hlast
    have h' : ∀ i < result.1.clusterSize, b i = b' i := by
      rw [hsize]
      exact h
    rw [Option.bind_some, Option.bind_some, writeClusters_congr hlast' h']

/-- If whatever is written is read again, the write has at most one cluster. -/
theorem count_le_of_reads {stamp : Stamp} {junk : Mem} {v : Volume}
    {dirCluster first length offset count : ℕ} (hcs : 0 < v.clusterSize)
    (h : ∀ buffer, ∃ v',
      v.writeFile stamp junk dirCluster first length offset count buffer = some v' ∧
        ∀ out, ∃ out', v'.readFile first offset count out = some out' ∧
          ∀ i < count, out' i = buffer i) :
    count ≤ v.clusterSize := by
  by_contra hlt
  -- two buffers that differ behind the first cluster are written alike
  obtain ⟨w, hw, hread⟩ := h fun _ => 0
  obtain ⟨w', hw', hread'⟩ := h fun i => if i = v.clusterSize then 1 else 0
  have hsame : v.writeFile stamp junk dirCluster first length offset count (fun _ => 0) =
      v.writeFile stamp junk dirCluster first length offset count
        (fun i => if i = v.clusterSize then 1 else 0) := by
    refine writeFile_congr hcs fun i hi => ?_
    rw [if_neg (by omega)]
  rw [hw, hw', Option.some.injEq] at hsame
  obtain ⟨out, hout, hzero⟩ := hread fun _ => 0
  obtain ⟨out', hout', hone⟩ := hread' fun _ => 0
  rw [hsame, hout', Option.some.injEq] at hout
  have h0 := hzero v.clusterSize (by omega)
  have h1 := hone v.clusterSize (by omega)
  rw [hout, h0, if_pos rfl] at h1
  cases h1

theorem WritesThenReads.count_le {stamp : Stamp} {junk : Mem} {v : Volume}
    {dirCluster j first length offset count : ℕ} {dir chain : List ℕ} (hcs : 0 < v.clusterSize)
    (h : WritesThenReads stamp junk v dirCluster dir j first length chain offset count) :
    count ≤ v.clusterSize := by
  apply count_le_of_reads hcs
  intro buffer
  obtain ⟨v', hv', hread, -⟩ := h buffer
  exact ⟨v', hv', hread⟩

/-! ## Where the bytes of a write are -/

/-- A byte of the range that is written. -/
theorem written_of_lt {v : Volume} {chain : List ℕ} {offset count i : ℕ} (hi : i < count)
    (buffer : Mem) :
    written v chain offset count buffer
      (v.pos (startCluster v chain offset) + startOffset v offset + i) = buffer i := by
  unfold written
  rw [overwrite_of_mem (by omega) (by omega), Nat.add_sub_cancel_left]

section Places
variable {v : Volume} {first length : ℕ} {chain : List ℕ} (hfile : IsFile v first length chain)
  {offset count : ℕ} (hoff : offset ≤ length)
include hfile hoff

theorem IsFile.startCluster_eq :
    chain[firstWritten v offset]? = some (startCluster v chain offset) := by
  have hf := hfile.firstWritten_lt hoff
  unfold startCluster
  rw [List.getElem?_eq_getElem hf, List.getD_eq_getElem _ _ hf]

theorem IsFile.startCluster_mem : startCluster v chain offset ∈ chain :=
  List.mem_of_getElem? (hfile.startCluster_eq hoff)

omit hoff in
/-- The offset is split at the last cluster boundary before it. -/
theorem IsFile.offset_eq (offset : ℕ) :
    offset = firstWritten v offset * v.clusterSize + startOffset v offset ∧
      startOffset v offset ≤ v.clusterSize ∧ (offset ≠ 0 → 0 < startOffset v offset) := by
  have hcs := hfile.clusterSize_pos
  have hle := Nat.div_mul_le_self (offset - 1) v.clusterSize
  have hlt := Nat.lt_mul_div_succ (offset - 1) hcs
  rw [Nat.mul_add, Nat.mul_one, Nat.mul_comm v.clusterSize] at hlt
  unfold startOffset firstWritten
  omega

omit hoff in
/-- Reads split the offset at the same place, but at cluster boundaries. -/
theorem IsFile.readPlace (offset : ℕ) :
    (offset % v.clusterSize ≠ 0 ∨ offset = 0) ∧ offset / v.clusterSize = firstWritten v offset ∧
        offset % v.clusterSize = startOffset v offset ∨
      (offset % v.clusterSize = 0 ∧ offset ≠ 0) ∧
        offset / v.clusterSize = firstWritten v offset + 1 ∧
        startOffset v offset = v.clusterSize := by
  have hcs := hfile.clusterSize_pos
  obtain ⟨heq, hle, hpos⟩ := hfile.offset_eq offset
  by_cases hfull : startOffset v offset = v.clusterSize
  · right
    have hmul : offset = (firstWritten v offset + 1) * v.clusterSize := by
      rw [Nat.add_mul, Nat.one_mul, ← hfull]
      rw [hfull] at heq ⊢
      exact heq
    have hpos' : 0 < (firstWritten v offset + 1) * v.clusterSize := Nat.mul_pos (by omega) hcs
    refine ⟨⟨?_, by omega⟩, ?_, hfull⟩
    · rw [hmul, Nat.mul_mod_left]
    · nth_rewrite 1 [hmul]
      exact Nat.mul_div_cancel _ hcs
  · left
    have hlt : startOffset v offset < v.clusterSize := by omega
    have hdiv : offset / v.clusterSize = firstWritten v offset := by
      nth_rewrite 1 [heq]
      rw [Nat.mul_comm, Nat.mul_add_div hcs, Nat.div_eq_of_lt hlt, Nat.add_zero]
    have hmod : offset % v.clusterSize = startOffset v offset := by
      nth_rewrite 1 [heq]
      rw [Nat.mul_comm, Nat.mul_add_mod, Nat.mod_eq_of_lt hlt]
    refine ⟨?_, hdiv, hmod⟩
    by_cases h0 : offset = 0
    · exact Or.inr h0
    · have := hpos h0
      exact Or.inl (by omega)

/-- The bytes of other clusters stay, but for the next cluster of the disk, into which a
write may go on. -/
theorem IsFile.written_other (hle : count ≤ v.clusterSize) {c k : ℕ} (h2 : 2 ≤ c)
    (hc : c < v.fat.size) (hk : k < v.clusterSize) (hne : c ≠ startCluster v chain offset)
    (hnext : c = startCluster v chain offset + 1 → startOffset v offset + count ≤ v.clusterSize + k)
    (buffer : Mem) :
    written v chain offset count buffer (v.pos c + k) = v.disk (v.pos c + k) := by
  obtain ⟨-, hstart, -⟩ := hfile.offset_eq offset
  obtain ⟨ha2, ha⟩ := hfile.mem_bounds (hfile.startCluster_mem hoff)
  apply overwrite_of_notMem
  by_cases hlt : c < startCluster v chain offset
  · have := hfile.pos_apart h2 hlt (by omega)
    omega
  · have hsucc := hfile.pos_succ ha2 ha
    by_cases heq : c = startCluster v chain offset + 1
    · have := hnext heq
      rw [heq]
      omega
    · have := hfile.pos_apart (c := startCluster v chain offset + 1) (d := c) (by omega) (by omega)
        (by omega)
      omega

end Places

/-! ## The entry in the directory -/

section Entry
variable {stamp : Stamp} {junk : Mem} {v : Volume} {dirCluster first length : ℕ}

theorem dvd_clusterSize (v : Volume) : 32 ∣ v.clusterSize := by
  unfold Volume.clusterSize
  omega

/-- The new bytes of an entry are the stamped ones. -/
theorem stampCluster_eq {disk m : Mem} {d cs i : ℕ} (hm : ∀ k < cs, m k = disk (d + k))
    {x : ℕ} (hx : ∀ k, Stamped k → x ≠ d + 32 * i + k) :
    overwrite disk d cs (overwrite m (32 * i) 32 (stampEntry stamp length (window m (32 * i)))) x =
      disk x := by
  by_cases hin : d ≤ x ∧ x < d + cs
  · have hold : m (x - d) = disk x := by
      rw [hm _ (by omega), Nat.add_sub_of_le hin.1]
    rw [overwrite_of_mem hin.1 hin.2]
    by_cases hentry : 32 * i ≤ x - d ∧ x - d < 32 * i + 32
    · have hk : ¬Stamped (x - d - 32 * i) := by
        intro hk
        exact hx _ hk (by omega)
      rw [overwrite_of_mem hentry.1 hentry.2, stampEntry_of_not_stamped hk]
      unfold window
      rw [Nat.add_sub_of_le hentry.1, hold]
    · rw [overwrite_of_notMem (by omega), hold]
  · exact overwrite_of_notMem (by omega)

/-- `fat32fs_update_dirent` in a directory of one cluster. -/
theorem updateDirent_single (stamp : Stamp) (junk : Mem) (first length : ℕ) {d : ℕ}
    (hdir : IsChain v.fat.next dirCluster [d]) (disk : Mem) :
    ∃ m, (∀ k < v.clusterSize, m k = disk (v.pos d + k)) ∧
      { v with disk := disk }.updateDirent stamp junk dirCluster first length =
        (findDirent m junk first (v.clusterSize / 32) 0 none).map fun found =>
          found.elim disk fun i => overwrite disk (v.pos d) v.clusterSize
            (overwrite m (32 * i) 32 (stampEntry stamp length (window m (32 * i)))) := by
  obtain ⟨m, hm, hcontent⟩ := readDirents_single v.clusterSize
    (show [window disk (v.pos d)].length = 1 from rfl) junk
  refine ⟨m, fun k hk => ?_, ?_⟩
  · rw [hcontent k hk]
    unfold content
    rw [Nat.div_eq_of_lt hk, Nat.mod_eq_of_lt hk]
    rfl
  · have hread : readDirents v.clusterSize ([d].length * v.clusterSize) 0 junk
        ([d].map fun c => window disk (v.pos c)) = some m := hm
    unfold Volume.updateDirent
    rw [Fat.getClusterChain_of_isChain hdir, Option.bind_some]
    change ((readDirents v.clusterSize ([d].length * v.clusterSize) 0 junk
      ([d].map fun c => window disk (v.pos c))).bind _) = _
    rw [hread, Option.bind_some, List.length_singleton, Nat.one_mul]
    have hzero : ∀ m : Mem, window m 0 = m := by
      intro m
      funext k
      unfold window
      rw [Nat.zero_add]
    congr 1
    funext found
    cases found with
    | none => rfl
    | some i =>
      change overwrite disk (v.pos d) v.clusterSize (window _ 0) = _
      rw [hzero]
      rfl

/-- `fat32fs_update_dirent` comes to an end only if the directory has one cluster. -/
theorem length_of_updateDirent {dir : List ℕ} (hdir : IsChain v.fat.next dirCluster dir)
    (hcs : 0 < v.clusterSize) {disk disk' : Mem}
    (h : { v with disk := disk }.updateDirent stamp junk dirCluster first length = some disk') :
    dir.length = 1 := by
  unfold Volume.updateDirent at h
  rw [Fat.getClusterChain_of_isChain hdir, Option.bind_some] at h
  obtain ⟨m, hm, -⟩ := Option.bind_eq_some_iff.mp h
  have hne : (dir.map fun c => window disk (v.pos c)) ≠ [] := by
    rw [ne_eq, List.map_eq_nil_iff]
    exact List.ne_nil_of_mem hdir.mem_self
  have hone := length_of_readDirents hcs hne (by
    rw [List.length_map]
    exact hm)
  rw [List.length_map] at hone
  exact hone

/-- Whatever is on the disk, `fat32fs_update_dirent` changes bytes of an entry of the
directory, and not the first one. -/
theorem updateDirent_keeps {dir : List ℕ} (hdir : IsChain v.fat.next dirCluster dir)
    (hcs : 0 < v.clusterSize) {disk disk' : Mem}
    (h : { v with disk := disk }.updateDirent stamp junk dirCluster first length = some disk')
    {x : ℕ} (hx : x % 32 = 0 ∨ ∀ d ∈ dir, x < v.pos d ∨ v.pos d + v.clusterSize ≤ x) :
    disk' x = disk x := by
  obtain ⟨d, rfl⟩ := List.length_eq_one_iff.mp (length_of_updateDirent hdir hcs h)
  obtain ⟨m, hm, heq⟩ := updateDirent_single stamp junk first length hdir disk
  rw [heq, Option.map_eq_some_iff] at h
  obtain ⟨found, hfound, hdisk⟩ := h
  cases found with
  | none => rw [← hdisk, Option.elim_none]
  | some i =>
    have hdvd := dvd_clusterSize v
    have hi := (findDirent_bounds hfound).2
    rw [← hdisk, Option.elim_some]
    refine stampCluster_eq hm fun k hk heq => ?_
    have hmod := pos_mod v d
    obtain h0 | hout := hx
    · unfold Stamped at hk
      omega
    · have := hout d (List.mem_singleton_self d)
      unfold Stamped at hk
      omega

/-- While the directory is as it was, the entry of the file is the one that changes. -/
theorem HasEntry.updateDirent {chain dir : List ℕ} {records : List Record} {j : ℕ}
    (h : HasEntry v first chain dirCluster dir records j) (hone : dir.length = 1) {disk : Mem}
    (hdisk : ∀ d ∈ dir, ∀ k < v.clusterSize, disk (v.pos d + k) = v.disk (v.pos d + k)) :
    ∃ disk', { v with disk := disk }.updateDirent stamp junk dirCluster first length = some disk' ∧
      ∀ x ∉ entryBytes v dir j, disk' x = disk x := by
  obtain ⟨d, rfl⟩ := List.length_eq_one_iff.mp hone
  obtain ⟨m, hm, heq⟩ := updateDirent_single stamp junk first length h.isChain disk
  obtain ⟨found, hfound, hentry⟩ := h.isDirectory.findDirent (m := m) rfl (fun k hk => by
    rw [hm k hk, hdisk d (List.mem_singleton_self d) k hk]
    unfold content
    rw [Nat.div_eq_of_lt hk, Nat.mod_eq_of_lt hk]
    rfl) junk first
  rw [heq, hfound, Option.map_some]
  refine ⟨_, rfl, fun x hx => ?_⟩
  cases found with
  | none => rw [Option.elim_none]
  | some i =>
    obtain ⟨f, hf, hinode, hfi⟩ := hentry i rfl
    have hij : i = j := hfi.symm.trans (h.eq_of_mem f hf hinode)
    have hdvd := dvd_clusterSize v
    have hi := (findDirent_bounds hfound).2
    rw [Option.elim_some]
    refine stampCluster_eq hm fun k hk heq => hx ⟨d, k, ?_, hk, ?_⟩
    · rw [← hij, Nat.div_eq_of_lt (by omega)]
      rfl
    · rw [← hij, Nat.mod_eq_of_lt (by omega)]
      exact heq

end Entry

section Main
variable {stamp : Stamp} {junk : Mem} {v : Volume} {dirCluster first length j : ℕ}
  {chain dir : List ℕ} {records : List Record} (hfile : IsFile v first length chain)
  (hentry : HasEntry v first chain dirCluster dir records j)
  {offset count : ℕ} (hoff : offset ≤ length) (hcount : 1 ≤ count)

include hfile in
/-- The clusters of the directory are at other places than those nobody or this file
has. -/
theorem IsFile.pos_other {l : List ℕ} (hl : IsOther v chain l) {c d k : ℕ} (h2 : 2 ≤ c)
    (hc : c ≤ v.fat.size) (hk : k < v.clusterSize) (hd : d ∈ l) (hcd : c ∉ l) :
    v.pos c + k < v.pos d ∨ v.pos d + v.clusterSize ≤ v.pos c + k := by
  have hd2 := hl.2.1 d hd
  obtain ⟨e, hchain⟩ := hl.1
  have hdlt := Fat.isChain_lt hchain hd
  have hne : c ≠ d := by
    intro heq
    rw [heq] at hcd
    exact hcd hd
  by_cases hless : c < d
  · have := hfile.pos_apart h2 hless (by omega)
    omega
  · have := hfile.pos_apart (c := d) (d := c) hd2 (by omega) hc
    omega

include hfile hentry in
/-- Outside the directory the bytes on the disk are those that have been written. -/
theorem HasEntry.finalDisk_eq {disk disk' : Mem}
    (h : finalDisk stamp junk v dirCluster first length offset count disk = some disk') {c k : ℕ}
    (h2 : 2 ≤ c) (hc : c ≤ v.fat.size) (hk : k < v.clusterSize) (hother : c ∉ dir) :
    disk' (v.pos c + k) = disk (v.pos c + k) := by
  unfold finalDisk at h
  split at h
  · exact updateDirent_keeps hentry.isChain hfile.clusterSize_pos h
      (Or.inr fun d hd => hfile.pos_other hentry.isOther h2 hc hk hd hother)
  · rw [Option.some.inj h]

include hfile hentry in
theorem HasEntry.finalDisk_own {disk disk' : Mem}
    (h : finalDisk stamp junk v dirCluster first length offset count disk = some disk') {c k : ℕ}
    (hc : c ∈ chain) (hk : k < v.clusterSize) : disk' (v.pos c + k) = disk (v.pos c + k) := by
  obtain ⟨h2, hlt⟩ := hfile.mem_bounds hc
  exact hentry.finalDisk_eq hfile h h2 hlt.le hk fun hdir => hentry.isOther.2.2 hdir hc

include hfile hentry in
/-- An entry does not begin with a byte that changes. -/
theorem HasEntry.finalDisk_first {disk disk' : Mem}
    (h : finalDisk stamp junk v dirCluster first length offset count disk = some disk') (c : ℕ) :
    disk' (v.pos c) = disk (v.pos c) := by
  unfold finalDisk at h
  split at h
  · exact updateDirent_keeps hentry.isChain hfile.clusterSize_pos h (Or.inl (pos_mod v c))
  · rw [Option.some.inj h]

theorem first_notMem_entryBytes (v : Volume) (dir : List ℕ) (j c : ℕ) :
    v.pos c ∉ entryBytes v dir j := by
  rintro ⟨d, k, -, hk, heq⟩
  have hc := pos_mod v c
  have hd := pos_mod v d
  have hmod : 32 * j % v.clusterSize % 32 = 0 := by
    rw [Nat.mod_mod_of_dvd _ (dvd_clusterSize v), Nat.mul_mod_right]
  unfold Stamped at hk
  omega

include hfile in
theorem IsFile.fileByte_eq (disk : Mem) {k r c : ℕ} (hk : chain[k]? = some c) (hr : r < v.clusterSize) :
    { v with disk := disk }.fileByte first (k * v.clusterSize + r) = some (disk (v.pos c + r)) := by
  have hcs := hfile.clusterSize_pos
  have hdiv : (k * v.clusterSize + r) / v.clusterSize = k := by
    rw [Nat.mul_comm, Nat.mul_add_div hcs, Nat.div_eq_of_lt hr, Nat.add_zero]
  have hmod : (k * v.clusterSize + r) % v.clusterSize = r := by
    rw [Nat.mul_comm, Nat.mul_add_mod, Nat.mod_eq_of_lt hr]
  have hsize : { v with disk := disk }.clusterSize = v.clusterSize := rfl
  unfold Volume.fileByte
  rw [Fat.getClusterChain_of_isChain hfile.isChain, Option.bind_some, hsize, hdiv, hmod, hk,
    Option.map_some]
  rfl

include hfile hoff hcount

/-- What the property says when the write has at most one cluster. -/
theorem writesThenReads_iff_of_le (hle : count ≤ v.clusterSize)
    (hin : offset / v.clusterSize < chain.length) :
    WritesThenReads stamp junk v dirCluster dir j first length chain offset count ↔
      ∀ buffer, ∃ disk', finalDisk stamp junk v dirCluster first length offset count
          (written v chain offset count buffer) = some disk' ∧
        (∀ i < count, disk' (v.pos (chain.getD (offset / v.clusterSize) 0) +
          offset % v.clusterSize + i) = buffer i) ∧
        (∀ k r c, chain[k]? = some c → r < v.clusterSize → k * v.clusterSize + r < length →
          k * v.clusterSize + r < offset ∨ offset + count ≤ k * v.clusterSize + r →
          disk' (v.pos c + r) = v.disk (v.pos c + r)) ∧
        (∀ l, IsOther v chain l → ∀ x ∈ l, ∀ k < v.clusterSize,
          v.pos x + k ∉ entryBytes v dir j → disk' (v.pos x + k) = v.disk (v.pos x + k)) ∧
        offset + count ≤ chain.length * v.clusterSize := by
  have hchain := Fat.getClusterChain_of_isChain hfile.isChain
  refine forall_congr' fun buffer => ?_
  rw [writeFile_eq hfile hoff hcount hle stamp junk dirCluster buffer]
  constructor
  · intro ⟨v', hv', hread, hbytes, hothers, chain', hchain', hlen⟩
    rw [Option.map_eq_some_iff] at hv'
    obtain ⟨disk', hdisk', rfl⟩ := hv'
    refine ⟨disk', hdisk', fun i hi => ?_, fun k r c hk hr hlt hout => ?_, hothers, ?_⟩
    · obtain ⟨out', hout', heq⟩ := hread fun _ => 0
      rw [readFile_eq hfile _ hcount hle hin, Option.some.injEq] at hout'
      rw [← heq i hi, ← hout', overwrite_of_mem (by omega) (by omega)]
      rfl
    · have hsame := hbytes _ hlt hout
      rw [hfile.fileByte_eq _ hk hr] at hsame
      have hold : v.fileByte first (k * v.clusterSize + r) = some (v.disk (v.pos c + r)) :=
        hfile.fileByte_eq v.disk hk hr
      rw [hold, Option.some.injEq] at hsame
      exact hsame
    · have heq : some chain = some chain' := hchain.symm.trans hchain'
      rw [Option.some.inj heq]
      exact hlen
  · intro ⟨disk', hdisk', hread, hbytes, hothers, hlen⟩
    refine ⟨{ v with disk := disk' }, ?_, fun out => ?_, fun p hp hout => ?_, hothers, chain, hchain,
      hlen⟩
    · rw [hdisk', Option.map_some]
    · refine ⟨_, readFile_eq hfile _ hcount hle hin out, fun i hi => ?_⟩
      rw [overwrite_of_mem (by omega) (by omega)]
      exact hread i hi
    · have hcs := hfile.clusterSize_pos
      have hp' : p / v.clusterSize < chain.length := by
        rw [Nat.div_lt_iff_lt_mul hcs]
        exact hp.trans_le hfile.length_le
      have hk : chain[p / v.clusterSize]? = some chain[p / v.clusterSize] :=
        List.getElem?_eq_getElem hp'
      have hr := Nat.mod_lt p hcs
      have hsplit : p / v.clusterSize * v.clusterSize + p % v.clusterSize = p := Nat.div_add_mod' ..
      have hold : v.fileByte first (p / v.clusterSize * v.clusterSize + p % v.clusterSize) =
          some (v.disk (v.pos chain[p / v.clusterSize] + p % v.clusterSize)) :=
        hfile.fileByte_eq v.disk hk hr
      have hnew := hfile.fileByte_eq disk' hk hr
      rw [hsplit] at hold hnew
      rw [hold, hnew, hbytes _ _ _ hk hr (hsplit.symm ▸ hp) (hsplit.symm ▸ hout)]

/-- A file that holds the data is long enough. -/
theorem WritesThenReads.fits (hle : count ≤ v.clusterSize)
    (h : WritesThenReads stamp junk v dirCluster dir j first length chain offset count) :
    offset + count ≤ chain.length * v.clusterSize := by
  obtain ⟨v', hv', -, -, -, chain', hchain', hlen⟩ := h fun _ => 0
  rw [writeFile_eq hfile hoff hcount hle, Option.map_eq_some_iff] at hv'
  obtain ⟨disk', -, rfl⟩ := hv'
  have heq : some chain = some chain' :=
    (Fat.getClusterChain_of_isChain hfile.isChain).symm.trans hchain'
  rw [Option.some.inj heq]
  exact hlen

include hentry in
/-- A write that makes the file longer comes to an end only if the directory has one
cluster. -/
theorem WritesThenReads.directory (hle : count ≤ v.clusterSize)
    (h : WritesThenReads stamp junk v dirCluster dir j first length chain offset count)
    (hlonger : length < offset + count) : dir.length = 1 := by
  obtain ⟨v', hv', -⟩ := h fun _ => 0
  rw [writeFile_eq hfile hoff hcount hle, Option.map_eq_some_iff] at hv'
  obtain ⟨disk', hdisk', -⟩ := hv'
  unfold finalDisk at hdisk'
  rw [if_pos (by omega)] at hdisk'
  exact length_of_updateDirent hentry.isChain hfile.clusterSize_pos hdisk'

omit hcount in
/-- A write that does not fit into its cluster goes on in the next cluster of the disk. -/
theorem IsFile.written_next (hlong : v.clusterSize < startOffset v offset + count) (buffer : Mem) :
    written v chain offset count buffer (v.pos (startCluster v chain offset + 1)) =
      buffer (v.clusterSize - startOffset v offset) := by
  obtain ⟨-, hstart, -⟩ := hfile.offset_eq offset
  obtain ⟨h2, hlt⟩ := hfile.mem_bounds (hfile.startCluster_mem hoff)
  have hplace : v.pos (startCluster v chain offset + 1) =
      v.pos (startCluster v chain offset) + startOffset v offset +
        (v.clusterSize - startOffset v offset) := by
    rw [hfile.pos_succ h2 hlt]
    omega
  rw [hplace]
  exact written_of_lt (by omega) buffer

include hentry

/-- A write at a cluster boundary that is not in the next cluster of the file. -/
theorem not_writesThenReads_of_boundary (hle : count ≤ v.clusterSize)
    (hlong : v.clusterSize < startOffset v offset + count) (hmod : offset % v.clusterSize = 0)
    (hnext : chain[firstWritten v offset + 1]? ≠ some (startCluster v chain offset + 1)) :
    ¬WritesThenReads stamp junk v dirCluster dir j first length chain offset count := by
  intro h
  have hcs := hfile.clusterSize_pos
  have hin : offset / v.clusterSize < chain.length := by
    rw [Nat.div_lt_iff_lt_mul hcs]
    have := h.fits hfile hoff hcount hle
    omega
  obtain ⟨hsmall, -, hstart⟩ | ⟨-, hdiv, -⟩ := hfile.readPlace offset
  · omega
  -- the cluster that is read is neither the one that is written nor the one behind it
  have hread : chain[offset / v.clusterSize]? = some chain[offset / v.clusterSize] :=
    List.getElem?_eq_getElem hin
  have hmem : chain[offset / v.clusterSize] ∈ chain := List.getElem_mem hin
  obtain ⟨h2, hlt⟩ := hfile.mem_bounds hmem
  have hne : chain[offset / v.clusterSize] ≠ startCluster v chain offset := by
    intro heq
    rw [heq] at hread
    have hsame := (List.getElem?_inj hin hfile.isChain.nodup).mp
      (hread.trans (hfile.startCluster_eq hoff).symm)
    omega
  have hne' : chain[offset / v.clusterSize] ≠ startCluster v chain offset + 1 := by
    intro heq
    rw [heq, hdiv] at hread
    exact hnext hread
  let buffer : Mem := fun _ => v.disk (v.pos chain[offset / v.clusterSize] + 0) + 1
  obtain ⟨disk', hdisk', hbytes, -⟩ :=
    (writesThenReads_iff_of_le hfile hoff hcount hle hin).mp h buffer
  have hbyte := hbytes 0 (by omega)
  rw [List.getD_eq_getElem _ _ hin, hmod, Nat.add_assoc, hentry.finalDisk_own hfile hdisk' hmem hcs,
    hfile.written_other hoff hle h2 hlt hcs hne (fun heq => absurd heq hne')] at hbyte
  exact left_ne_add.mpr (by decide) hbyte

/-- A write that goes on in a cluster that holds other data. -/
theorem not_writesThenReads_of_taken (hle : count ≤ v.clusterSize)
    (hlong : v.clusterSize < startOffset v offset + count)
    (hnext : chain[firstWritten v offset + 1]? ≠ some (startCluster v chain offset + 1))
    (htaken : Taken v length chain (startCluster v chain offset + 1)) :
    ¬WritesThenReads stamp junk v dirCluster dir j first length chain offset count := by
  intro h
  have hcs := hfile.clusterSize_pos
  have hin : offset / v.clusterSize < chain.length := by
    rw [Nat.div_lt_iff_lt_mul hcs]
    have := h.fits hfile hoff hcount hle
    omega
  obtain ⟨heq, hstart, -⟩ := hfile.offset_eq offset
  let buffer : Mem := fun _ => v.disk (v.pos (startCluster v chain offset + 1)) + 1
  obtain ⟨disk', hdisk', -, hbytes, hothers, -⟩ :=
    (writesThenReads_iff_of_le hfile hoff hcount hle hin).mp h buffer
  have hnew : disk' (v.pos (startCluster v chain offset + 1)) ≠
      v.disk (v.pos (startCluster v chain offset + 1)) := by
    rw [hentry.finalDisk_first hfile hdisk', hfile.written_next hoff hlong]
    exact (left_ne_add.mpr (by decide)).symm
  obtain ⟨k, hk, hlt⟩ | ⟨l, hl, hmem⟩ := htaken
  · -- the cluster of the file has a place other than the two the range is in
    have hkf : k ≠ firstWritten v offset := by
      intro hkf
      rw [hkf, hfile.startCluster_eq hoff, Option.some.injEq] at hk
      omega
    have hkf' : k ≠ firstWritten v offset + 1 := by
      intro hkf
      rw [hkf] at hk
      exact hnext hk
    have hout : k * v.clusterSize + 0 < offset ∨ offset + count ≤ k * v.clusterSize + 0 := by
      by_cases hless : k < firstWritten v offset
      · left
        have hmul : (k + 1) * v.clusterSize ≤ firstWritten v offset * v.clusterSize :=
          Nat.mul_le_mul_right _ hless
        rw [Nat.add_mul] at hmul
        omega
      · right
        have hmul : (firstWritten v offset + 2) * v.clusterSize ≤ k * v.clusterSize :=
          Nat.mul_le_mul_right _ (by omega)
        rw [Nat.add_mul] at hmul
        omega
    have hsame := hbytes k 0 _ hk hcs hlt hout
    rw [Nat.add_zero] at hsame
    exact hnew hsame
  · have hsame := hothers l hl _ hmem 0 hcs
    rw [Nat.add_zero] at hsame
    exact hnew (hsame (first_notMem_entryBytes v dir j _))

omit hentry in
/-- The bytes that are read are the ones that were written. -/
theorem WritesInPlace.place (h : WritesInPlace v length chain offset count) (i : ℕ) :
    v.pos (chain.getD (offset / v.clusterSize) 0) + offset % v.clusterSize + i =
      v.pos (startCluster v chain offset) + startOffset v offset + i := by
  obtain ⟨-, hdiv, hmod⟩ | ⟨⟨hmod, -⟩, hdiv, hstart⟩ := hfile.readPlace offset
  · rw [hdiv, hmod]
    rfl
  · -- at a cluster boundary the next cluster of the file is the next one of the disk
    have hnext : chain[firstWritten v offset + 1]? = some (startCluster v chain offset + 1) := by
      obtain ⟨-, -, hone | hnext | ⟨hne, -⟩⟩ := h
      · omega
      · exact hnext
      · exact absurd hmod hne
    obtain ⟨h2, hlt⟩ := hfile.mem_bounds (hfile.startCluster_mem hoff)
    rw [hdiv, List.getD_eq_getElem?_getD, hnext, Option.getD_some, hfile.pos_succ h2 hlt, hmod,
      hstart, Nat.add_zero]

omit hcount in
/-- The data of the write is outside the directory. -/
theorem WritesInPlace.finalDisk_eq (h : WritesInPlace v length chain offset count)
    {disk disk' : Mem}
    (hdisk : finalDisk stamp junk v dirCluster first length offset count disk = some disk') {i : ℕ}
    (hi : i < count) :
    disk' (v.pos (startCluster v chain offset) + startOffset v offset + i) =
      disk (v.pos (startCluster v chain offset) + startOffset v offset + i) := by
  have hmem := hfile.startCluster_mem hoff
  obtain ⟨-, hstart, -⟩ := hfile.offset_eq offset
  obtain ⟨h2, hlt⟩ := hfile.mem_bounds hmem
  obtain ⟨hle, -, hwhere⟩ := h
  by_cases hin : startOffset v offset + i < v.clusterSize
  · rw [Nat.add_assoc]
    exact hentry.finalDisk_own hfile hdisk hmem hin
  · have hplace : v.pos (startCluster v chain offset) + startOffset v offset + i =
        v.pos (startCluster v chain offset + 1) + (startOffset v offset + i - v.clusterSize) := by
      rw [hfile.pos_succ h2 hlt]
      omega
    rw [hplace]
    obtain hone | hnext | ⟨-, hfree⟩ := hwhere
    · omega
    · exact hentry.finalDisk_own hfile hdisk (List.mem_of_getElem? hnext) (by omega)
    · exact hentry.finalDisk_eq hfile hdisk (by omega) hlt (by omega) fun hx =>
        hfree (Or.inr ⟨dir, hentry.isOther, hx⟩)

omit hentry hcount in
/-- The other bytes of the file stay as they are. -/
theorem WritesInPlace.own (h : WritesInPlace v length chain offset count) {k r c : ℕ}
    (hk : chain[k]? = some c) (hr : r < v.clusterSize) (hlt : k * v.clusterSize + r < length)
    (hout : k * v.clusterSize + r < offset ∨ offset + count ≤ k * v.clusterSize + r)
    (buffer : Mem) : written v chain offset count buffer (v.pos c + r) = v.disk (v.pos c + r) := by
  have hnodup := hfile.isChain.nodup
  obtain ⟨hsplit, hstart, -⟩ := hfile.offset_eq offset
  obtain ⟨h2, hc⟩ := hfile.mem_bounds (List.mem_of_getElem? hk)
  obtain ⟨hklt, -⟩ := List.getElem?_eq_some_iff.mp hk
  obtain ⟨hle, -, hwhere⟩ := h
  by_cases hself : c = startCluster v chain offset
  · have hkf : k = firstWritten v offset := by
      apply (List.getElem?_inj hklt hnodup).mp
      rw [hk, hfile.startCluster_eq hoff, hself]
    rw [hkf] at hout
    rw [hself]
    apply overwrite_of_notMem
    omega
  · apply hfile.written_other hoff hle h2 hc hr hself
    intro hnext
    obtain hone | hcontiguous | ⟨-, hfree⟩ := hwhere
    · omega
    · have hkf : k = firstWritten v offset + 1 := by
        apply (List.getElem?_inj hklt hnodup).mp
        rw [hk, hcontiguous, hnext]
      rw [hkf, Nat.add_mul] at hout
      omega
    · rw [← hnext] at hfree
      exact absurd (Or.inl ⟨k, hk, by omega⟩) hfree

omit hentry hcount in
/-- The bytes of other files stay as they are. -/
theorem WritesInPlace.other (h : WritesInPlace v length chain offset count) {l : List ℕ}
    (hl : IsOther v chain l) {x k : ℕ} (hx : x ∈ l) (hk : k < v.clusterSize) (buffer : Mem) :
    written v chain offset count buffer (v.pos x + k) = v.disk (v.pos x + k) := by
  obtain ⟨⟨c, hc⟩, h2, hdisjoint⟩ := id hl
  obtain ⟨hle, -, hwhere⟩ := h
  have hself : x ≠ startCluster v chain offset := by
    intro hself
    rw [hself] at hx
    exact hdisjoint hx (hfile.startCluster_mem hoff)
  apply hfile.written_other hoff hle (h2 x hx) (Fat.isChain_lt hc hx) hk hself
  intro hnext
  obtain hone | hcontiguous | ⟨-, hfree⟩ := hwhere
  · omega
  · rw [← hnext] at hcontiguous
    exact absurd (List.mem_of_getElem? hcontiguous) (hdisjoint hx)
  · rw [← hnext] at hfree
    exact absurd (Or.inr ⟨l, hl, hx⟩) hfree

omit hcount in
/-- A write in place leaves the directory to `fat32fs_update_dirent`. -/
theorem WritesInPlace.exists_finalDisk (h : WritesInPlace v length chain offset count)
    (hdir : length < offset + count → dir.length = 1) (buffer : Mem) :
    ∃ disk', finalDisk stamp junk v dirCluster first length offset count
        (written v chain offset count buffer) = some disk' ∧
      ∀ x ∉ entryBytes v dir j, disk' x = written v chain offset count buffer x := by
  unfold finalDisk
  split
  · exact hentry.updateDirent (hdir (by omega)) fun d hd k hk =>
      h.other hfile hoff hentry.isOther hd hk buffer
  · exact ⟨_, rfl, fun _ _ => rfl⟩

/-- A write through `fat32_write_file` is read again by `fat32_read_file` and changes
nothing else exactly if it is a write in place and, when the file gets longer, its
directory has one cluster. -/
theorem writesThenReads_iff :
    WritesThenReads stamp junk v dirCluster dir j first length chain offset count ↔
      WritesInPlace v length chain offset count ∧ (length < offset + count → dir.length = 1) := by
  have hcs := hfile.clusterSize_pos
  constructor
  · intro h
    have hle := h.count_le hcs
    refine ⟨⟨hle, h.fits hfile hoff hcount hle, ?_⟩, h.directory hfile hentry hoff hcount hle⟩
    by_cases hone : startOffset v offset + count ≤ v.clusterSize
    · exact Or.inl hone
    by_cases hnext : chain[firstWritten v offset + 1]? = some (startCluster v chain offset + 1)
    · exact Or.inr (Or.inl hnext)
    refine Or.inr (Or.inr ⟨fun hmod => ?_, fun htaken => ?_⟩)
    · exact not_writesThenReads_of_boundary hfile hentry hoff hcount hle (by omega) hmod hnext h
    · exact not_writesThenReads_of_taken hfile hentry hoff hcount hle (by omega) hnext htaken h
  · intro ⟨h, hdir⟩
    have hin : offset / v.clusterSize < chain.length := by
      rw [Nat.div_lt_iff_lt_mul hcs]
      have := h.2.1
      omega
    rw [writesThenReads_iff_of_le hfile hoff hcount h.1 hin]
    intro buffer
    obtain ⟨disk', hdisk', hrest⟩ := h.exists_finalDisk hfile hentry hoff hdir buffer
    refine ⟨disk', hdisk', fun i hi => ?_, fun k r c hk hr hlt hout => ?_,
      fun l hl x hx k hk hentry' => ?_, h.2.1⟩
    · rw [h.place hfile hoff hcount, h.finalDisk_eq hfile hentry hoff hdisk' hi]
      exact written_of_lt hi buffer
    · rw [hentry.finalDisk_own hfile hdisk' (List.mem_of_getElem? hk) hr]
      exact h.own hfile hoff hk hr hlt hout buffer
    · rw [hrest _ hentry']
      exact h.other hfile hoff hl hx hk buffer

end Main

/-! ## A small volume -/

/-- The part of a long name in front of the entry of a file. -/
def smallPart : Mem := fun k => if k = 0 then 0x41 else if k = 11 then 0x0F else 0

/-- The 8.3 entry of a file that begins in cluster 3. -/
def smallDirent : Mem := fun k => if k < 11 then 0x41 else if k = 26 then 3 else 0

/-- Clusters of one sector: a directory in cluster 2, and a file in the clusters 3
and 5. -/
def smallVolume : Volume where
  bpbOffset := 0
  reservedSectors := 1
  fatsNumber := 1
  fatSize := 1
  bytesPerSector := 512
  sectorsPerCluster := 1
  fat := { size := 8, table := fun c => if c = 3 then 5 else if c < 6 then 0x0FFFFFFF else 0 }
  disk x := if x < 1024 then 0 else if x < 1056 then smallPart (x - 1024)
    else if x < 1088 then smallDirent (x - 1056) else 0

theorem smallVolume_isFile {length : ℕ} (h : length ≤ 1024) :
    IsFile smallVolume 3 length [3, 5] where
  sectors := by decide
  sectors_lt := by decide
  isChain := .cons (by decide) (.last (by decide))
  clusters := by decide
  length_le := h

theorem smallVolume_hasEntry :
    HasEntry smallVolume 3 [3, 5] 2 [2] [.file [smallPart] smallDirent] 1 where
  isChain := .last (by decide)
  isOther := ⟨⟨2, .last (by decide)⟩, by decide, by simp⟩
  isDirectory := by
    refine ⟨⟨1, le_rfl, rfl⟩, List.cons_ne_nil _ _, fun r hr => ?_, by decide, fun i hi k hk => ?_,
      fun _ => by decide⟩
    · rw [List.mem_singleton.mp hr]
      refine ⟨by decide, by decide, fun k hk => ?_⟩
      have hk0 : k = 0 := Nat.lt_one_iff.mp hk
      subst hk0
      exact ⟨rfl, rfl⟩
    · have hi2 : i < 2 := hi
      have hkeep : ∀ x < 64, content 512 [window smallVolume.disk 1024] x =
          if x < 32 then smallPart x else smallDirent (x - 32) := by decide
      interval_cases i
      · refine (hkeep (32 * 0 + k) (by omega)).trans ?_
        rw [if_pos (by omega), Nat.mul_zero, Nat.zero_add]
        rfl
      · refine (hkeep (32 + k) (by omega)).trans ?_
        rw [if_neg (by omega), Nat.add_sub_cancel_left]
        rfl
  mem_files := ⟨_, List.mem_singleton_self _, by decide, rfl⟩
  eq_of_mem := by
    intro f hf _
    rw [List.mem_singleton.mp hf]
    rfl

/-- Twenty bytes behind the end of a file of 600 bytes. -/
theorem writesThenReads_small :
    IsFile smallVolume 3 600 [3, 5] ∧
      ∀ stamp junk, WritesThenReads stamp junk smallVolume 2 [2] 1 3 600 [3, 5] 600 20 := by
  have hfile : IsFile smallVolume 3 600 [3, 5] := smallVolume_isFile (by omega)
  refine ⟨hfile, fun stamp junk => ?_⟩
  rw [writesThenReads_iff hfile smallVolume_hasEntry le_rfl (by omega)]
  exact ⟨⟨by decide, by decide, Or.inl (by decide)⟩, fun _ => rfl⟩

/-- A write of 513 bytes at the start of a file with two clusters: the second cluster gets
the first byte of the buffer. -/
theorem writesThenReads_fails_two_clusters :
    IsFile smallVolume 3 1024 [3, 5] ∧
      HasEntry smallVolume 3 [3, 5] 2 [2] [.file [smallPart] smallDirent] 1 ∧
      (smallVolume.writeFile ⟨false, false, 0, 0, 0, 0, 0⟩ (fun _ => 0) 2 3 1024 0 513
        (fun i => if i = 512 then 1 else 0)).bind (fun v' =>
          (v'.readFile 3 0 513 fun _ => 0).map fun out => out 512) = some 0 ∧
      ∀ stamp junk, ¬WritesThenReads stamp junk smallVolume 2 [2] 1 3 1024 [3, 5] 0 513 := by
  refine ⟨smallVolume_isFile le_rfl, smallVolume_hasEntry, by decide +kernel, fun stamp junk h => ?_⟩
  have hle : 513 ≤ 512 := h.count_le (by decide)
  omega

end VkKernel.Fat32
