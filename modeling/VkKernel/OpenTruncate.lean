import VkKernel.Ext2Write
import VkKernel.Fat32File

/-!
# Opening a file for writing

`open_file` empties a file by writing zeroes over it and then setting the length of its node
to 0. The write goes through the new descriptor, so the descriptor is left where the file used
to end, unless the file was empty or could not be written.
-/

namespace VkKernel.Vfs
open ByteMemory Fat32 Chains

/-- A regular file, with the volume that it is on. -/
inductive RegularFile
  | fat32 (v : Volume) (dirCluster first length : ℕ)
  | ext2 (fs : Ext2.Fs) (disk : Mem) (node : Ext2.Node)

/-- What the calls find beside the volume: the time and the old content of the heap for FAT32, the
block layer, the heap and the freed tables for ext2. -/
structure Env where
  stamp : Stamp
  junk : Mem
  B : BlockLayer
  heap : Mem
  stale : ℕ → ℕ → ℕ → ℕ

namespace RegularFile
variable (env : Env)

def length : RegularFile → ℕ
  | .fat32 _ _ _ length => length
  | .ext2 _ _ node => node.length

/-- `file->length = 0` -/
def clearLength : RegularFile → RegularFile
  | .fat32 v dirCluster first _ => .fat32 v dirCluster first 0
  | .ext2 fs disk node => .ext2 fs disk (node.setLength 0)

/-- The switch of `write_file`: `fat32_write_file` and `ext2_write_file`. -/
def write (offset count : ℕ) (buffer : Mem) : RegularFile → Option (ErrorT × RegularFile)
  | .fat32 v dirCluster first length =>
    (v.writeFile env.stamp env.junk dirCluster first length offset count buffer).map fun v =>
      (.none, .fat32 v dirCluster first (if count + offset > length then count + offset else length))
  | .ext2 fs disk node =>
    if count > 2 ^ 32 - 1 then some (.fileOut, .ext2 fs disk node)
    else
      let r := Ext2.writeContent env.B buffer env.heap fs disk node (u32 offset) (u32 count)
      some (r.error, .ext2 { fs with superblock := r.superblock } r.disk r.node)

/-- `write_file` to a descriptor at this offset, with the offset behind it. -/
def writeFile (offset count : ℕ) (buffer : Mem) (f : RegularFile) :
    Option (ErrorT × RegularFile × ℕ) :=
  if count = 0 then some (.none, f, offset)
  else
    (f.write env offset count buffer).map fun r =>
      (r.1, r.2, if r.1 = .none then (offset + count) % 2 ^ 64 else offset)

/-- The buffer of `open_file`: as many zeroes as 32 bits of the length say. -/
def zeroBuffer (f : RegularFile) : Mem := fun i => if i < u32 f.length then 0 else env.heap i

/-- `open_file` with `OPEN_MODE_W` or `OPEN_MODE_WP`, once the node is found: the file, and the
offset of the descriptor. -/
def openWrite (f : RegularFile) : Option (RegularFile × ℕ) :=
  (f.writeFile env 0 f.length (f.zeroBuffer env)).map fun r => (r.2.1.clearLength, r.2.2)

/-- The switch of `read_file`: `fat32_read_file` and `ext2_read_file`. -/
def read (offset count : ℕ) (buffer : Mem) : RegularFile → Option (ErrorT × Mem)
  | .fat32 v _ first _ => (v.readFile first offset count buffer).map fun m => (.none, m)
  | .ext2 fs disk node => Ext2.readFile env.B fs disk env.stale node offset count buffer

/-- `read_file` from the start of the file. -/
def readFile (count : ℕ) (buffer : Mem) (f : RegularFile) : Option (ErrorT × Mem) :=
  let count := if f.length ≠ 0 ∧ count % 2 ^ 64 > f.length then f.length else count
  if count = 0 then some (.none, Function.update buffer 0 0) else f.read env 0 count buffer

/-- Whatever data of this length is written to the descriptor of the opened file, the file has
this length then and the data is read again. The file that is opened again has the same node,
which is in the cache. -/
def Takes (count : ℕ) (f : RegularFile) : Prop :=
  ∀ buffer, ∃ f' offset, f.writeFile env 0 count buffer = some (.none, f', offset) ∧
    f'.length = count ∧ ∀ out, ∃ out', f'.readFile env count out = some (.none, out') ∧
      ∀ i < count, out' i = buffer i

/-- The descriptor is at offset 0 of an empty file, and the data written to it is the file. -/
def Truncates (count : ℕ) (f : RegularFile) : Prop :=
  ∃ f', f.openWrite env = some (f', 0) ∧ f'.length = 0 ∧ f'.Takes env count

/-- A FAT32 file has its chain and its entry in a directory. -/
def WellFormed : RegularFile → Prop
  | .fat32 v dirCluster first length => length < 2 ^ 32 ∧ ∃ chain dir records j,
      IsFile v first length chain ∧ HasEntry v first chain dirCluster dir records j
  | .ext2 .. => True

/-- The write of the zeroes to a file of an ext2 volume. -/
def zeroed (fs : Ext2.Fs) (disk : Mem) (node : Ext2.Node) : Ext2.WriteResult :=
  Ext2.writeContent env.B (zeroBuffer env (.ext2 fs disk node)) env.heap fs disk node 0 node.length

/-- `ext2_inode_write_content` to the empty file and `ext2_inode_read_content` of it carry the
data. -/
def Stores (count : ℕ) (fs : Ext2.Fs) (disk : Mem) (node : Ext2.Node) : Prop :=
  count < 2 ^ 32 ∧ ∀ buffer,
    let r := Ext2.writeContent env.B buffer env.heap fs disk (node.setLength 0) 0 count
    r.error = .none ∧ r.node.length = count ∧
      ∀ out, ∃ out', Ext2.readContent env.B { fs with superblock := r.superblock } r.disk env.stale
          r.node 0 count out = some (.none, out') ∧
        ∀ i < count, out' i = buffer i

/-- When a file is emptied and takes the data. On FAT32 it has to be empty before, the data fits
into a cluster, and the directory, in which the length changes, has one cluster. On ext2 it has to
be empty before, or the zeroes are refused: for their number, or by `ext2_inode_write_content`. -/
def Empties (count : ℕ) : RegularFile → Prop
  | .fat32 v dirCluster _ length => length = 0 ∧ count ≤ v.clusterSize ∧
      (0 < count → ∀ dir, v.fat.getClusterChain dirCluster = some dir → dir.length = 1)
  | .ext2 fs disk node =>
    if node.length = 0 ∨ 2 ^ 32 ≤ node.length then count = 0 ∨ Stores env count fs disk node
    else
      let r := zeroed env fs disk node
      r.error ≠ .none ∧
        (count = 0 ∨ Stores env count { fs with superblock := r.superblock } r.disk r.node)

variable {env : Env} {count : ℕ}

/-! ## Opening -/

@[simp] theorem length_clearLength (f : RegularFile) : f.clearLength.length = 0 := by
  cases f with
  | fat32 v dirCluster first length => rfl
  | ext2 fs disk node => exact Nat.zero_mod _

/-- The data is carried over to what `open_file` leaves. -/
theorem truncates_iff_takes {f f' : RegularFile} (h : f.openWrite env = some (f', 0))
    (hlength : f'.length = 0) : f.Truncates env count ↔ f'.Takes env count := by
  constructor
  · rintro ⟨g, hg, -, htakes⟩
    rw [h, Option.some.injEq, Prod.mk.injEq] at hg
    exact hg.1 ▸ htakes
  · exact fun htakes => ⟨f', h, hlength, htakes⟩

theorem openWrite_of_empty {f : RegularFile} (h : f.length = 0) :
    f.openWrite env = some (f.clearLength, 0) := by
  unfold openWrite writeFile
  rw [if_pos h]
  rfl

/-- The zeroes that a file system takes move the descriptor. -/
theorem not_truncates_of_written {f : RegularFile} (hpos : f.length ≠ 0) (hlt : f.length < 2 ^ 64)
    (h : ∀ e f', f.write env 0 f.length (f.zeroBuffer env) = some (e, f') → e = .none) :
    ¬f.Truncates env count := by
  rintro ⟨f', hopen, -, -⟩
  unfold openWrite writeFile at hopen
  rw [if_neg hpos, Option.map_map, Option.map_eq_some_iff] at hopen
  obtain ⟨⟨e, g⟩, hwrite, hresult⟩ := hopen
  rw [Function.comp_apply, Prod.mk.injEq] at hresult
  dsimp only at hresult
  rw [if_pos (h e g hwrite)] at hresult
  omega

/-- The zeroes that a file system refuses leave the descriptor where it is. -/
theorem openWrite_of_refused {f f' : RegularFile} {e : ErrorT} (hpos : f.length ≠ 0)
    (h : f.write env 0 f.length (f.zeroBuffer env) = some (e, f')) (he : e ≠ .none) :
    f.openWrite env = some (f'.clearLength, 0) := by
  unfold openWrite writeFile
  rw [if_neg hpos, h, Option.map_some, Option.map_some]
  dsimp only
  rw [if_neg he]

/-! ## ext2 -/

/-- A request for the whole file is not cut off. -/
theorem readFile_of_length {f : RegularFile} (h : f.length = count) (hlt : count < 2 ^ 64)
    (out : Mem) : f.readFile env count out =
      if count = 0 then some (.none, Function.update out 0 0) else f.read env 0 count out := by
  have hcount : (if f.length ≠ 0 ∧ count % 2 ^ 64 > f.length then f.length else count) = count := by
    rw [h, Nat.mod_eq_of_lt hlt]
    simp
  unfold readFile
  rw [hcount]

theorem takes_zero {f : RegularFile} (h : f.length = 0) : f.Takes env 0 := by
  intro buffer
  refine ⟨f, 0, if_pos rfl, h, fun out => ⟨Function.update out 0 0, ?_, fun i hi => ?_⟩⟩
  · rw [readFile_of_length h (by norm_num)]
    exact if_pos rfl
  · omega

/-- For a length that is not 0, `write_file` and `read_file` add nothing to the functions of the
file system. -/
theorem takes_iff_of_pos {f : RegularFile} (h : 0 < count) (hlt : count < 2 ^ 64) :
    f.Takes env count ↔ ∀ buffer, ∃ f', f.write env 0 count buffer = some (.none, f') ∧
      f'.length = count ∧ ∀ out, ∃ out', f'.read env 0 count out = some (.none, out') ∧
        ∀ i < count, out' i = buffer i := by
  apply forall_congr'
  intro buffer
  have hread : ∀ f' : RegularFile, f'.length = count → ∀ out,
      f'.readFile env count out = f'.read env 0 count out := by
    intro f' hf' out
    rw [readFile_of_length hf' hlt]
    exact if_neg h.ne'
  unfold writeFile
  rw [if_neg h.ne']
  constructor
  · rintro ⟨f', offset, hwrite, hlength, hout⟩
    rw [Option.map_eq_some_iff] at hwrite
    obtain ⟨⟨e, g⟩, hwrite, hresult⟩ := hwrite
    dsimp only at hresult
    rw [Prod.mk.injEq, Prod.mk.injEq] at hresult
    obtain ⟨rfl, rfl, -⟩ := hresult
    refine ⟨g, hwrite, hlength, fun out => ?_⟩
    rw [← hread g hlength out]
    exact hout out
  · rintro ⟨f', hwrite, hlength, hout⟩
    refine ⟨f', (0 + count) % 2 ^ 64, ?_, hlength, fun out => ?_⟩
    · rw [hwrite, Option.map_some]
      rfl
    · rw [hread f' hlength out]
      exact hout out

theorem takes_ext2_iff (fs : Ext2.Fs) (disk : Mem) (node : Ext2.Node) (hlt : count < 2 ^ 64) :
    (clearLength (.ext2 fs disk node)).Takes env count ↔
      count = 0 ∨ Stores env count fs disk node := by
  rcases Nat.eq_zero_or_pos count with rfl | hpos
  · exact iff_of_true (takes_zero (length_clearLength _)) (.inl rfl)
  rw [takes_iff_of_pos hpos hlt, or_iff_right hpos.ne']
  unfold Stores clearLength write
  by_cases h32 : count < 2 ^ 32
  · -- both functions get the whole count
    rw [and_iff_right h32]
    apply forall_congr'
    intro buffer
    dsimp only
    rw [if_neg (by omega), u32_of_lt h32]
    constructor
    · rintro ⟨f', hwrite, hlength, hread⟩
      rw [Option.some.injEq, Prod.mk.injEq] at hwrite
      obtain ⟨herror, rfl⟩ := hwrite
      refine ⟨herror, hlength, fun out => ?_⟩
      obtain ⟨out', hout, hsame⟩ := hread out
      refine ⟨out', ?_, hsame⟩
      dsimp only [read] at hout
      unfold Ext2.readFile at hout
      rw [if_neg (by omega), u32_of_lt h32] at hout
      exact hout
    · rintro ⟨herror, hlength, hread⟩
      refine ⟨_, congrArg some (Prod.ext herror rfl), hlength, fun out => ?_⟩
      obtain ⟨out', hout, hsame⟩ := hread out
      refine ⟨out', ?_, hsame⟩
      dsimp only [read]
      unfold Ext2.readFile
      rw [if_neg (by omega), u32_of_lt h32]
      exact hout
  · refine iff_of_false (fun h => ?_) fun h => h32 h.1
    obtain ⟨f', hwrite, -⟩ := h fun _ => 0
    dsimp only at hwrite
    rw [if_pos (by omega), Option.some.injEq, Prod.mk.injEq] at hwrite
    exact nomatch hwrite.1


theorem empties_ext2_of_empty {fs : Ext2.Fs} {disk : Mem} {node : Ext2.Node}
    (h : node.length = 0 ∨ 2 ^ 32 ≤ node.length) :
    (ext2 fs disk node).Empties env count ↔ count = 0 ∨ Stores env count fs disk node := by
  dsimp only [Empties]
  rw [if_pos h]

theorem empties_ext2_of_lt {fs : Ext2.Fs} {disk : Mem} {node : Ext2.Node}
    (h : ¬(node.length = 0 ∨ 2 ^ 32 ≤ node.length)) :
    (ext2 fs disk node).Empties env count ↔ (zeroed env fs disk node).error ≠ .none ∧
      (count = 0 ∨ Stores env count
        { fs with superblock := (zeroed env fs disk node).superblock }
        (zeroed env fs disk node).disk (zeroed env fs disk node).node) := by
  dsimp only [Empties]
  rw [if_neg h]

/-! ## FAT32 -/

section Fat32
variable {v : Volume} {dirCluster first : ℕ} {chain dir : List ℕ} {records : List Record} {j : ℕ}

/-- Data of one cluster is written to the first cluster of the empty file. -/
theorem writesInPlace_of_le (hfile : IsFile v first 0 chain) (hle : count ≤ v.clusterSize) :
    WritesInPlace v 0 chain 0 count := by
  have hlen : 0 < chain.length := List.length_pos_of_mem hfile.isChain.mem_self
  have hstart : startOffset v 0 = 0 := Nat.zero_sub _
  refine ⟨hle, ?_, .inl (by omega)⟩
  rw [Nat.zero_add]
  exact hle.trans (Nat.le_mul_of_pos_left _ hlen)

theorem takes_fat32_iff (hfile : IsFile v first 0 chain)
    (hentry : HasEntry v first chain dirCluster dir records j) (hpos : 0 < count)
    (hlt : count < 2 ^ 64) :
    (fat32 v dirCluster first 0).Takes env count ↔ count ≤ v.clusterSize ∧ dir.length = 1 := by
  have hcs := hfile.clusterSize_pos
  rw [takes_iff_of_pos hpos hlt]
  constructor
  · intro h
    have hreads : ∀ buffer, ∃ v',
        v.writeFile env.stamp env.junk dirCluster first 0 0 count buffer = some v' ∧
          ∀ out, ∃ out', v'.readFile first 0 count out = some out' ∧
            ∀ i < count, out' i = buffer i := by
      intro buffer
      obtain ⟨f', hwrite, -, hread⟩ := h buffer
      dsimp only [write] at hwrite
      rw [Option.map_eq_some_iff] at hwrite
      obtain ⟨v', hv', hresult⟩ := hwrite
      rw [Prod.mk.injEq] at hresult
      refine ⟨v', hv', fun out => ?_⟩
      obtain ⟨out', hout, hsame⟩ := hread out
      rw [← hresult.2] at hout
      dsimp only [read] at hout
      rw [Option.map_eq_some_iff] at hout
      obtain ⟨m, hm, hmem⟩ := hout
      rw [Prod.mk.injEq] at hmem
      exact ⟨out', hmem.2 ▸ hm, hsame⟩
    have hle := count_le_of_reads hcs hreads
    refine ⟨hle, ?_⟩
    -- the new length is written to the directory
    obtain ⟨v', hv', -⟩ := hreads fun _ => 0
    rw [writeFile_eq hfile le_rfl hpos hle, Option.map_eq_some_iff] at hv'
    obtain ⟨disk', hdisk', -⟩ := hv'
    unfold finalDisk at hdisk'
    rw [if_pos (by omega)] at hdisk'
    exact length_of_updateDirent hentry.isChain hcs hdisk'
  · intro ⟨hle, hdir⟩ buffer
    have hplace := writesInPlace_of_le hfile hle
    have hin : 0 / v.clusterSize < chain.length := by
      rw [Nat.zero_div]
      exact List.length_pos_of_mem hfile.isChain.mem_self
    have hfinal : ∃ disk', finalDisk env.stamp env.junk v dirCluster first 0 0 count
        (written v chain 0 count buffer) = some disk' ∧
        ∀ x ∉ entryBytes v dir j, disk' x = written v chain 0 count buffer x :=
      hplace.exists_finalDisk hfile hentry le_rfl (fun _ => hdir) buffer
    obtain ⟨disk', hdisk', -⟩ := hfinal
    refine ⟨.fat32 { v with disk := disk' } dirCluster first count, ?_, rfl, fun out => ?_⟩
    · dsimp only [write]
      rw [writeFile_eq hfile le_rfl hpos hle, hdisk', Option.map_some, Option.map_some,
        if_pos (by omega)]
      rfl
    · refine ⟨_, congrArg (Option.map _) (readFile_eq hfile disk' hpos hle hin out), ?_⟩
      intro i hi
      rw [IntervalUpdate.overwrite_of_mem (by omega) (by omega)]
      unfold PackedStruct.window
      rw [Nat.sub_zero, hplace.place hfile le_rfl hpos, hplace.finalDisk_eq hfile hentry le_rfl hdisk' hi]
      exact written_of_lt hi buffer

end Fat32

/-- Nothing on the heap, and a drive without errors. -/
def cleanEnv : Env where
  stamp := ⟨false, false, 0, 0, 0, 0, 0⟩
  junk _ := 0
  B := .exactWith fun _ => 0
  heap _ := 0
  stale _ _ _ := 0

theorem fat32_small_wellFormed {length : ℕ} (h : length ≤ 1024) :
    (fat32 smallVolume 2 3 length).WellFormed :=
  ⟨by omega, _, _, _, _, smallVolume_isFile h, smallVolume_hasEntry⟩

end RegularFile

end VkKernel.Vfs
