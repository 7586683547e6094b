import VkKernel.Ext2InodeRun
import VkKernel.Ext2Cache
import VkKernel.Ext2Read

/-!
# Deleting inodes

`ext2_inode_free` with the calls of `ext2_block_free` that it makes and with the cache. The
blocks of a file form a tree below the fifteen pointers of its node, and the calls are
compared with all the blocks of this tree.
-/

namespace VkKernel.Ext2
open ByteMemory PackedStruct IntervalUpdate Bitmap

/-! ## The calls -/

/-- How a part of `ext2_inode_free` ends, as a `Walk`, with the blocks that have been
passed to `ext2_block_free`. -/
inductive FreeCalls
  | failed (calls : List ℕ)
  | done (calls : List ℕ)
  | more (size : ℕ) (calls : List ℕ)

section Functions
variable (B : BlockLayer) (fs : Fs) (disk : Mem)

/-- The disk after calls of `ext2_block_free`. -/
def afterCalls (calls : List ℕ) : Mem := calls.foldl (blockFree B fs) disk

def FreeCalls.walk : FreeCalls → Walk
  | .failed calls => .failed (afterCalls B fs disk calls)
  | .done calls => .done (afterCalls B fs disk calls)
  | .more size calls => .more size (afterCalls B fs disk calls)

def entriesCalls (entry : ℕ → ℕ) : ℕ → ℕ → ℕ → List ℕ → FreeCalls
  | 0, _, size, calls => .more size calls
  | fuel + 1, i, size, calls =>
    if size = 0 then .done calls
    else if entry i = 0 then .failed calls
    else entriesCalls entry fuel (i + 1) (size - fs.blockSize) (calls ++ [entry i])

def doublyCalls (doubly : ℕ → ℕ) (doublyPointer : ℕ) : ℕ → ℕ → ℕ → List ℕ → FreeCalls
  | 0, _, size, calls => .more size calls
  | fuel + 1, j, size, calls =>
    if doubly j = 0 then .failed calls
    else
      match entriesCalls fs (readPointers B fs (afterCalls B fs disk calls) (doubly j))
          (fs.blockSize / 4) 0 size calls with
      | .failed calls => .failed calls
      | .done calls => .done (calls ++ [doubly j, doublyPointer])
      | .more size calls => doublyCalls doubly doublyPointer fuel (j + 1) size (calls ++ [doubly j])

def entriesFirstCalls (entry : ℕ → ℕ) : ℕ → ℕ → ℕ → List ℕ → FreeCalls
  | 0, _, size, calls => .more size calls
  | fuel + 1, i, size, calls =>
    if entry i = 0 then .failed calls
    else if size - fs.blockSize = 0 then .done (calls ++ [entry i])
    else entriesFirstCalls entry fuel (i + 1) (size - fs.blockSize) (calls ++ [entry i])

def triplyInnerCalls (dib : ℕ → ℕ) (triplyK triplyPointer : ℕ) : ℕ → ℕ → ℕ → List ℕ → FreeCalls
  | 0, _, size, calls => .more size calls
  | fuel + 1, j, size, calls =>
    if dib j = 0 then .failed calls
    else
      match entriesFirstCalls fs (readPointers B fs (afterCalls B fs disk calls) (dib j))
          (fs.blockSize / 4) 0 size calls with
      | .failed calls => .failed calls
      | .done calls => .done (calls ++ [dib j, triplyK, triplyPointer])
      | .more size calls =>
        triplyInnerCalls dib triplyK triplyPointer fuel (j + 1) size (calls ++ [dib j])

def triplyCalls (triply : ℕ → ℕ) (triplyPointer : ℕ) : ℕ → ℕ → ℕ → List ℕ → FreeCalls
  | 0, _, size, calls => .more size calls
  | fuel + 1, k, size, calls =>
    if triply (fs.blockSize / 4) = 0 then .failed calls
    else
      match triplyInnerCalls B fs disk
          (readPointers B fs (afterCalls B fs disk calls) (triply (fs.blockSize / 4))) (triply k)
          triplyPointer (fs.blockSize / 4) 0 size calls with
      | .failed calls => .failed calls
      | .done calls => .done calls
      | .more size calls => triplyCalls triply triplyPointer fuel (k + 1) size (calls ++ [triply k])

/-- The calls up to the label `free_inode`. -/
def fileCalls (node : Node) : FreeCalls :=
  match entriesCalls fs node.pointer 12 0 node.length [] with
  | .failed calls => .failed calls
  | .done calls => .done calls
  | .more size calls =>
    if size = 0 then .done calls
    else if node.pointer 12 = 0 then .failed calls
    else
      match entriesCalls fs (readPointers B fs (afterCalls B fs disk calls) (node.pointer 12))
          (fs.blockSize / 4) 0 size calls with
      | .failed calls => .failed calls
      | .done calls => .done (calls ++ [node.pointer 12])
      | .more size calls =>
        let calls := calls ++ [node.pointer 12]
        if size = 0 then .done calls
        else if node.pointer 13 = 0 then .failed calls
        else
          match doublyCalls B fs disk
              (readPointers B fs (afterCalls B fs disk calls) (node.pointer 13)) (node.pointer 13)
              (fs.blockSize / 4) 0 size calls with
          | .failed calls => .failed calls
          | .done calls => .done calls
          | .more size calls =>
            let calls := calls ++ [node.pointer 13]
            if node.pointer 14 = 0 then .failed calls
            else
              match triplyCalls B fs disk
                  (readPointers B fs (afterCalls B fs disk calls) (node.pointer 14))
                  (node.pointer 14) (fs.blockSize / 4) 0 size calls with
              | .failed calls => .failed calls
              | .done calls => .done calls
              | .more _ calls => .done (calls ++ [node.pointer 14])

/-- The loop that unlinks the inode from the cache. There is no result when the inode is the
first of the cache: `last` is then the null pointer. -/
def cacheRemove (inodeNbr : ℕ) : List CachedNode → Option (List CachedNode)
  | [] => some []
  | n :: rest =>
    if n.inodeNbr = inodeNbr then none
    else some (n :: rest.eraseP fun m => m.inodeNbr = inodeNbr)

/-- What `ext2_inode_free` has done when it returns. -/
structure Deletion where
  calls : List ℕ
  disk : Mem
  cache : List CachedNode

/-- `ext2_inode_free`. -/
def deleteInode (node : Node) (cache : List CachedNode) : Option Deletion :=
  match fileCalls B fs disk node with
  | .failed calls => some ⟨calls, afterCalls B fs disk calls, cache⟩
  | .done calls | .more _ calls =>
    (cacheRemove node.inodeNbr cache).map fun cache =>
      ⟨calls, freeInodeBit B fs (afterCalls B fs disk calls) node.inodeNbr, cache⟩

end Functions

section Walks
variable {B : BlockLayer} {fs : Fs} {disk : Mem}

theorem afterCalls_append (calls calls' : List ℕ) :
    afterCalls B fs disk (calls ++ calls') = afterCalls B fs (afterCalls B fs disk calls) calls' :=
  List.foldl_append

theorem entriesCalls_walk (entry : ℕ → ℕ) (fuel i size : ℕ) (calls : List ℕ) :
    (entriesCalls fs entry fuel i size calls).walk B fs disk =
      freeEntries B fs entry fuel i size (afterCalls B fs disk calls) := by
  induction fuel generalizing i size calls with
  | zero => rfl
  | succ fuel ih =>
    rw [entriesCalls, freeEntries]
    split_ifs
    · rfl
    · rfl
    · rw [ih, afterCalls_append]
      rfl

theorem doublyCalls_walk (doubly : ℕ → ℕ) (pointer fuel j size : ℕ) (calls : List ℕ) :
    (doublyCalls B fs disk doubly pointer fuel j size calls).walk B fs disk =
      freeDoubly B fs doubly pointer fuel j size (afterCalls B fs disk calls) := by
  induction fuel generalizing j size calls with
  | zero => rfl
  | succ fuel ih =>
    rw [doublyCalls, freeDoubly]
    split_ifs
    · rfl
    · rw [← entriesCalls_walk]
      cases entriesCalls fs (readPointers B fs (afterCalls B fs disk calls) (doubly j))
        (fs.blockSize / 4) 0 size calls with
      | failed calls => rfl
      | done calls =>
        dsimp only [FreeCalls.walk]
        rw [afterCalls_append]
        rfl
      | more size calls =>
        refine (ih (j + 1) size _).trans ?_
        rw [afterCalls_append]
        rfl

theorem entriesFirstCalls_walk (entry : ℕ → ℕ) (fuel i size : ℕ) (calls : List ℕ) :
    (entriesFirstCalls fs entry fuel i size calls).walk B fs disk =
      freeEntriesFirst B fs entry fuel i size (afterCalls B fs disk calls) := by
  induction fuel generalizing i size calls with
  | zero => rfl
  | succ fuel ih =>
    rw [entriesFirstCalls, freeEntriesFirst]
    dsimp only
    split_ifs
    · rfl
    · dsimp only [FreeCalls.walk]
      rw [afterCalls_append]
      rfl
    · rw [ih, afterCalls_append]
      rfl

theorem triplyInnerCalls_walk (dib : ℕ → ℕ) (triplyK pointer fuel j size : ℕ) (calls : List ℕ) :
    (triplyInnerCalls B fs disk dib triplyK pointer fuel j size calls).walk B fs disk =
      freeTriplyInner B fs dib triplyK pointer fuel j size (afterCalls B fs disk calls) := by
  induction fuel generalizing j size calls with
  | zero => rfl
  | succ fuel ih =>
    rw [triplyInnerCalls, freeTriplyInner]
    split_ifs
    · rfl
    · rw [← entriesFirstCalls_walk]
      cases entriesFirstCalls fs (readPointers B fs (afterCalls B fs disk calls) (dib j))
        (fs.blockSize / 4) 0 size calls with
      | failed calls => rfl
      | done calls =>
        dsimp only [FreeCalls.walk]
        rw [afterCalls_append]
        rfl
      | more size calls =>
        refine (ih (j + 1) size _).trans ?_
        rw [afterCalls_append]
        rfl

theorem triplyCalls_walk (triply : ℕ → ℕ) (pointer fuel k size : ℕ) (calls : List ℕ) :
    (triplyCalls B fs disk triply pointer fuel k size calls).walk B fs disk =
      freeTriply B fs triply pointer fuel k size (afterCalls B fs disk calls) := by
  induction fuel generalizing k size calls with
  | zero => rfl
  | succ fuel ih =>
    rw [triplyCalls, freeTriply]
    split_ifs
    · rfl
    · rw [← triplyInnerCalls_walk]
      cases triplyInnerCalls B fs disk
        (readPointers B fs (afterCalls B fs disk calls) (triply (fs.blockSize / 4))) (triply k)
        pointer (fs.blockSize / 4) 0 size calls with
      | failed calls => rfl
      | done calls => rfl
      | more size calls =>
        refine (ih (k + 1) size _).trans ?_
        rw [afterCalls_append]
        rfl

/-- The disk depends on the calls only through `ext2_block_free`. -/
theorem fileCalls_walk (node : Node) :
    (fileCalls B fs disk node).walk B fs disk = freeFile B fs node disk := by
  unfold fileCalls freeFile
  have hdirect := @entriesCalls_walk B fs disk node.pointer 12 0 node.length []
  change _ = freeEntries B fs node.pointer 12 0 node.length disk at hdirect
  rw [← hdirect]
  cases entriesCalls fs node.pointer 12 0 node.length [] with
  | failed calls => rfl
  | done calls => rfl
  | more size calls =>
    dsimp only [FreeCalls.walk]
    by_cases h0 : size = 0
    · rw [if_pos h0, if_pos h0]
    · rw [if_neg h0, if_neg h0]
      by_cases h12 : node.pointer 12 = 0
      · rw [if_pos h12, if_pos h12]
      · rw [if_neg h12, if_neg h12, ← entriesCalls_walk]
        cases entriesCalls fs (readPointers B fs (afterCalls B fs disk calls) (node.pointer 12))
          (fs.blockSize / 4) 0 size calls with
        | failed calls => rfl
        | done calls =>
          dsimp only [FreeCalls.walk]
          rw [afterCalls_append]
          rfl
        | more size calls =>
          dsimp only [FreeCalls.walk]
          rw [show blockFree B fs (afterCalls B fs disk calls) (node.pointer 12) =
            afterCalls B fs disk (calls ++ [node.pointer 12]) by rw [afterCalls_append]; rfl]
          by_cases h1 : size = 0
          · rw [if_pos h1, if_pos h1]
          · rw [if_neg h1, if_neg h1]
            by_cases h13 : node.pointer 13 = 0
            · rw [if_pos h13, if_pos h13]
            · rw [if_neg h13, if_neg h13, ← doublyCalls_walk]
              cases doublyCalls B fs disk (readPointers B fs
                (afterCalls B fs disk (calls ++ [node.pointer 12])) (node.pointer 13)) (node.pointer 13)
                (fs.blockSize / 4) 0 size (calls ++ [node.pointer 12]) with
              | failed calls => rfl
              | done calls => rfl
              | more size calls =>
                dsimp only [FreeCalls.walk]
                rw [show blockFree B fs (afterCalls B fs disk calls) (node.pointer 13) =
                  afterCalls B fs disk (calls ++ [node.pointer 13]) by rw [afterCalls_append]; rfl]
                by_cases h14 : node.pointer 14 = 0
                · rw [if_pos h14, if_pos h14]
                · rw [if_neg h14, if_neg h14, ← triplyCalls_walk]
                  cases triplyCalls B fs disk (readPointers B fs
                    (afterCalls B fs disk (calls ++ [node.pointer 13])) (node.pointer 14))
                    (node.pointer 14) (fs.blockSize / 4) 0 size (calls ++ [node.pointer 13]) with
                  | failed calls => rfl
                  | done calls => rfl
                  | more size calls =>
                    dsimp only [FreeCalls.walk]
                    rw [afterCalls_append]
                    rfl

/-- With the cache, the function does to the disk what it does without it. -/
theorem deleteInode_disk {node : Node} {cache : List CachedNode} {r : Deletion}
    (h : deleteInode B fs disk node cache = some r) : r.disk = inodeFree B fs disk node := by
  unfold deleteInode at h
  unfold inodeFree
  rw [← fileCalls_walk]
  cases hcalls : fileCalls B fs disk node with
  | failed calls =>
    rw [hcalls] at h
    exact (congrArg Deletion.disk (Option.some.inj h)).symm
  | done calls =>
    rw [hcalls] at h
    obtain ⟨cache', -, heq⟩ := Option.map_eq_some_iff.mp h
    exact (congrArg Deletion.disk heq).symm
  | more size calls =>
    rw [hcalls] at h
    obtain ⟨cache', -, heq⟩ := Option.map_eq_some_iff.mp h
    exact (congrArg Deletion.disk heq).symm

end Walks

/-! ## The blocks of a file -/

section Tree
variable (fs : Fs)

/-- The blocks below `fuel` pointers from `i` on, of which each leads to `cap` blocks of the
`m` blocks of the file that are left. -/
def tableRefs (child : ℕ → ℕ → List ℕ) (cap : ℕ) : ℕ → ℕ → ℕ → List ℕ
  | 0, _, _ => []
  | fuel + 1, i, m => child i m ++ tableRefs child cap fuel (i + 1) (m - cap)

/-- The blocks of the tree below a pointer that are needed for `m` blocks of data. -/
def Fs.refsUnder (disk : Mem) : ℕ → ℕ → ℕ → List ℕ
  | 0, b, m => if m = 0 then [] else [b]
  | level + 1, b, m =>
    if m = 0 then []
    else tableRefs (fun i m => Fs.refsUnder disk level (fs.entry disk b i) m) (fs.pointers ^ level)
      fs.pointers 0 m ++ [b]

/-- The blocks of a file with `m` blocks of data. -/
def Fs.fileRefs (disk : Mem) (node : Node) (m : ℕ) : List ℕ :=
  tableRefs (fun i m => fs.refsUnder disk 0 (node.pointer i) m) 1 12 0 m ++
    fs.refsUnder disk 1 (node.pointer 12) (m - 12) ++
    fs.refsUnder disk 2 (node.pointer 13) (m - (12 + fs.pointers)) ++
    fs.refsUnder disk 3 (node.pointer 14) (m - fs.doublyEnd)

/-- The block is in the tree below the pointer `t`. -/
def Fs.Under (disk : Mem) : ℕ → ℕ → ℕ → Prop
  | 0, t, b => t ≠ 0 ∧ b = t
  | level + 1, t, b =>
    t ≠ 0 ∧ (b = t ∨ ∃ i < fs.pointers, Fs.Under disk level (fs.entry disk t i) b)

/-- The node leads to the block, as a data block or as an indirect block. -/
def Fs.References (disk : Mem) (node : Node) (b : ℕ) : Prop :=
  (∃ i < 12, fs.Under disk 0 (node.pointer i) b) ∨ fs.Under disk 1 (node.pointer 12) b ∨
    fs.Under disk 2 (node.pointer 13) b ∨ fs.Under disk 3 (node.pointer 14) b

variable (addr : ℕ → ℕ)

/-- The tree below a pointer holds `m` blocks of data and nothing behind them. -/
def Fs.TreeOk (disk : Mem) : ℕ → ℕ → ℕ → Prop
  | 0, t, m => if m = 0 then t = 0 else Freeable fs t
  | level + 1, t, m =>
    if m = 0 then t = 0
    else IsTable fs addr t ∧
      ∀ i < fs.pointers, Fs.TreeOk disk level (fs.entry disk t i) (m - i * fs.pointers ^ level)

/-- The blocks of data that a node holds: those of its length, or the one that
`ext2_create_file` has allocated for an empty file. -/
def Fs.heldBlocks (node : Node) : ℕ :=
  if node.length = 0 ∧ node.pointer 0 ≠ 0 then 1 else fs.blocksOf node.length

/-- A well-formed file: the pointers up to its length lead to different blocks, and the
others are null. -/
structure InodeTree (disk : Mem) (node : Node) : Prop where
  direct : ∀ i < 12, fs.TreeOk addr disk 0 (node.pointer i) (fs.heldBlocks node - i)
  singly : fs.TreeOk addr disk 1 (node.pointer 12) (fs.heldBlocks node - 12)
  doubly : fs.TreeOk addr disk 2 (node.pointer 13) (fs.heldBlocks node - (12 + fs.pointers))
  triply : fs.TreeOk addr disk 3 (node.pointer 14) (fs.heldBlocks node - fs.doublyEnd)
  covers : fs.heldBlocks node ≤ fs.doublyEnd + fs.pointers ^ 3
  distinct : (fs.fileRefs disk node (fs.heldBlocks node)).Nodup

end Tree

section Refs
variable {fs : Fs} {addr : ℕ → ℕ} {disk : Mem}

theorem mem_tableRefs {child : ℕ → ℕ → List ℕ} {cap fuel i m b : ℕ} :
    b ∈ tableRefs child cap fuel i m ↔ ∃ t < fuel, b ∈ child (i + t) (m - t * cap) := by
  induction fuel generalizing i m with
  | zero =>
    rw [tableRefs]
    simp
  | succ fuel ih =>
    have hnext : ∀ t, child (i + 1 + t) (m - cap - t * cap) = child (i + (t + 1)) (m - (t + 1) * cap) := by
      intro t
      rw [Nat.sub_sub, Nat.succ_mul, Nat.add_comm cap, Nat.add_assoc, Nat.add_comm 1]
    rw [tableRefs, List.mem_append, ih]
    constructor
    · rintro (h | ⟨t, ht, h⟩)
      · refine ⟨0, Nat.succ_pos fuel, ?_⟩
        rwa [Nat.add_zero, Nat.zero_mul, Nat.sub_zero]
      · rw [hnext] at h
        exact ⟨t + 1, Nat.succ_lt_succ ht, h⟩
    · rintro ⟨t, ht, h⟩
      cases t with
      | zero =>
        rw [Nat.add_zero, Nat.zero_mul, Nat.sub_zero] at h
        exact .inl h
      | succ t =>
        rw [← hnext] at h
        exact .inr ⟨t, Nat.lt_of_succ_lt_succ ht, h⟩

theorem tableRefs_zero {child : ℕ → ℕ → List ℕ} (h : ∀ i, child i 0 = []) (cap fuel i : ℕ) :
    tableRefs child cap fuel i 0 = [] := by
  induction fuel generalizing i with
  | zero => rfl
  | succ fuel ih => rw [tableRefs, h, Nat.zero_sub, ih, List.nil_append]

theorem refsUnder_zero (level b : ℕ) : fs.refsUnder disk level b 0 = [] := by
  cases level with
  | zero => rfl
  | succ level => exact if_pos rfl

/-- In a well-formed tree the blocks that are needed are all that there are. -/
theorem Fs.TreeOk.mem_refsUnder {level t m : ℕ} (h : fs.TreeOk addr disk level t m) (b : ℕ) :
    b ∈ fs.refsUnder disk level t m ↔ fs.Under disk level t b := by
  induction level generalizing t m with
  | zero =>
    unfold Fs.TreeOk at h
    unfold Fs.refsUnder Fs.Under
    split_ifs at h ⊢ with hm
    · simp [h]
    · simp [h.1]
  | succ level ih =>
    unfold Fs.TreeOk at h
    unfold Fs.refsUnder Fs.Under
    split_ifs at h ⊢ with hm
    · simp [h]
    · rw [List.mem_append, mem_tableRefs, List.mem_singleton, or_comm]
      constructor
      · rintro (hb | ⟨i, hi, hb⟩)
        · exact ⟨h.1.freeable.1, .inl hb⟩
        · rw [Nat.zero_add, ih (h.2 i hi)] at hb
          exact ⟨h.1.freeable.1, .inr ⟨i, hi, hb⟩⟩
      · rintro ⟨-, hb | ⟨i, hi, hb⟩⟩
        · exact .inl hb
        · refine .inr ⟨i, hi, ?_⟩
          rw [Nat.zero_add, ih (h.2 i hi)]
          exact hb

theorem InodeTree.mem_fileRefs {node : Node} (h : InodeTree fs addr disk node) (b : ℕ) :
    b ∈ fs.fileRefs disk node (fs.heldBlocks node) ↔ fs.References disk node b := by
  unfold Fs.fileRefs Fs.References
  rw [List.mem_append, List.mem_append, List.mem_append, h.singly.mem_refsUnder,
    h.doubly.mem_refsUnder, h.triply.mem_refsUnder, mem_tableRefs]
  have hdirect : (∃ t < 12, b ∈ fs.refsUnder disk 0 (node.pointer (0 + t))
      (fs.heldBlocks node - t * 1)) ↔ ∃ i < 12, fs.Under disk 0 (node.pointer i) b := by
    refine exists_congr fun i => and_congr_right fun hi => ?_
    rw [Nat.zero_add, Nat.mul_one, (h.direct i hi).mem_refsUnder]
  rw [hdirect, or_assoc, or_assoc]

end Refs

/-! ## The calls for a well-formed file -/

section Spec
variable {B : BlockLayer} {fs : Fs} {addr : ℕ → ℕ} {disk : Mem}

theorem Freeing.call (hB : B.Exact) {calls : List ℕ} (h : Freeing fs addr disk (afterCalls B fs disk calls))
    {block : ℕ} (hb : Freeable fs block) :
    Freeing fs addr disk (afterCalls B fs disk (calls ++ [block])) := by
  rw [afterCalls_append]
  exact h.blockFree hB hb

/-- The pointers of an indirect block that is still as it was. -/
theorem IsTable.readPointers_eq (hB : B.Exact) {disk' : Mem} {block i : ℕ} (ht : IsTable fs addr block)
    (h : Freeing fs addr disk disk') (hi : i < fs.pointers) :
    readPointers B fs disk' block i = fs.entry disk block i := by
  rw [Ext2.readPointers_eq hB disk' block hi, ht.entry_eq h.keeps hi]

/-- One array of pointers: the loop ends with the file or with the array. -/
theorem entriesCalls_spec (hB : B.Exact) (entry e : ℕ → ℕ) (fuel i size : ℕ) (calls : List ℕ)
    (h : Freeing fs addr disk (afterCalls B fs disk calls))
    (hentry : ∀ t < fuel, entry (i + t) = e (i + t))
    (he : ∀ t < fuel, fs.TreeOk addr disk 0 (e (i + t)) (fs.blocksOf size - t)) :
    let calls' := calls ++ tableRefs (fun i m => fs.refsUnder disk 0 (e i) m) 1 fuel i (fs.blocksOf size)
    ∃ size', Freeing fs addr disk (afterCalls B fs disk calls') ∧
      (fs.blocksOf size < fuel → entriesCalls fs entry fuel i size calls = .done calls') ∧
      (fuel ≤ fs.blocksOf size → fs.blocksOf size' = fs.blocksOf size - fuel ∧
        entriesCalls fs entry fuel i size calls = .more size' calls') := by
  induction fuel generalizing i size calls with
  | zero =>
    dsimp only
    rw [tableRefs, List.append_nil]
    exact ⟨size, h, fun hlt => absurd hlt (Nat.not_lt_zero _), fun _ => ⟨rfl, rfl⟩⟩
  | succ fuel ih =>
    dsimp only at ih ⊢
    by_cases hs : size = 0
    · rw [hs, blocksOf_zero, tableRefs_zero fun i => rfl, List.append_nil]
      exact ⟨0, h, fun _ => rfl, fun hle => absurd hle (by omega)⟩
    · have hsub := blocksOf_sub h.blockSize_pos hs
      have hfirst := he 0 (Nat.succ_pos fuel)
      rw [Nat.add_zero, Nat.sub_zero, Fs.TreeOk, if_neg (by omega)] at hfirst
      have hcons : tableRefs (fun i m => fs.refsUnder disk 0 (e i) m) 1 (fuel + 1) i (fs.blocksOf size) =
          [e i] ++ tableRefs (fun i m => fs.refsUnder disk 0 (e i) m) 1 fuel (i + 1)
            (fs.blocksOf (size - fs.blockSize)) := by
        rw [tableRefs, Fs.refsUnder, if_neg (by omega), hsub, Nat.add_sub_cancel]
      have hi : entry i = e i := hentry 0 (Nat.succ_pos fuel)
      have hstep : entriesCalls fs entry (fuel + 1) i size calls =
          entriesCalls fs entry fuel (i + 1) (size - fs.blockSize) (calls ++ [e i]) := by
        rw [entriesCalls, if_neg hs, hi, if_neg hfirst.1]
      obtain ⟨size', h1, h2, h3⟩ := ih (i + 1) (size - fs.blockSize) (calls ++ [e i]) (h.call hB hfirst)
        (fun t ht => by
          rw [Nat.add_assoc, Nat.add_comm 1]
          exact hentry (t + 1) (by omega))
        (fun t ht => by
          have hnext := he (t + 1) (by omega)
          rwa [hsub, Nat.add_sub_add_right, ← Nat.add_assoc, Nat.add_right_comm] at hnext)
      rw [hcons, ← List.append_assoc, hstep]
      refine ⟨size', h1, fun hlt => h2 (by omega), fun hle => ?_⟩
      obtain ⟨hsize, heq⟩ := h3 (by omega)
      exact ⟨by omega, heq⟩

/-- A singly indirect block. -/
theorem tableCalls_spec (hB : B.Exact) {t size : ℕ} {calls : List ℕ}
    (h : Freeing fs addr disk (afterCalls B fs disk calls)) (hne : fs.blocksOf size ≠ 0)
    (ht : fs.TreeOk addr disk 1 t (fs.blocksOf size)) :
    ∃ calls' size', calls' ++ [t] = calls ++ fs.refsUnder disk 1 t (fs.blocksOf size) ∧
      IsTable fs addr t ∧ Freeing fs addr disk (afterCalls B fs disk calls') ∧
      (fs.blocksOf size < fs.pointers →
        entriesCalls fs (readPointers B fs (afterCalls B fs disk calls) t) (fs.blockSize / 4) 0 size calls =
          .done calls') ∧
      (fs.pointers ≤ fs.blocksOf size → fs.blocksOf size' = fs.blocksOf size - fs.pointers ∧
        entriesCalls fs (readPointers B fs (afterCalls B fs disk calls) t) (fs.blockSize / 4) 0 size calls =
          .more size' calls') := by
  rw [Fs.TreeOk, if_neg hne] at ht
  obtain ⟨htable, hentries⟩ := ht
  obtain ⟨size', h1, h2, h3⟩ := entriesCalls_spec hB (readPointers B fs (afterCalls B fs disk calls) t)
    (fs.entry disk t) fs.pointers 0 size calls h
    (fun i hi => by
      rw [Nat.zero_add]
      exact htable.readPointers_eq hB h hi)
    (fun i hi => by
      have hentry := hentries i hi
      rw [Nat.pow_zero, Nat.mul_one] at hentry
      rwa [Nat.zero_add])
  refine ⟨_, size', ?_, htable, h1, h2, h3⟩
  rw [Fs.refsUnder, if_neg hne, Nat.pow_zero, List.append_assoc]

/-- The doubly indirect block: the loop ends with the file if the file ends inside one of the
singly indirect blocks, and with a null pointer if it ends with one of them. -/
theorem doublyCalls_spec (hB : B.Exact) (hp : 0 < fs.pointers) (doubly e : ℕ → ℕ) (pointer fuel j size : ℕ)
    (calls : List ℕ) (h : Freeing fs addr disk (afterCalls B fs disk calls))
    (hdoubly : ∀ t < fuel, doubly (j + t) = e (j + t))
    (he : ∀ t < fuel, fs.TreeOk addr disk 1 (e (j + t)) (fs.blocksOf size - t * fs.pointers)) :
    ∃ calls' size', calls' = calls ++
        tableRefs (fun i m => fs.refsUnder disk 1 (e i) m) fs.pointers fuel j (fs.blocksOf size) ∧
      Freeing fs addr disk (afterCalls B fs disk calls') ∧
      (fs.blocksOf size < fuel * fs.pointers → fs.blocksOf size % fs.pointers ≠ 0 →
        doublyCalls B fs disk doubly pointer fuel j size calls = .done (calls' ++ [pointer])) ∧
      (fs.blocksOf size < fuel * fs.pointers → fs.blocksOf size % fs.pointers = 0 →
        doublyCalls B fs disk doubly pointer fuel j size calls = .failed calls') ∧
      (fuel * fs.pointers ≤ fs.blocksOf size →
        fs.blocksOf size' = fs.blocksOf size - fuel * fs.pointers ∧
        doublyCalls B fs disk doubly pointer fuel j size calls = .more size' calls') := by
  induction fuel generalizing j size calls with
  | zero =>
    refine ⟨calls, size, (List.append_nil calls).symm, h, ?_, ?_, ?_⟩
    · intro hlt
      omega
    · intro hlt
      omega
    · intro _
      exact ⟨by omega, rfl⟩
  | succ fuel ih =>
    have hmul : (fuel + 1) * fs.pointers = fuel * fs.pointers + fs.pointers := Nat.succ_mul _ _
    have hj : doubly j = e j := hdoubly 0 (Nat.succ_pos fuel)
    have hfirst := he 0 (Nat.succ_pos fuel)
    rw [Nat.add_zero, Nat.zero_mul, Nat.sub_zero] at hfirst
    rw [doublyCalls, hj, tableRefs]
    by_cases hm : fs.blocksOf size = 0
    · -- the pointer behind the last block is null
      rw [hm, Fs.TreeOk, if_pos rfl] at hfirst
      rw [hm, Nat.zero_sub, refsUnder_zero, tableRefs_zero fun i => refsUnder_zero 1 (e i), if_pos hfirst]
      refine ⟨calls, 0, by rw [List.append_nil, List.append_nil], h, ?_, fun _ _ => rfl, ?_⟩
      · intro _ hmod
        exact absurd (Nat.zero_mod _) hmod
      · intro hle
        omega
    · obtain ⟨c, size', hc, htable, hfree, hdone, hmore⟩ := tableCalls_spec hB h hm hfirst
      rw [if_neg htable.freeable.1, ← List.append_assoc, ← hc]
      by_cases hlt : fs.blocksOf size < fs.pointers
      · rw [hdone hlt, Nat.sub_eq_zero_of_le hlt.le, tableRefs_zero fun i => refsUnder_zero 1 (e i), List.append_nil]
        refine ⟨_, 0, rfl, hfree.call hB htable.freeable, ?_, ?_, ?_⟩
        · intro _ _
          rw [List.append_assoc]
          rfl
        · intro _ hmod
          rw [Nat.mod_eq_of_lt hlt] at hmod
          exact absurd hmod hm
        · intro hle
          omega
      · obtain ⟨hsize, heq⟩ := hmore (not_lt.mp hlt)
        have hmod : fs.blocksOf size' % fs.pointers = fs.blocksOf size % fs.pointers := by
          rw [hsize, ← Nat.mod_eq_sub_mod (not_lt.mp hlt)]
        obtain ⟨c', size'', hc', hfree', h1, h2, h3⟩ := ih (j + 1) size' (c ++ [e j]) (hfree.call hB htable.freeable)
          (fun t ht => by
            rw [Nat.add_assoc, Nat.add_comm 1]
            exact hdoubly (t + 1) (by omega))
          (fun t ht => by
            have hnext := he (t + 1) (by omega)
            rw [hsize, Nat.sub_sub, Nat.add_comm fs.pointers, ← Nat.succ_mul, Nat.add_assoc, Nat.add_comm 1]
            exact hnext)
        rw [heq]
        refine ⟨c', size'', by rw [hc', hsize], hfree', ?_, ?_, ?_⟩
        · intro hlt' hne
          exact h1 (by omega) (by rwa [hmod])
        · intro hlt' hz
          exact h2 (by omega) (by rwa [hmod])
        · intro hle
          obtain ⟨hsize'', heq'⟩ := h3 (by omega)
          refine ⟨?_, heq'⟩
          rw [hsize'', hsize, hmul, Nat.sub_sub, Nat.add_comm]

/-- The lengths for which the function comes to its end: the file ends in the direct or singly
indirect blocks, or inside one of the singly indirect blocks below the doubly indirect one. -/
def Fs.EndsInside (fs : Fs) (n : ℕ) : Prop :=
  n ≤ 12 + fs.pointers ∨ (n < fs.doublyEnd ∧ (n - (12 + fs.pointers)) % fs.pointers ≠ 0)

theorem Fs.SizeOk.pointers_pos (h : fs.SizeOk) : 0 < fs.pointers := by
  have := h.sizes
  omega

/-- What lies behind a buffer is zero. -/
def ZeroBehind (B : BlockLayer) (fs : Fs) : Prop :=
  ∀ disk block, readPointers B fs disk block fs.pointers = 0

/-- The calls for a well-formed file: all of its blocks, or the function returns before it frees
the inode. -/
theorem fileCalls_spec (hB : B.Exact) (hs : fs.SizeOk) (h : Freeing fs addr disk disk) {node : Node}
    (ht : InodeTree fs addr disk node) (hheld : fs.heldBlocks node = fs.blocksOf node.length) :
    (fs.EndsInside (fs.blocksOf node.length) ∧
      Freeing fs addr disk (afterCalls B fs disk (fs.fileRefs disk node (fs.blocksOf node.length))) ∧
      fileCalls B fs disk node = .done (fs.fileRefs disk node (fs.blocksOf node.length))) ∨
    (¬fs.EndsInside (fs.blocksOf node.length) ∧ ∃ calls, Freeing fs addr disk (afterCalls B fs disk calls) ∧
      (fs.blocksOf node.length ≤ fs.doublyEnd ∨ ZeroBehind B fs → fileCalls B fs disk node = .failed calls)) := by
  have hp := hs.pointers_pos
  obtain ⟨hdirect, hsingly, hdoubly, htriply, -, -⟩ := ht
  rw [hheld] at hdirect hsingly hdoubly htriply
  generalize hn : fs.blocksOf node.length = n at *
  unfold fileCalls
  obtain ⟨size, h1, hdone, hmore⟩ := entriesCalls_spec hB node.pointer node.pointer 12 0 node.length [] h
    (fun _ _ => rfl) (fun i hi => by
      rw [Nat.zero_add, hn]
      exact hdirect i hi)
  rw [hn, List.nil_append] at h1 hdone hmore
  have hends : n ≤ 12 + fs.pointers → fs.EndsInside n := fun hle => .inl hle
  have hzero : ∀ level b a, n ≤ a → fs.refsUnder disk level b (n - a) = [] := by
    intro level b a hle
    rw [Nat.sub_eq_zero_of_le hle, refsUnder_zero]
  have hD : fs.doublyEnd = 12 + fs.pointers + fs.pointers * fs.pointers := rfl
  have hpp : 0 < fs.pointers * fs.pointers := Nat.mul_pos hp hp
  unfold Fs.fileRefs
  by_cases hlt : n < 12
  · rw [hdone hlt, hzero 1 _ 12 hlt.le, hzero 2 _ _ (by omega), hzero 3 _ _ (by omega), List.append_nil,
      List.append_nil, List.append_nil]
    exact .inl ⟨hends (by omega), h1, rfl⟩
  · obtain ⟨hsize, heq⟩ := hmore (not_lt.mp hlt)
    rw [heq]
    dsimp only
    generalize tableRefs (fun i m => fs.refsUnder disk 0 (node.pointer i) m) 1 12 0 n = c1 at *
    have hsize0 : size = 0 ↔ n = 12 := by
      rw [← blocksOf_eq_zero_iff h.blockSize_pos size, hsize]
      omega
    by_cases h0 : size = 0
    · have h12 := hsize0.mp h0
      rw [if_pos h0, hzero 1 _ 12 h12.le, hzero 2 _ _ (by omega), hzero 3 _ _ (by omega), List.append_nil,
        List.append_nil, List.append_nil]
      exact .inl ⟨hends (by omega), h1, rfl⟩
    · have h12 : n ≠ 12 := fun hc => h0 (hsize0.mpr hc)
      rw [← hsize] at hsingly
      obtain ⟨c2, size1, hc2, htable, h2, hdone2, hmore2⟩ := tableCalls_spec hB h1 (by omega) hsingly
      rw [hsize] at hc2 hdone2 hmore2
      rw [if_neg h0, if_neg htable.freeable.1, ← hc2]
      have h2' := h2.call hB htable.freeable
      by_cases hlt1 : n < 12 + fs.pointers
      · rw [hdone2 (by omega), hzero 2 _ _ (by omega), hzero 3 _ _ (by omega), List.append_nil, List.append_nil]
        exact .inl ⟨hends (by omega), h2', rfl⟩
      · obtain ⟨hsize1, heq1⟩ := hmore2 (by omega)
        rw [heq1]
        dsimp only
        have hsize1' : fs.blocksOf size1 = n - (12 + fs.pointers) := by omega
        have hsize10 : size1 = 0 ↔ n = 12 + fs.pointers := by
          rw [← blocksOf_eq_zero_iff h.blockSize_pos size1, hsize1']
          omega
        by_cases h10 : size1 = 0
        · have heq12 := hsize10.mp h10
          rw [if_pos h10, hzero 2 _ _ heq12.le, hzero 3 _ _ (by omega), List.append_nil, List.append_nil]
          exact .inl ⟨hends heq12.le, h2', rfl⟩
        · have hne12 : n ≠ 12 + fs.pointers := fun hc => h10 (hsize10.mpr hc)
          rw [← hsize1', Fs.TreeOk, if_neg (by omega)] at hdoubly
          obtain ⟨htable13, hentries13⟩ := hdoubly
          rw [if_neg h10, if_neg htable13.freeable.1]
          obtain ⟨c3, size2, hc3, h3, hdone3, hfail3, hmore3⟩ := doublyCalls_spec hB hp
            (readPointers B fs (afterCalls B fs disk (c2 ++ [node.pointer 12])) (node.pointer 13))
            (fs.entry disk (node.pointer 13)) (node.pointer 13) fs.pointers 0 size1 (c2 ++ [node.pointer 12]) h2'
            (fun t ht => by
              rw [Nat.zero_add]
              exact htable13.readPointers_eq hB h2' ht)
            (fun t ht => by
              have hentry := hentries13 t ht
              rw [Nat.pow_one] at hentry
              rwa [Nat.zero_add])
          rw [hsize1'] at hc3 hdone3 hfail3 hmore3
          have h3' := h3.call hB htable13.freeable
          have hfuel : fs.blockSize / 4 = fs.pointers := rfl
          have hiff : fs.EndsInside n ↔ n < fs.doublyEnd ∧ (n - (12 + fs.pointers)) % fs.pointers ≠ 0 :=
            or_iff_right (by omega)
          have hrefs : c2 ++ [node.pointer 12] ++ fs.refsUnder disk 2 (node.pointer 13) (n - (12 + fs.pointers)) =
              c3 ++ [node.pointer 13] := by
            rw [hc3, Fs.refsUnder, if_neg (by omega), Nat.pow_one]
            simp only [List.append_assoc]
          rw [hiff, hfuel, hrefs]
          by_cases hlt2 : n < fs.doublyEnd
          · by_cases hmod : (n - (12 + fs.pointers)) % fs.pointers = 0
            · refine .inr ⟨fun hc => hc.2 hmod, c3, h3, fun _ => ?_⟩
              rw [hfail3 (by omega) hmod]
            · rw [hzero 3 _ _ hlt2.le, List.append_nil, hdone3 (by omega) hmod]
              exact .inl ⟨⟨hlt2, hmod⟩, h3', rfl⟩
          · obtain ⟨hsize2, heq2⟩ := hmore3 (by omega)
            refine .inr ⟨fun hc => hlt2 hc.1, c3 ++ [node.pointer 13], h3', fun hcase => ?_⟩
            rw [heq2]
            dsimp only
            by_cases h14 : node.pointer 14 = 0
            · rw [if_pos h14]
            · have hnot : ¬n ≤ fs.doublyEnd := by
                intro hle
                rw [Nat.sub_eq_zero_of_le hle, Fs.TreeOk, if_pos rfl] at htriply
                exact h14 htriply
              have hzeros := hcase.resolve_left hnot
              -- the first pointer is taken from behind the buffer
              rw [if_neg h14, ← Nat.succ_pred_eq_of_pos hp, triplyCalls, hfuel, if_pos (hzeros _ _)]

end Spec

/-! ## Which inodes are deleted -/

/-- A deletion as it should be: one call for each block that the node leads to and no other, the
inode marked free, and the cache without it. -/
structure Deleted (fs : Fs) (inodeAddr : ℕ → ℕ) (disk : Mem) (node : Node) (cache : List CachedNode)
    (r : Deletion) : Prop where
  once : r.calls.Nodup
  exact : ∀ b, b ∈ r.calls ↔ fs.References disk node b
  inode : ∀ i k, IsInode fs i k node.inodeNbr → mapBit inodeAddr r.disk i k = false
  cache : r.cache = cache.filter fun n => n.inodeNbr ≠ node.inodeNbr

theorem eraseP_eq_filter {l : List CachedNode} (h : (l.map CachedNode.inodeNbr).Nodup) (inodeNbr : ℕ) :
    l.eraseP (fun n => n.inodeNbr = inodeNbr) = l.filter fun n => n.inodeNbr ≠ inodeNbr := by
  induction l with
  | nil => rfl
  | cons n l ih =>
    rw [List.map_cons, List.nodup_cons] at h
    by_cases hn : n.inodeNbr = inodeNbr
    · rw [List.eraseP_cons_of_pos (by simpa using hn), List.filter_cons_of_neg (by simpa using hn)]
      refine (List.filter_eq_self.mpr fun m hm => ?_).symm
      have hne : m.inodeNbr ≠ inodeNbr := by
        intro hm'
        apply h.1
        rw [hn, ← hm']
        exact List.mem_map_of_mem hm
      simpa using hne
    · rw [List.eraseP_cons_of_neg (by simpa using hn), List.filter_cons_of_pos (by simpa using hn), ih h.2]

/-- The loop over the cache ends if the inode is not the first entry. -/
theorem cacheRemove_eq {cache : List CachedNode} (h : (cache.map CachedNode.inodeNbr).Nodup) (inodeNbr : ℕ) :
    cacheRemove inodeNbr cache =
      if ∃ n ∈ cache.head?, n.inodeNbr = inodeNbr then none
      else some (cache.filter fun n => n.inodeNbr ≠ inodeNbr) := by
  cases cache with
  | nil => simp [cacheRemove]
  | cons n l =>
    rw [List.map_cons, List.nodup_cons] at h
    rw [cacheRemove]
    by_cases hn : n.inodeNbr = inodeNbr
    · simp [hn]
    · rw [if_neg hn, eraseP_eq_filter h.2, List.filter_cons_of_pos (by simpa using hn), if_neg]
      simpa using hn

section Delete
variable {fs : Fs} {blockAddr inodeAddr : ℕ → ℕ} {disk : Mem}

/-- The bit of the inode is cleared at the end. -/
theorem freeInodeBit_clears {B : BlockLayer} (hB : B.Exact) (h : InodeVolume fs blockAddr inodeAddr disk)
    {d : Mem} (hd : Freeing fs blockAddr disk d) {i k nbr : ℕ} (hn : IsInode fs i k nbr) :
    mapBit inodeAddr (freeInodeBit B fs d nbr) i k = false := by
  obtain ⟨h1, h2⟩ := hn.index h.inodes_lt
  have hbit := hn.bit
  have hle := h.inodes_le
  unfold freeInodeBit
  dsimp only
  rw [h1, h2, freeBit_eq hB _ (by omega), hd.keeps.mapsAt hd.geometry h.maps i hn.group,
    mapBit_update_zero h.geometry hn.group (by omega) hn.group (by omega)]
  simp

theorem readPointers_behind (hs : fs.SizeOk) (d : Mem) (block : ℕ) :
    readPointers (.exactWith fun _ => 0) fs d block fs.pointers = 0 := by
  have h4 := hs.sizes.2.2.2
  have hz : loadLE (fun _ => 0) (4 * fs.pointers) 4 = 0 := by simp [loadLE]
  unfold readPointers
  rw [← hz]
  apply loadLE_congr
  intro x hx _
  exact if_neg (by omega)

end Delete

/-- A file in block 20, of one block or empty, on the volume with one group. -/
theorem shortFile_tree (b0 b1 b2 : UInt8) {inodeNbr length : ℕ} (hi : inodeNbr < 2 ^ 32) (hl : length < 2 ^ 64)
    (hlen : length ≤ 1024) :
    InodeTree oneGroupInodes (fun _ => 3072) (oneGroupInodesDisk b0 b1 b2) (shortFile inodeNbr length hi hl) := by
  have hone : oneGroupInodes.heldBlocks (shortFile inodeNbr length hi hl) = 1 := by
    have hblock : (shortFile inodeNbr length hi hl).pointer 0 ≠ 0 := show 20 ≠ 0 by norm_num
    unfold Fs.heldBlocks
    by_cases h : length = 0
    · exact if_pos ⟨h, hblock⟩
    · rw [if_neg fun hc => h hc.1]
      change (length + (1024 - 1)) / 1024 = 1
      omega
  have hD : 1 ≤ oneGroupInodes.doublyEnd := by decide
  refine ⟨?_, ?_, ?_, ?_, ?_, ?_⟩
  · intro i hi
    rw [hone, Fs.TreeOk]
    by_cases h0 : i = 0
    · rw [h0, if_neg (by norm_num)]
      exact ⟨show 20 ≠ 0 by decide, show 20 / oneGroupInodes.blocksPerBlockgroup < 1 by decide⟩
    · rw [if_pos (by omega)]
      exact if_neg h0
  · rw [hone]
    rfl
  · rw [hone, Nat.sub_eq_zero_of_le (by omega)]
    rfl
  · rw [hone, Nat.sub_eq_zero_of_le hD]
    rfl
  · rw [hone]
    omega
  · rw [hone]
    unfold Fs.fileRefs
    rw [Nat.sub_eq_zero_of_le hD, Nat.sub_eq_zero_of_le (show 1 ≤ 12 + oneGroupInodes.pointers by omega),
      Nat.sub_eq_zero_of_le (show 1 ≤ 12 by norm_num), refsUnder_zero, refsUnder_zero, refsUnder_zero]
    exact List.nodup_singleton 20

/-- The root directory and inode 18 in the cache. -/
def twoCached : List CachedNode := [⟨0xC0401000, 2⟩, ⟨0xC0402000, 18⟩]

end VkKernel.Ext2
