import VkKernel.Ext2Write

/-!
# Rejected writes

What a call of `ext2_inode_write_content` has done to the node when it does not return
`ERROR_NONE`. The length is set before the first check, and blocks are attached one by one
before an allocation or the write of the inode can fail.
-/

namespace VkKernel.Ext2
open ByteMemory PackedStruct IntervalUpdate

/-! ## Pieces -/

/-- The pieces of a write: an empty write has one. -/
def Fs.piecesOf (fs : Fs) (size : ℕ) : ℕ := if size = 0 then 1 else fs.blocksOf size

variable {B : BlockLayer} {buffer heap : Mem} {fs : Fs} {s s' : WriteState}

theorem Fs.piecesOf_pos (hbs : 0 < fs.blockSize) (size : ℕ) : 0 < fs.piecesOf size := by
  unfold Fs.piecesOf
  split_ifs with h
  · exact Nat.one_pos
  · have := blocksOf_sub hbs h
    omega

/-- One piece less. -/
theorem Fs.piecesOf_sub (hbs : 0 < fs.blockSize) (size : ℕ) :
    fs.piecesOf size = if size - fs.blockSize = 0 then 1 else fs.piecesOf (size - fs.blockSize) + 1 := by
  unfold Fs.piecesOf
  by_cases h : size = 0
  · rw [if_pos h, h, Nat.zero_sub, if_pos rfl]
  · rw [if_neg h, blocksOf_sub hbs h]
    by_cases h' : size - fs.blockSize = 0
    · rw [if_pos h', h', blocksOf_zero]
    · rw [if_neg h', if_neg h']

@[simp] theorem writePiece_node (block : ℕ) : (writePiece B buffer fs block s).node = s.node := rfl

theorem writePiece_size (block : ℕ) : (writePiece B buffer fs block s).size = s.size - fs.blockSize := by
  unfold writePiece
  dsimp only
  split_ifs with h
  · rfl
  · omega

@[simp] theorem writeTable_node (block : ℕ) (table : Mem) : (writeTable B fs block table s).node = s.node := rfl

@[simp] theorem writeTable_size (block : ℕ) (table : Mem) : (writeTable B fs block table s).size = s.size := rfl

@[simp] theorem obtainBlock_node (entry : ℕ) : (obtainBlock B fs entry s).2.node = s.node := by
  unfold obtainBlock
  split_ifs
  · rfl
  · rfl

@[simp] theorem obtainBlock_size (entry : ℕ) : (obtainBlock B fs entry s).2.size = s.size := by
  unfold obtainBlock
  split_ifs
  · rfl
  · rfl

@[simp] theorem attach_size (k block : ℕ) : (attach k block s).size = s.size := by
  unfold attach
  split_ifs
  · rfl
  · rfl

/-- Every allocation finds a block. -/
def Supplies (B : BlockLayer) (fs : Fs) : Prop := ∀ s, (allocate B fs s).1 ≠ 0

theorem Supplies.obtainBlock (h : Supplies B fs) (entry : ℕ) (s : WriteState) :
    (obtainBlock B fs entry s).1 ≠ 0 := by
  unfold Ext2.obtainBlock
  split_ifs with hz
  · exact h s
  · exact hz

/-! ## One singly indirect block -/

/-- What a loop over the pointers of a table has done to the node and to the number of pieces. -/
def EntriesOut (B : BlockLayer) (fs : Fs) (fuel : ℕ) (s : WriteState) : Written Mem → Prop
  | .failed s' => s'.node = s.node ∧ ¬Supplies B fs
  | .last _ s' => s'.node = s.node ∧ fs.piecesOf s.size ≤ fuel
  | .more _ s' => s'.node = s.node ∧ fs.piecesOf s.size = fuel + fs.piecesOf s'.size

theorem writeEntries_out (hbs : 0 < fs.blockSize) (fuel i : ℕ) (table : Mem) (s : WriteState) :
    EntriesOut B fs fuel s (writeEntries B buffer fs fuel i table s) := by
  induction fuel generalizing i table s with
  | zero => exact ⟨rfl, (Nat.zero_add _).symm⟩
  | succ fuel ih =>
    rw [writeEntries]
    dsimp only
    have hpieces := fs.piecesOf_sub hbs s.size
    split_ifs with hzero hlast
    · exact ⟨obtainBlock_node _, fun h => h.obtainBlock _ s hzero⟩
    · rw [writePiece_size, obtainBlock_size] at hlast
      rw [if_pos hlast] at hpieces
      refine ⟨obtainBlock_node _, ?_⟩
      omega
    · have hstep := ih (i + 1) (enter (tableEntry table i) i (obtainBlock B fs (tableEntry table i) s).1 table)
        (writePiece B buffer fs (obtainBlock B fs (tableEntry table i) s).1 (obtainBlock B fs (tableEntry table i) s).2)
      rw [writePiece_size, obtainBlock_size] at hlast
      rw [if_neg hlast] at hpieces
      generalize writeEntries B buffer fs fuel (i + 1) _ _ = out at hstep ⊢
      cases out with
      | failed s' => exact ⟨hstep.1.trans (obtainBlock_node _), hstep.2⟩
      | last table' s' =>
        have hle := hstep.2
        rw [writePiece_size, obtainBlock_size] at hle
        exact ⟨hstep.1.trans (obtainBlock_node _), by omega⟩
      | more table' s' =>
        have hle := hstep.2
        rw [writePiece_size, obtainBlock_size] at hle
        exact ⟨hstep.1.trans (obtainBlock_node _), by omega⟩

/-! ## The pointers of the node -/

/-- At most pointers of `T` that were zero have been set. -/
structure Attaches (node node' : Node) (T : ℕ → Prop) : Prop where
  length : node'.length = node.length
  kept : ∀ k, ¬T k ∨ node.pointer k ≠ 0 → node'.pointer k = node.pointer k

theorem Attaches.of_eq {node node' : Node} (h : node' = node) (T : ℕ → Prop) : Attaches node node' T := by
  rw [h]
  exact ⟨rfl, fun _ _ => rfl⟩

theorem Attaches.trans {n n' n'' : Node} {T T' : ℕ → Prop} (h : Attaches n n' T) (h' : Attaches n' n'' T') :
    Attaches n n'' fun k => T k ∨ T' k := by
  refine ⟨h'.length.trans h.length, fun k hk => ?_⟩
  have h1 : n'.pointer k = n.pointer k := h.kept k (hk.imp_left fun hno hT => hno (.inl hT))
  rw [← h1]
  apply h'.kept
  rw [h1]
  exact hk.imp_left fun hno hT => hno (.inr hT)

theorem Attaches.mono {n n' : Node} {T T' : ℕ → Prop} (h : Attaches n n' T) (hT : ∀ k, T k → T' k) :
    Attaches n n' T' := ⟨h.length, fun k hk => h.kept k (hk.imp_left fun hno hk => hno (hT k hk))⟩

/-- A pointer that is set stays as it is. -/
theorem Attaches.ne_zero {n n' : Node} {T : ℕ → Prop} (h : Attaches n n' T) {k : ℕ} (hk : n.pointer k ≠ 0) :
    n'.pointer k ≠ 0 := by
  rw [h.kept k (.inr hk)]
  exact hk

theorem setPointer_pointer (node : Node) (k block j : ℕ) :
    (node.setPointer k block).pointer j = if j = k then u32 block else node.pointer j :=
  Function.update_apply _ _ _ _

/-- A block number is a value of 32 bits. -/
theorem blockAlloc_lt (fs : Fs) (disk : Mem) : (blockAlloc B fs disk).1 < 2 ^ 32 := by
  unfold blockAlloc
  generalize fs.blockgroupCount = fuel
  generalize 0 = i
  induction fuel generalizing i with
  | zero => exact Nat.two_pow_pos 32
  | succ fuel ih =>
    rw [allocLoop]
    dsimp only
    split_ifs
    · exact ih (i + 1)
    · exact Nat.mod_lt _ (Nat.two_pow_pos 32)

theorem obtainBlock_lt {entry : ℕ} (h : entry < 2 ^ 32) : (obtainBlock B fs entry s).1 < 2 ^ 32 := by
  unfold obtainBlock
  split_ifs
  · exact blockAlloc_lt _ _
  · exact h

/-- The pointer `k` behind a new or an old block. -/
theorem attach_attaches (k : ℕ) :
    Attaches s.node (attach k (obtainBlock B fs (s.node.pointer k) s).1
      (obtainBlock B fs (s.node.pointer k) s).2).node (fun j => j = k) ∧
    ((obtainBlock B fs (s.node.pointer k) s).1 ≠ 0 → (attach k (obtainBlock B fs (s.node.pointer k) s).1
      (obtainBlock B fs (s.node.pointer k) s).2).node.pointer k ≠ 0) := by
  have hlt : (obtainBlock B fs (s.node.pointer k) s).1 < 2 ^ 32 := obtainBlock_lt (s.node.pointer_lt k)
  have hnode : (obtainBlock B fs (s.node.pointer k) s).2.node = s.node := obtainBlock_node _
  generalize obtainBlock B fs (s.node.pointer k) s = r at *
  unfold attach
  rw [hnode]
  by_cases hz : s.node.pointer k = 0
  · rw [if_pos hz]
    dsimp only
    refine ⟨⟨rfl, fun j hj => ?_⟩, ?_⟩
    · rw [setPointer_pointer, if_neg]
      rintro rfl
      exact hj.elim (fun h => h rfl) fun h => h hz
    · intro hne
      rwa [setPointer_pointer, if_pos rfl, u32_of_lt hlt]
  · rw [if_neg hz, hnode]
    exact ⟨.of_eq rfl _, fun _ => hz⟩

/-- What the loop over the direct pointers has done. -/
def DirectOut (B : BlockLayer) (fs : Fs) (fuel i : ℕ) (s : WriteState) : Written Unit → Prop
  | .failed s' => Attaches s.node s'.node (fun k => i ≤ k ∧ k < i + fuel ∧ k < i + fs.piecesOf s.size) ∧
      ¬Supplies B fs
  | .last _ s' => Attaches s.node s'.node (fun k => i ≤ k ∧ k < i + fs.piecesOf s.size) ∧
      fs.piecesOf s.size ≤ fuel ∧ ∀ k, i ≤ k → k < i + fs.piecesOf s.size → s'.node.pointer k ≠ 0
  | .more _ s' => Attaches s.node s'.node (fun k => i ≤ k ∧ k < i + fuel) ∧
      fs.piecesOf s.size = fuel + fs.piecesOf s'.size ∧ ∀ k, i ≤ k → k < i + fuel → s'.node.pointer k ≠ 0

theorem writeDirect_out (hbs : 0 < fs.blockSize) (fuel i : ℕ) (s : WriteState) :
    DirectOut B fs fuel i s (writeDirect B buffer fs fuel i s) := by
  induction fuel generalizing i s with
  | zero =>
    refine ⟨.of_eq rfl _, (Nat.zero_add _).symm, fun k hk hk' => ?_⟩
    omega
  | succ fuel ih =>
    rw [writeDirect]
    dsimp only
    have hpieces := fs.piecesOf_sub hbs s.size
    obtain ⟨hattach, hset⟩ := @attach_attaches B fs s i
    split_ifs with hzero hlast
    · exact ⟨.of_eq (obtainBlock_node _) _, fun h => h.obtainBlock _ s hzero⟩
    · rw [writePiece_size, attach_size, obtainBlock_size] at hlast
      rw [if_pos hlast] at hpieces
      refine ⟨hattach.mono fun k hk => ?_, by omega, fun k hk hk' => ?_⟩
      · omega
      · rw [show k = i by omega]
        exact hset hzero
    · have hstep := ih (i + 1) (writePiece B buffer fs (obtainBlock B fs (s.node.pointer i) s).1
        (attach i (obtainBlock B fs (s.node.pointer i) s).1 (obtainBlock B fs (s.node.pointer i) s).2))
      rw [writePiece_size, attach_size, obtainBlock_size] at hlast
      rw [if_neg hlast] at hpieces
      generalize writeDirect B buffer fs fuel (i + 1) _ = out at hstep ⊢
      cases out with
      | failed s' =>
        obtain ⟨hrest, hno⟩ := hstep
        refine ⟨(hattach.trans hrest).mono fun k hk => ?_, hno⟩
        rw [writePiece_size, attach_size, obtainBlock_size] at hk
        omega
      | last _ s' =>
        obtain ⟨hrest, hle, hall⟩ := hstep
        rw [writePiece_size, attach_size, obtainBlock_size] at hrest hle hall
        refine ⟨(hattach.trans hrest).mono fun k hk => by omega, by omega, fun k hk hk' => ?_⟩
        by_cases hki : k = i
        · rw [hki]
          exact hrest.ne_zero (hset hzero)
        · exact hall k (by omega) (by omega)
      | more _ s' =>
        obtain ⟨hrest, hle, hall⟩ := hstep
        rw [writePiece_size, attach_size, obtainBlock_size] at hle
        refine ⟨(hattach.trans hrest).mono fun k hk => by omega, by omega, fun k hk hk' => ?_⟩
        by_cases hki : k = i
        · rw [hki]
          exact hrest.ne_zero (hset hzero)
        · exact hall k (by omega) (by omega)

/-! ## The levels -/

/-- A call has failed to allocate a block, or has come to the write of the inode. -/
def Ends (B : BlockLayer) (fs : Fs) (r : WriteResult) : Prop :=
  r.error = .unknown ∨ ∃ s, r = writeInode B fs s

/-- A call that has returned: at most the pointers of `T` have been set, and all of them if every
allocation finds a block. -/
structure Returned (B : BlockLayer) (fs : Fs) (node : Node) (T : ℕ → Prop) (r : WriteResult) : Prop where
  attaches : Attaches node r.node T
  supplied : Supplies B fs → ∀ k, T k → r.node.pointer k ≠ 0
  ends : Ends B fs r

/-- What the part for the singly indirect block has done, with the block counter `i`. -/
def SinglyOut (B : BlockLayer) (fs : Fs) (i : ℕ) (s : WriteState) : Except WriteResult WriteState → Prop
  | .error r => Returned B fs s.node (fun k => k = 12) r ∧
      (Supplies B fs → i + fs.piecesOf s.size ≤ fs.pointers)
  | .ok s' => Attaches s.node s'.node (fun k => k = 12) ∧ s'.node.pointer 12 ≠ 0 ∧
      i + fs.piecesOf s.size = fs.pointers + (i - fs.pointers) + fs.piecesOf s'.size

theorem writeSingly_out (hbs : 0 < fs.blockSize) (i : ℕ) (s : WriteState) :
    SinglyOut B fs i s (writeSingly B buffer heap fs i s) := by
  unfold writeSingly
  dsimp only
  obtain ⟨hattach, hset⟩ := @attach_attaches B fs s 12
  have hfuel : fs.blockSize / 4 = fs.pointers := rfl
  split_ifs with hzero
  · have hno : ¬Supplies B fs := fun h => h.obtainBlock _ s hzero
    exact ⟨⟨.of_eq (obtainBlock_node _) _, fun h => absurd h hno, .inl rfl⟩, fun h => absurd h hno⟩
  · have hout := @writeEntries_out B buffer fs hbs (fs.pointers - i) i
      (loadTable B heap fs (s.node.pointer 12) (obtainBlock B fs (s.node.pointer 12) s).1
        (attach 12 (obtainBlock B fs (s.node.pointer 12) s).1 (obtainBlock B fs (s.node.pointer 12) s).2))
      (attach 12 (obtainBlock B fs (s.node.pointer 12) s).1 (obtainBlock B fs (s.node.pointer 12) s).2)
    have h12 := hset hzero
    rw [hfuel]
    have hpos := Fs.piecesOf_pos hbs s.size
    generalize writeEntries B buffer fs (fs.pointers - i) i _ _ = out at hout ⊢
    cases out with
    | failed s' =>
      obtain ⟨hnode, hno⟩ := hout
      refine ⟨⟨?_, fun h => absurd h hno, .inl rfl⟩, fun h => absurd h hno⟩
      change Attaches s.node s'.node _
      rwa [hnode]
    | last table s' =>
      obtain ⟨hnode, hle⟩ := hout
      rw [attach_size, obtainBlock_size] at hle
      refine ⟨⟨?_, fun _ k hk => ?_, .inr ⟨_, rfl⟩⟩, fun _ => by omega⟩
      · change Attaches s.node s'.node _
        rwa [hnode]
      · change s'.node.pointer k ≠ 0
        rwa [hk, hnode]
    | more table s' =>
      obtain ⟨hnode, hle⟩ := hout
      rw [attach_size, obtainBlock_size] at hle
      refine ⟨?_, ?_, ?_⟩
      · change Attaches s.node s'.node _
        rwa [hnode]
      · change s'.node.pointer 12 ≠ 0
        rwa [hnode]
      · rw [writeTable_size]
        omega

/-- What the loop over a doubly indirect block has done. -/
def DoublyLoopOut (B : BlockLayer) (fs : Fs) (fuel i : ℕ) (s : WriteState) :
    Except WriteResult (Mem × ℕ × WriteState) → Prop
  | .error r => r.node = s.node ∧ Ends B fs r ∧
      (Supplies B fs → i + fs.piecesOf s.size ≤ fuel * fs.pointers)
  | .ok (_, i', s') => s'.node = s.node ∧ i + fs.piecesOf s.size = fuel * fs.pointers + i' + fs.piecesOf s'.size

theorem writeDoublyLoop_out (hbs : 0 < fs.blockSize) (pointer fuel j i : ℕ) (doubly : Mem) (s : WriteState) :
    DoublyLoopOut B fs fuel i s (writeDoublyLoop B buffer heap fs pointer fuel j i doubly s) := by
  induction fuel generalizing j i doubly s with
  | zero =>
    refine ⟨rfl, ?_⟩
    omega
  | succ fuel ih =>
    rw [writeDoublyLoop]
    dsimp only
    have hfuel : fs.blockSize / 4 = fs.pointers := rfl
    have hmul : (fuel + 1) * fs.pointers = fuel * fs.pointers + fs.pointers := Nat.succ_mul _ _
    have hpos := Fs.piecesOf_pos hbs s.size
    split_ifs with hzero
    · have hno : ¬Supplies B fs := fun h => h.obtainBlock _ s hzero
      exact ⟨obtainBlock_node _, .inl rfl, fun h => absurd h hno⟩
    · have hout := @writeEntries_out B buffer fs hbs (fs.pointers - i) i
        (loadTable B heap fs (tableEntry doubly j) (obtainBlock B fs (tableEntry doubly j) s).1
          (obtainBlock B fs (tableEntry doubly j) s).2) (obtainBlock B fs (tableEntry doubly j) s).2
      rw [hfuel]
      generalize writeEntries B buffer fs (fs.pointers - i) i _ _ = out at hout ⊢
      cases out with
      | failed s' => exact ⟨hout.1.trans (obtainBlock_node _), .inl rfl, fun h => absurd h hout.2⟩
      | last sib s' =>
        have hle := hout.2
        rw [obtainBlock_size] at hle
        exact ⟨hout.1.trans (obtainBlock_node _), .inr ⟨_, rfl⟩, fun _ => by omega⟩
      | more sib s' =>
        have hle := hout.2
        have hnode : s'.node = s.node := hout.1.trans (obtainBlock_node _)
        rw [obtainBlock_size] at hle
        have hstep := ih (j + 1) (i - fs.pointers)
          (enter (tableEntry doubly j) j (obtainBlock B fs (tableEntry doubly j) s).1 doubly)
          (writeTable B fs (obtainBlock B fs (tableEntry doubly j) s).1 sib s')
        dsimp only
        generalize writeDoublyLoop B buffer heap fs pointer fuel (j + 1) _ _ _ = out' at hstep ⊢
        cases out' with
        | error r =>
          obtain ⟨h1, h2, h3⟩ := hstep
          rw [writeTable_size] at h3
          exact ⟨h1.trans hnode, h2, fun h => by have := h3 h; omega⟩
        | ok t =>
          obtain ⟨h1, h2⟩ := hstep
          rw [writeTable_size] at h2
          refine ⟨h1.trans hnode, ?_⟩
          omega

/-- What the part for the doubly indirect block has done. -/
def DoublyOut (B : BlockLayer) (fs : Fs) (i : ℕ) (s : WriteState) :
    Except WriteResult (ℕ × WriteState) → Prop
  | .error r => Returned B fs s.node (fun k => k = 13) r ∧
      (Supplies B fs → i + fs.piecesOf s.size ≤ fs.pointers * fs.pointers)
  | .ok (i', s') => Attaches s.node s'.node (fun k => k = 13) ∧ s'.node.pointer 13 ≠ 0 ∧
      i + fs.piecesOf s.size = fs.pointers * fs.pointers + i' + fs.piecesOf s'.size

theorem writeDoubly_out (hbs : 0 < fs.blockSize) (i : ℕ) (s : WriteState) :
    DoublyOut B fs i s (writeDoubly B buffer heap fs i s) := by
  unfold writeDoubly
  dsimp only
  obtain ⟨hattach, hset⟩ := @attach_attaches B fs s 13
  have hfuel : fs.blockSize / 4 = fs.pointers := rfl
  split_ifs with hzero
  · have hno : ¬Supplies B fs := fun h => h.obtainBlock _ s hzero
    exact ⟨⟨.of_eq (obtainBlock_node _) _, fun h => absurd h hno, .inl rfl⟩, fun h => absurd h hno⟩
  · have hout := @writeDoublyLoop_out B buffer heap fs hbs (obtainBlock B fs (s.node.pointer 13) s).1 fs.pointers 0 i
      (loadTable B heap fs (s.node.pointer 13) (obtainBlock B fs (s.node.pointer 13) s).1
        (attach 13 (obtainBlock B fs (s.node.pointer 13) s).1 (obtainBlock B fs (s.node.pointer 13) s).2))
      (attach 13 (obtainBlock B fs (s.node.pointer 13) s).1 (obtainBlock B fs (s.node.pointer 13) s).2)
    have h13 := hset hzero
    rw [hfuel]
    generalize writeDoublyLoop B buffer heap fs _ fs.pointers 0 i _ _ = out at hout ⊢
    cases out with
    | error r =>
      obtain ⟨hnode, hends, hle⟩ := hout
      rw [attach_size, obtainBlock_size] at hle
      refine ⟨⟨?_, fun _ k hk => ?_, hends⟩, hle⟩
      · rwa [hnode]
      · rwa [hk, hnode]
    | ok t =>
      obtain ⟨hnode, hle⟩ := hout
      rw [attach_size, obtainBlock_size] at hle
      refine ⟨?_, ?_, hle⟩
      · change Attaches s.node t.2.2.node _
        rwa [hnode]
      · change t.2.2.node.pointer 13 ≠ 0
        rwa [hnode]

/-- The pointers of the node that lead to the blocks `first`, …, `e - 1` of a file, up to the
doubly indirect block. -/
def Fs.Touched (fs : Fs) (first e k : ℕ) : Prop :=
  (k < 12 ∧ first ≤ k ∧ k < e) ∨ (k = 12 ∧ 12 < e) ∨ (k = 13 ∧ 12 + fs.pointers < e)

/-- How the part behind the direct pointers is entered: with the number of pieces that are left. -/
theorem writeLevels_cases (hbs : 0 < fs.blockSize) (first : ℕ) (s : WriteState) :
    (∃ r, writeLevels B buffer heap fs first s = .error r ∧
      Returned B fs s.node (fs.Touched first (first + fs.piecesOf s.size)) r ∧
      (Supplies B fs → first + fs.piecesOf s.size ≤ fs.doublyEnd)) ∨
    ∃ i s', writeLevels B buffer heap fs first s = writeTriply B buffer heap fs i s' ∧
      Attaches s.node s'.node (fun k => k < 14) ∧ fs.doublyEnd < first + fs.piecesOf s.size := by
  unfold writeLevels
  have hD : fs.doublyEnd = 12 + fs.pointers + fs.pointers * fs.pointers := rfl
  have hfuel : fs.blockSize / 4 = fs.pointers := rfl
  have hpos := Fs.piecesOf_pos hbs s.size
  have h1 := @writeDirect_out B buffer fs hbs (12 - first) first s
  cases hdirect : writeDirect B buffer fs (12 - first) first s with
  | failed s1 =>
    rw [hdirect] at h1
    obtain ⟨hattach, hno⟩ := h1
    refine .inl ⟨_, rfl, ⟨hattach.mono fun k hk => ?_, fun h => absurd h hno, .inl rfl⟩, fun h => absurd h hno⟩
    exact .inl ⟨by omega, hk.1, hk.2.2⟩
  | last _ s1 =>
    rw [hdirect] at h1
    obtain ⟨hattach, hle, hall⟩ := h1
    refine .inl ⟨_, rfl, ⟨hattach.mono fun k hk => .inl ⟨by omega, hk⟩, fun _ k hk => ?_, .inr ⟨s1, rfl⟩⟩,
      fun _ => by omega⟩
    unfold Fs.Touched at hk
    exact hall k (by omega) (by omega)
  | more _ s1 =>
    rw [hdirect] at h1
    obtain ⟨hattach, hle, hall⟩ := h1
    have hpos1 := Fs.piecesOf_pos hbs s1.size
    dsimp only
    have h2 := @writeSingly_out B buffer heap fs hbs (first - 12) s1
    cases hsingly : writeSingly B buffer heap fs (first - 12) s1 with
    | error r =>
      rw [hsingly] at h2
      obtain ⟨⟨hattach2, hsup, hends⟩, hle2⟩ := h2
      refine .inl ⟨r, rfl, ⟨(hattach.trans hattach2).mono fun k hk => ?_, fun h k hk => ?_, hends⟩, fun h => ?_⟩
      · unfold Fs.Touched
        omega
      · have := hle2 h
        unfold Fs.Touched at hk
        by_cases h12 : k = 12
        · exact hsup h k h12
        · exact hattach2.ne_zero (hall k (by omega) (by omega))
      · have := hle2 h
        omega
    | ok s2 =>
      rw [hsingly] at h2
      obtain ⟨hattach2, h12, hle2⟩ := h2
      have hpos2 := Fs.piecesOf_pos hbs s2.size
      have h3 := @writeDoubly_out B buffer heap fs hbs (first - 12 - fs.pointers) s2
      change (∃ r, (writeDoubly B buffer heap fs (first - 12 - fs.pointers) s2 >>= fun t =>
          writeTriply B buffer heap fs t.1 t.2) = .error r ∧ _) ∨
        ∃ i s', (writeDoubly B buffer heap fs (first - 12 - fs.pointers) s2 >>= fun t =>
          writeTriply B buffer heap fs t.1 t.2) = _ ∧ _
      cases hdoubly : writeDoubly B buffer heap fs (first - 12 - fs.pointers) s2 with
      | error r =>
        rw [hdoubly] at h3
        obtain ⟨⟨hattach3, hsup, hends⟩, hle3⟩ := h3
        refine .inl ⟨r, rfl, ⟨((hattach.trans hattach2).trans hattach3).mono fun k hk => ?_, fun h k hk => ?_,
          hends⟩, fun h => ?_⟩
        · unfold Fs.Touched
          omega
        · unfold Fs.Touched at hk
          by_cases h13 : k = 13
          · exact hsup h k h13
          · apply hattach3.ne_zero
            by_cases hk12 : k = 12
            · rwa [hk12]
            · exact hattach2.ne_zero (hall k (by omega) (by omega))
        · have := hle3 h
          omega
      | ok t =>
        rw [hdoubly] at h3
        obtain ⟨hattach3, -, hle3⟩ := h3
        have hpos3 := Fs.piecesOf_pos hbs t.2.size
        refine .inr ⟨t.1, t.2, rfl, ((hattach.trans hattach2).trans hattach3).mono fun k hk => ?_, ?_⟩
        · omega
        · omega

/-! ## The triply indirect block -/

theorem writeEntriesAt_node (j fuel i : ℕ) (sib : Mem) (s : WriteState) :
    match writeEntriesAt B buffer fs j fuel i sib s with
    | .failed s' | .last _ s' | .more _ s' => s'.node = s.node := by
  induction fuel generalizing i sib s with
  | zero => rfl
  | succ fuel ih =>
    rw [writeEntriesAt]
    dsimp only
    split_ifs
    · exact obtainBlock_node _
    · exact obtainBlock_node _
    · have hstep := ih (i + 1) (enter (tableEntry sib i) j (obtainBlock B fs (tableEntry sib i) s).1 sib)
        (writePiece B buffer fs (tableEntry (enter (tableEntry sib i) j
          (obtainBlock B fs (tableEntry sib i) s).1 sib) i) (obtainBlock B fs (tableEntry sib i) s).2)
      rw [writePiece_node, obtainBlock_node] at hstep
      exact hstep

/-- The loops below the triply indirect block keep the node. -/
theorem writeTriplyInner_node (triply : Mem) (fuel j i : ℕ) (dib : Mem) (s : WriteState) :
    match writeTriplyInner B buffer heap fs triply fuel j i dib s with
    | .error r => r.node = s.node ∧ Ends B fs r
    | .ok (_, _, s') => s'.node = s.node := by
  induction fuel generalizing j i dib s with
  | zero => rfl
  | succ fuel ih =>
    rw [writeTriplyInner]
    dsimp only
    split_ifs
    · exact ⟨obtainBlock_node _, .inl rfl⟩
    · have hout := @writeEntriesAt_node B buffer fs j (fs.blockSize / 4 - i) i
        (loadTable B heap fs (tableEntry dib j) (obtainBlock B fs (tableEntry dib j) s).1
          (obtainBlock B fs (tableEntry dib j) s).2) (obtainBlock B fs (tableEntry dib j) s).2
      rw [obtainBlock_node] at hout
      generalize writeEntriesAt B buffer fs j _ i _ _ = out at hout ⊢
      cases out with
      | failed s' => exact ⟨hout, .inl rfl⟩
      | last sib s' => exact ⟨hout, .inr ⟨_, rfl⟩⟩
      | more sib s' =>
        have hstep := ih (j + 1) (i - fs.blockSize / 4)
          (enter (tableEntry dib j) j (obtainBlock B fs (tableEntry dib j) s).1 dib)
          (writeTable B fs (obtainBlock B fs (tableEntry dib j) s).1 sib s')
        rw [writeTable_node, hout] at hstep
        exact hstep

/-- With a null pointer behind the triply indirect block, every round enters a new block into the
node. -/
theorem writeTriplyLoop_node {b : ℕ} (hb : b ≠ 0) (hlt : b < 2 ^ 32) (hgrant : ∀ s, (allocate B fs s).1 = b)
    {triply : Mem} (hz : tableEntry triply fs.pointers = 0) (fuel i : ℕ) (s : WriteState)
    (h : fuel = 0 → s.node.pointer 14 = b) :
    match writeTriplyLoop B buffer heap fs triply fuel i s with
    | .error r => r.node.length = s.node.length ∧ r.node.pointer 14 = b ∧ Ends B fs r
    | .ok s' => s'.node.length = s.node.length ∧ s'.node.pointer 14 = b := by
  induction fuel generalizing i s with
  | zero => exact ⟨rfl, h rfl⟩
  | succ fuel ih =>
    have hfuel : fs.blockSize / 4 = fs.pointers := rfl
    rw [writeTriplyLoop]
    dsimp only
    rw [hfuel, hz, if_pos rfl]
    have hnew : (obtainBlock B fs 0 s).1 = b := hgrant s
    have hnode : (obtainBlock B fs 0 s).2.node = s.node := obtainBlock_node 0
    generalize obtainBlock B fs 0 s = r at hnew hnode ⊢
    rw [hnew, if_neg hb]
    have hset : (r.2.node.setPointer 14 b).pointer 14 = b := by
      rw [setPointer_pointer, if_pos rfl, u32_of_lt hlt]
    have hlen : (r.2.node.setPointer 14 b).length = s.node.length := by
      rw [← hnode]
      rfl
    have hinner := @writeTriplyInner_node B buffer heap fs triply fs.pointers 0 i
      (loadTable B heap fs 0 0 { r.2 with node := r.2.node.setPointer 14 b })
      { r.2 with node := r.2.node.setPointer 14 b }
    generalize writeTriplyInner B buffer heap fs triply fs.pointers 0 i _ _ = out at hinner ⊢
    cases out with
    | error r' =>
      obtain ⟨hr, hends⟩ := hinner
      refine ⟨?_, ?_, hends⟩
      · rw [hr]
        exact hlen
      · rw [hr]
        exact hset
    | ok t =>
      have ht : t.2.2.node = r.2.node.setPointer 14 b := hinner
      have hstep := ih t.2.1 (writeTable B fs 0 t.1 t.2.2) fun _ => by
        rw [writeTable_node, ht]
        exact hset
      rw [writeTable_node, ht, hlen] at hstep
      exact hstep

theorem writeTriply_node {b : ℕ} (hb : b ≠ 0) (hlt : b < 2 ^ 32) (hgrant : ∀ s, (allocate B fs s).1 = b)
    (hp : 0 < fs.pointers) (hz : ∀ entry block s, tableEntry (loadTable B heap fs entry block s) fs.pointers = 0)
    (i : ℕ) (s : WriteState) :
    match writeTriply B buffer heap fs i s with
    | .error r => r.node.length = s.node.length ∧ r.node.pointer 14 = b ∧ Ends B fs r
    | .ok s' => s'.node.length = s.node.length ∧ s'.node.pointer 14 = b := by
  unfold writeTriply
  dsimp only
  have hfuel : fs.blockSize / 4 = fs.pointers := rfl
  have hsup : Supplies B fs := by
    intro s'
    rw [hgrant]
    exact hb
  rw [if_neg (hsup.obtainBlock _ s), hfuel]
  obtain ⟨hattach, -⟩ := @attach_attaches B fs s 14
  have hlen := hattach.length
  generalize obtainBlock B fs (s.node.pointer 14) s = r at hlen ⊢
  have hloop := @writeTriplyLoop_node B buffer heap fs b hb hlt hgrant
    (loadTable B heap fs (s.node.pointer 14) r.1 (attach 14 r.1 r.2)) (hz _ _ _) fs.pointers i
    (attach 14 r.1 r.2) fun h => by omega
  rw [hlen] at hloop
  generalize writeTriplyLoop B buffer heap fs _ fs.pointers i _ = out at hloop ⊢
  cases out with
  | error r' => exact hloop
  | ok s' => exact hloop

/-! ## A drive that reports an error for every request -/

/-- Reads fill the buffer with one byte, writes do nothing. -/
def stuckDrive (c : UInt8) : BlockLayer where
  read _ _ _ count := (.diskInternal, fun x => if x < count then c else 0)
  write disk _ _ _ _ := (.diskInternal, disk)

theorem firstZeroInByte_one : firstZeroInByte 1 8 0 = some 1 := by decide

theorem firstZeroInByte_three : firstZeroInByte 3 8 0 = some 2 := by decide

theorem allocLoop_stuckDrive (number : Fs → ℕ → ℕ → ℕ → ℕ) (hbs : 0 < fs.blockSize) {fuel : ℕ} (hfuel : 0 < fuel)
    {c : UInt8} {k : ℕ} (hk : firstZeroInByte c 8 0 = some k) (hk' : k < 8) (disk : Mem) :
    (allocLoop (stuckDrive c) blockUsage number fuel 0 fs disk).1 = number fs 0 (loadLE (fun _ => c) 8 4) k := by
  obtain ⟨fuel, rfl⟩ := Nat.exists_eq_succ_of_ne_zero hfuel.ne'
  obtain ⟨bytes, hb⟩ := Nat.exists_eq_succ_of_ne_zero hbs.ne'
  have hmark : (bitmapMarkFirstZeroBit (fun x => if x < fs.blockSize then c else 0) fs.blockSize).1 = k := by
    unfold bitmapMarkFirstZeroBit
    rw [hb, Nat.succ_eq_add_one, markLoop, if_pos (Nat.succ_pos bytes), hk]
    dsimp only
    rw [Nat.zero_mul, Nat.zero_add, u32_of_lt (by omega)]
  have hstart : BlockGroupDescriptor.startingBlockAdress.get (readDescriptor (stuckDrive c) fs disk 0).2 =
      loadLE (fun _ => c) 8 4 := by
    apply loadLE_congr
    intro x _ hx
    have h12 : BlockGroupDescriptor.startingBlockAdress.offset +
        BlockGroupDescriptor.startingBlockAdress.width = 12 := rfl
    exact if_pos (by unfold sizeofBlockGroupDescriptor; omega)
  rw [Nat.succ_eq_add_one, allocLoop]
  dsimp only
  rw [hstart]
  change (if (bitmapMarkFirstZeroBit (fun x => if x < fs.blockSize then c else 0) fs.blockSize).1 = 2 ^ 32 - 1
    then _ else (number fs 0 _
      (bitmapMarkFirstZeroBit (fun x => if x < fs.blockSize then c else 0) fs.blockSize).1, _)).1 = _
  rw [hmark, if_neg (by omega)]

/-- Every allocation returns the same block. -/
theorem allocate_stuckDrive (hbs : 0 < fs.blockSize) (hgroups : 0 < fs.blockgroupCount) {c : UInt8} {k : ℕ}
    (hk : firstZeroInByte c 8 0 = some k) (hk' : k < 8) (s : WriteState) :
    (allocate (stuckDrive c) fs s).1 = u32 (u32 (loadLE (fun _ => c) 8 4) + k) := by
  have hloop := @allocLoop_stuckDrive { fs with superblock := s.superblock }
    (fun fs i starting bit => u32 (u32 (i * fs.blocksPerBlockgroup + starting) + bit)) hbs _ hgroups c k hk hk' s.disk
  rw [Nat.zero_mul, Nat.zero_add] at hloop
  exact hloop

theorem allocate_stuckDrive_one (hbs : 0 < fs.blockSize) (hgroups : 0 < fs.blockgroupCount) (s : WriteState) :
    (allocate (stuckDrive 1) fs s).1 = 0x01010102 :=
  allocate_stuckDrive hbs hgroups firstZeroInByte_one (by norm_num) s

theorem allocate_stuckDrive_three (hbs : 0 < fs.blockSize) (hgroups : 0 < fs.blockgroupCount) (s : WriteState) :
    (allocate (stuckDrive 3) fs s).1 = 0x03030305 :=
  allocate_stuckDrive hbs hgroups firstZeroInByte_three (by norm_num) s

/-- A drive whose allocations return a block other than `x`. -/
theorem exists_stuckDrive (hbs : 0 < fs.blockSize) (hgroups : 0 < fs.blockgroupCount) (x : ℕ) :
    ∃ c b, b ≠ 0 ∧ b < 2 ^ 32 ∧ b ≠ x ∧ ∀ s, (allocate (stuckDrive c) fs s).1 = b := by
  by_cases hx : 0x01010102 = x
  · refine ⟨3, 0x03030305, by decide, by decide, ?_, allocate_stuckDrive_three hbs hgroups⟩
    rw [← hx]
    decide
  · exact ⟨1, 0x01010102, by decide, by decide, hx, allocate_stuckDrive_one hbs hgroups⟩

theorem writeInode_stuckDrive (c : UInt8) (s : WriteState) :
    (writeInode (stuckDrive c) fs s).error = .diskInternal := rfl

theorem Ends.error {c : UInt8} {r : WriteResult} (h : Ends (stuckDrive c) fs r) :
    r.error ≠ .none ∧ r.error ≠ .fileOut := by
  rcases h with h | ⟨s, rfl⟩
  · rw [h]
    exact ⟨by decide, by decide⟩
  · rw [writeInode_stuckDrive]
    exact ⟨by decide, by decide⟩

/-- Behind a table is zero. -/
theorem tableEntry_behind (hs : fs.SizeOk) (c : UInt8) (entry block : ℕ) (s : WriteState) :
    tableEntry (loadTable (stuckDrive c) (fun _ => 0) fs entry block s) fs.pointers = 0 := by
  have h4 := hs.sizes.2.2.2
  have hz : loadLE (fun _ => 0) (4 * fs.pointers) 4 = 0 := by simp [loadLE]
  unfold tableEntry
  rw [← hz]
  apply loadLE_congr
  intro x hx _
  unfold loadTable
  split_ifs
  · exact if_neg (by omega)
  · exact if_neg (by omega)

/-! ## Which writes leave the node alone -/

/-- What is expected of a write. -/
structure RejectsCleanly (node : Node) (offset : ℕ) (r : WriteResult) : Prop where
  length : r.error ≠ .none → r.node.length = node.length
  pointers : r.error ≠ .none → ∀ k < 15, r.node.pointer k = node.pointer k
  out : offset > node.length → r.error = .fileOut

/-- The write is refused before it does anything, or it has nothing to change in the node: it
does not go past the length, the pointers of the node that it comes to are set, and it stays
within the first three levels. -/
def Fs.LeavesNode (fs : Fs) (node : Node) (offset size : ℕ) : Prop :=
  if fs.readOnly then offset ≤ node.length
  else u32 (size + offset) ≤ node.length ∧ (offset ≤ node.length →
    offset / fs.blockSize + fs.piecesOf size ≤ fs.doublyEnd ∧
    ∀ k, fs.Touched (offset / fs.blockSize) (offset / fs.blockSize + fs.piecesOf size) k → node.pointer k ≠ 0)

theorem writeContent_of_levels {disk : Mem} {node : Node} {offset size : ℕ} (hro : fs.readOnly = false)
    (hout : ¬offset > (if u32 (size + offset) > node.length then node.setLength (size + offset) else node).length) :
    writeContent B buffer heap fs disk node offset size =
      match writeLevels B buffer heap fs (offset / fs.blockSize) ⟨fs.superblock, disk,
        if u32 (size + offset) > node.length then node.setLength (size + offset) else node, size,
        offset % fs.blockSize, 0⟩ with
      | .error r => r
      | .ok s => writeInode B fs s := by
  unfold writeContent
  rw [hro, if_neg Bool.false_ne_true]
  exact if_neg hout

/-- The length stays as it was set, and the error is one of the drive, with a drive that reports
only errors. -/
theorem writeLevels_stuckDrive (hs : fs.SizeOk) {c : UInt8} {b : ℕ}
    (hb : b ≠ 0) (hlt : b < 2 ^ 32) (hgrant : ∀ s, (allocate (stuckDrive c) fs s).1 = b) (first : ℕ)
    (s : WriteState) :
    ∃ r, (match writeLevels (stuckDrive c) buffer (fun _ => 0) fs first s with
        | .error r => r
        | .ok s => writeInode (stuckDrive c) fs s) = r ∧
      r.node.length = s.node.length ∧ r.error ≠ .none ∧ r.error ≠ .fileOut ∧
      (first + fs.piecesOf s.size ≤ fs.doublyEnd →
        ∀ k, fs.Touched first (first + fs.piecesOf s.size) k → r.node.pointer k ≠ 0) ∧
      (fs.doublyEnd < first + fs.piecesOf s.size → r.node.pointer 14 = b) := by
  have hbs : 0 < fs.blockSize := by
    have := hs.sizes
    omega
  have hsup : Supplies (stuckDrive c) fs := by
    intro s'
    rw [hgrant]
    exact hb
  obtain ⟨r, hr, hret, hle⟩ | ⟨i, s', hr, hattach, hlt'⟩ :=
    @writeLevels_cases (stuckDrive c) buffer (fun _ => 0) fs hbs first s
  · rw [hr]
    obtain ⟨h1, h2⟩ := hret.ends.error
    exact ⟨r, rfl, hret.attaches.length, h1, h2, fun _ => hret.supplied hsup, fun h => absurd (hle hsup) (by omega)⟩
  · have hp : 0 < fs.pointers := by
      have := hs.sizes
      omega
    have htriply := @writeTriply_node (stuckDrive c) buffer (fun _ => 0) fs b hb hlt hgrant hp
      (tableEntry_behind hs c) i s'
    rw [hr]
    generalize writeTriply (stuckDrive c) buffer (fun _ => 0) fs i s' = out at htriply
    cases out with
    | error r =>
      obtain ⟨h1, h2, hends⟩ := htriply
      obtain ⟨h3, h4⟩ := hends.error
      exact ⟨r, rfl, h1.trans hattach.length, h3, h4, fun h => absurd h (by omega), fun _ => h2⟩
    | ok s'' =>
      obtain ⟨h1, h2⟩ := htriply
      have hends : Ends (stuckDrive c) fs (writeInode (stuckDrive c) fs s'') := .inr ⟨s'', rfl⟩
      obtain ⟨h3, h4⟩ := hends.error
      exact ⟨_, rfl, h1.trans hattach.length, h3, h4, fun h => absurd h (by omega), fun _ => h2⟩

/-- A write leaves the node as it was whenever it is rejected, on every disk and whatever the
drive answers, exactly if it has nothing to change in the node. -/
theorem writeContent_rejects_iff (hs : fs.SizeOk) (hgroups : 0 < fs.blockgroupCount) (node : Node)
    (offset size : ℕ) :
    (∀ (B : BlockLayer) (buffer heap disk : Mem),
      RejectsCleanly node offset (writeContent B buffer heap fs disk node offset size)) ↔
      fs.LeavesNode node offset size := by
  have hbs : 0 < fs.blockSize := by
    have := hs.sizes
    omega
  unfold Fs.LeavesNode
  cases hro : fs.readOnly with
  | true =>
    have hcall : ∀ B buffer heap disk, writeContent B buffer heap fs disk node offset size =
        ⟨.fileSystemReadOnly, fs.superblock, disk, node⟩ := fun _ _ _ _ => if_pos hro
    rw [if_pos rfl]
    constructor
    · intro h
      by_contra hlt
      have hout := (h (stuckDrive 1) (fun _ => 0) (fun _ => 0) fun _ => 0).out (not_le.mp hlt)
      rw [hcall] at hout
      cases hout
    · intro hle B buffer heap disk
      rw [hcall]
      exact ⟨fun _ => rfl, fun _ _ _ => rfl, fun hlt => absurd hle (not_le.mpr hlt)⟩
  | false =>
    rw [if_neg Bool.false_ne_true]
    constructor
    · intro h
      have hle : u32 (size + offset) ≤ node.length := by
        by_contra hlt
        -- the length has been set
        have hlen : (if u32 (size + offset) > node.length then node.setLength (size + offset) else node).length =
            u32 (size + offset) := by
          rw [if_pos (not_le.mp hlt)]
          rfl
        have hclean := h (stuckDrive 1) (fun _ => 0) (fun _ => 0) fun _ => 0
        by_cases hout : offset > u32 (size + offset)
        · have hcall : writeContent (stuckDrive 1) (fun _ => 0) (fun _ => 0) fs (fun _ => 0) node offset size =
              ⟨.fileOut, fs.superblock, fun _ => 0, node.setLength (size + offset)⟩ := by
            unfold writeContent
            rw [hro, if_neg Bool.false_ne_true]
            dsimp only
            rw [if_pos (not_le.mp hlt)]
            exact if_pos hout
          rw [hcall] at hclean
          have hne : ErrorT.fileOut ≠ ErrorT.none := by decide
          exact hlt (hclean.length hne).le
        · rw [← hlen] at hout
          rw [writeContent_of_levels hro hout] at hclean
          obtain ⟨r, hr, h1, h2, -⟩ := @writeLevels_stuckDrive (fun _ => 0) fs hs 1 _ (by decide) (by decide)
            (allocate_stuckDrive_one hbs hgroups) (offset / fs.blockSize) ⟨fs.superblock, fun _ => 0,
              if u32 (size + offset) > node.length then node.setLength (size + offset) else node, size,
              offset % fs.blockSize, 0⟩
          rw [hr] at hclean
          have hlength := hclean.length h2
          rw [h1] at hlength
          exact hlt (hlen.symm.trans hlength).le
      refine ⟨hle, fun hoff => ?_⟩
      have hnode : (if u32 (size + offset) > node.length then node.setLength (size + offset) else node) = node :=
        if_neg (not_lt.mpr hle)
      have hcall : ∀ B disk, writeContent B (fun _ => 0) (fun _ => 0) fs disk node offset size =
          match writeLevels B (fun _ => 0) (fun _ => 0) fs (offset / fs.blockSize)
            ⟨fs.superblock, disk, node, size, offset % fs.blockSize, 0⟩ with
          | .error r => r
          | .ok s => writeInode B fs s := by
        intro B disk
        have hlevels := @writeContent_of_levels B (fun _ => 0) (fun _ => 0) fs disk node offset size hro
          (by rw [hnode]; omega)
        rwa [hnode] at hlevels
      obtain ⟨c, b, hb, hlt, hother, hgrant⟩ := exists_stuckDrive hbs hgroups (node.pointer 14)
      obtain ⟨r, hr, -, h2, -, hset, h14⟩ := @writeLevels_stuckDrive (fun _ => 0) fs hs c b hb hlt hgrant
        (offset / fs.blockSize) ⟨fs.superblock, fun _ => 0, node, size, offset % fs.blockSize, 0⟩
      have hclean := h (stuckDrive c) (fun _ => 0) (fun _ => 0) fun _ => 0
      rw [hcall, hr] at hclean
      have hD : offset / fs.blockSize + fs.piecesOf size ≤ fs.doublyEnd := by
        by_contra hover
        have hsame := hclean.pointers h2 14 (by norm_num)
        rw [h14 (not_le.mp hover)] at hsame
        exact hother hsame
      refine ⟨hD, fun k hk => ?_⟩
      have hsame := hclean.pointers h2 k (by unfold Fs.Touched at hk; omega)
      rw [← hsame]
      exact hset hD k hk
    · intro ⟨hle, hrest⟩ B buffer heap disk
      have hnode : (if u32 (size + offset) > node.length then node.setLength (size + offset) else node) = node :=
        if_neg (not_lt.mpr hle)
      by_cases hout : offset > node.length
      · have hcall : writeContent B buffer heap fs disk node offset size = ⟨.fileOut, fs.superblock, disk, node⟩ := by
          unfold writeContent
          rw [hro, if_neg Bool.false_ne_true]
          dsimp only
          rw [hnode]
          exact if_pos hout
        rw [hcall]
        exact ⟨fun _ => rfl, fun _ _ _ => rfl, fun _ => rfl⟩
      · obtain ⟨hD, hset⟩ := hrest (not_lt.mp hout)
        have hcall := @writeContent_of_levels B buffer heap fs disk node offset size hro (by rwa [hnode])
        rw [hnode] at hcall
        obtain ⟨r, hr, hret, -⟩ | ⟨i, s', -, -, hlt⟩ := @writeLevels_cases B buffer heap fs hbs
          (offset / fs.blockSize) ⟨fs.superblock, disk, node, size, offset % fs.blockSize, 0⟩
        · rw [hcall, hr]
          refine ⟨fun _ => hret.attaches.length, fun _ k _ => hret.attaches.kept k ?_, fun h => absurd h hout⟩
          by_cases hk : fs.Touched (offset / fs.blockSize) (offset / fs.blockSize + fs.piecesOf size) k
          · exact .inr (hset k hk)
          · exact .inl hk
        · exact absurd hD (not_le.mpr hlt)

/-- A file of one block is written again, on a drive that reports only errors. -/
theorem writeContent_rejects_one_block : RejectsCleanly (smallNode 0 1 (by decide) (by decide)) 0
    (writeContent (stuckDrive 1) (fun _ => 0) (fun _ => 0) smallVolume smallDisk
      (smallNode 0 1 (by decide) (by decide)) 0 1024) := by
  have hpieces : smallVolume.piecesOf 1024 = 1 := by decide
  have hleaves : smallVolume.LeavesNode (smallNode 0 1 (by decide) (by decide)) 0 1024 := by
    unfold Fs.LeavesNode
    rw [if_neg (by decide), hpieces]
    refine ⟨by decide, fun _ => ⟨by decide, fun k hk => ?_⟩⟩
    have h0 : k = 0 := by
      unfold Fs.Touched at hk
      have hsize : (0 : ℕ) / smallVolume.blockSize = 0 := by decide
      omega
    rw [h0]
    decide
  exact (writeContent_rejects_iff (show smallVolume.SizeOk from ⟨0, by decide, rfl⟩) (by decide) _ 0 1024).mpr
    hleaves _ _ _ _

/-- A write far behind the end of a file of 1024 bytes: the sum of offset and size wraps to 2048.
The call is rejected, and the file has 2048 bytes. -/
theorem writeContent_rejected_sets_length :
    let r := writeContent (.exactWith fun _ => 0) (fun _ => 0) (fun _ => 0) smallVolume smallDisk
      (smallNode 0 1 (by decide) (by decide)) 0xFFFFFFFF 2049
    r.error = .fileOut ∧ r.node.length = 2048 := by
  intro r
  exact ⟨rfl, rfl⟩

/-- A write behind the end that does not wrap is accepted on the way to the blocks: here the drive
reports the error. -/
example : (writeContent (stuckDrive 1) (fun _ => 0) (fun _ => 0) smallVolume smallDisk
    (smallNode 0 1 (by decide) (by decide)) 5000 100).error = .diskInternal := by
  rfl

end VkKernel.Ext2
