import VkKernel.Ext2

/-!
# Reading ext2 files

`ext2_inode_read_content` walks the direct pointers and the three levels of
indirect blocks, and queues a request for each piece of one block. Requests for
neighbouring blocks are merged. What the queue holds at the end decides which
bytes of the disk a read returns.
-/

namespace VkKernel.Ext2
open ByteMemory PackedStruct IntervalUpdate

/-! ## The reader -/

/-- An `ext2_read_request_t`. The buffer is counted from the caller's buffer on,
which the comparisons of `ext2_queue_read` do not depend on. -/
structure ReadRequest where
  sector : ℕ
  count : ℕ
  offset : ℕ
  buffer : ℕ
deriving DecidableEq, Repr

/-- An entry that `memset` has cleared. -/
def ReadRequest.empty : ReadRequest := ⟨0, 0, 0, 0⟩

/-- `ext2_queue_read`. There is no result when the loop runs out of the array. -/
def queueRead : List ReadRequest → ReadRequest → Option (List ReadRequest)
  | [], _ => none
  | r :: rs, q =>
    if r.sector = 0 then some (q :: rs)
    else if r.sector = u32 (q.sector + 2 ^ 32 - r.count / bytesPerSector) ∧
        r.buffer = u32 (q.buffer + 2 ^ 32 - r.count) then
      some ({ r with count := u32 (r.count + q.count) } :: rs)
    else (queueRead rs q).map (r :: ·)

/-- The local variables of `ext2_inode_read_content` that every piece changes. -/
structure ReadState where
  size : ℕ
  offset : ℕ
  currentloc : ℕ
  requests : List ReadRequest

/-- How the walk over the pointers is left: with an access outside the array of
requests, with `return`, or with `goto send_requests`. -/
inductive ReadExit
  | fault
  | failed (error : ErrorT)
  | send (requests : List ReadRequest)

section Functions
variable (B : BlockLayer) (fs : Fs) (disk : Mem)

/-- The body of the loops behind the test of the pointer. -/
def readBlock (block : ℕ) (s : ReadState) : Except ReadExit ReadState :=
  match queueRead s.requests ⟨fs.sectorOf block,
      if s.size ≥ fs.blockSize then fs.blockSize else s.size, s.offset, s.currentloc⟩ with
  | none => .error .fault
  | some requests =>
    let size := if s.size ≥ fs.blockSize then s.size - fs.blockSize else 0
    if size = 0 then .error (.send requests)
    else .ok ⟨size, 0, u32 (s.currentloc + fs.blockSize), requests⟩

/-- The loop over one array of pointers from `i` on, where `entry` is tested and
`block` is read. -/
def readEntries (entry block : ℕ → ℕ) : ℕ → ℕ → ReadState → Except ReadExit ReadState
  | 0, _, s => .ok s
  | fuel + 1, i, s =>
    if entry i = 0 then .error (.failed .fileCorruptedFs)
    else readBlock fs (block i) s >>= readEntries entry block fuel (i + 1)

/-- The test and the read of an indirect block. -/
def readTable (block : ℕ) : Except ReadExit (ℕ → ℕ) :=
  if block = 0 then .error (.failed .fileCorruptedFs)
  else if (B.read disk (fs.sectorOf block) 0 fs.blockSize).1 ≠ .none then
    .error (.failed (B.read disk (fs.sectorOf block) 0 fs.blockSize).1)
  else .ok (readPointers B fs disk block)

/-- The loop over the doubly indirect block, with the block counter `i`. -/
def readDoubly (doubly : ℕ → ℕ) : ℕ → ℕ → ℕ → ReadState → Except ReadExit (ℕ × ReadState)
  | 0, _, i, s => .ok (i, s)
  | fuel + 1, j, i, s => do
    let sib ← readTable B fs disk (doubly j)
    let s ← readEntries fs sib sib (fs.blockSize / 4 - i) i s
    readDoubly doubly fuel (j + 1) (i - fs.blockSize / 4) s

/-- The loop over a doubly indirect block below the triply indirect one. It tests
the pointers of the singly indirect block, and reads the ones that it finds in
the freed buffer `stale` of the first level. -/
def readDoublyStale (stale : ℕ → ℕ → ℕ) (dib : ℕ → ℕ) :
    ℕ → ℕ → ℕ → ReadState → Except ReadExit (ℕ × ReadState)
  | 0, _, i, s => .ok (i, s)
  | fuel + 1, j, i, s => do
    let sib ← readTable B fs disk (dib j)
    let s ← readEntries fs sib (stale j) (fs.blockSize / 4 - i) i s
    readDoublyStale stale dib fuel (j + 1) (i - fs.blockSize / 4) s

/-- The loop over the triply indirect block takes its pointer at `j`, which the
loops before have left at the end of a block. -/
def readTriply (stale : ℕ → ℕ → ℕ → ℕ) (triply : ℕ → ℕ) :
    ℕ → ℕ → ℕ → ReadState → Except ReadExit ReadState
  | 0, _, _, s => .ok s
  | fuel + 1, k, i, s => do
    let dib ← readTable B fs disk (triply (fs.blockSize / 4))
    let (i, s) ← readDoublyStale B fs disk (stale k) dib (fs.blockSize / 4) 0 i s
    readTriply stale triply fuel (k + 1) i s

/-- The four levels, from the block `firstBlock` of the file on. After the loop of
a level the counter is at least its number of pointers, which is subtracted. -/
def walkFile (stale : ℕ → ℕ → ℕ → ℕ) (node : Node) (firstBlock : ℕ) (s : ReadState) :
    Except ReadExit ReadState := do
  let s ← readEntries fs node.pointer node.pointer (12 - firstBlock) firstBlock s
  let i := firstBlock - 12
  let singly ← readTable B fs disk (node.pointer 12)
  let s ← readEntries fs singly singly (fs.blockSize / 4 - i) i s
  let i := i - fs.blockSize / 4
  let doubly ← readTable B fs disk (node.pointer 13)
  let (i, s) ← readDoubly B fs disk doubly (fs.blockSize / 4) 0 i s
  let triply ← readTable B fs disk (node.pointer 14)
  readTriply B fs disk stale triply (fs.blockSize / 4) 0 i s

/-- The loop at `send_requests` over the caller's buffer. -/
def sendRequests : List ReadRequest → Mem → ErrorT × Mem
  | [], buffer => (.none, buffer)
  | r :: rs, buffer =>
    if r.sector = 0 then (.none, buffer)
    else
      let read := B.read disk r.sector r.offset r.count
      let read := if read.1 ≠ .none then B.read disk r.sector r.offset r.count else read
      let buffer := overwrite buffer r.buffer r.count read.2
      if read.1 ≠ .none then (read.1, buffer) else sendRequests rs buffer

/-- The length of the array of requests. -/
def requestSize (size : ℕ) : ℕ :=
  u32 (size + if size % fs.blockSize ≠ 0 then fs.blockSize else 0) / fs.blockSize

/-- `ext2_inode_read_content`. -/
def readContent (stale : ℕ → ℕ → ℕ → ℕ) (node : Node) (offset size : ℕ) (buffer : Mem) :
    Option (ErrorT × Mem) :=
  if u32 (size + offset) > node.length then some (.fileOut, buffer)
  else
    match walkFile B fs disk stale node (offset / fs.blockSize) ⟨size, offset % fs.blockSize, 0,
        List.replicate (requestSize fs size) .empty⟩ with
    | .ok s => some (sendRequests B disk s.requests buffer)
    | .error (.send requests) => some (sendRequests B disk requests buffer)
    | .error (.failed error) => some (error, buffer)
    | .error .fault => none

/-- `ext2_read_file`. -/
def readFile (stale : ℕ → ℕ → ℕ → ℕ) (node : Node) (offset count : ℕ) (buffer : Mem) :
    Option (ErrorT × Mem) :=
  if count > 2 ^ 32 - 1 then some (.fileOut, buffer)
  else readContent B fs disk stale node (u32 offset) (u32 count) buffer

end Functions

/-! ## Files -/

namespace Fs
variable (fs : Fs)

/-- The number of pointers in a block. -/
def pointers : ℕ := fs.blockSize / 4

/-- The blocks that the first three levels reach. -/
def doublyEnd : ℕ := 12 + fs.pointers + fs.pointers * fs.pointers

/-- The block of a file with the number `k`, in logical order. -/
def fileBlock (disk : Mem) (node : Node) (k : ℕ) : ℕ :=
  if k < 12 then node.pointer k
  else if k < 12 + fs.pointers then fs.entry disk (node.pointer 12) (k - 12)
  else if k < fs.doublyEnd then
    let k := k - (12 + fs.pointers)
    fs.entry disk (fs.entry disk (node.pointer 13) (k / fs.pointers)) (k % fs.pointers)
  else
    let k := k - fs.doublyEnd
    fs.entry disk (fs.entry disk (fs.entry disk (node.pointer 14)
      (k / (fs.pointers * fs.pointers))) (k / fs.pointers % fs.pointers)) (k % fs.pointers)

/-- The place of a byte of a file on the disk. -/
def fileAddr (disk : Mem) (node : Node) (x : ℕ) : ℕ :=
  fs.blockAddr (fs.fileBlock disk node (x / fs.blockSize)) + x % fs.blockSize

/-- A block size that `ext2_init` computes. -/
def SizeOk : Prop := ∃ k ≤ 21, fs.blockSize = 1024 * 2 ^ k

/-- The block lies on the drive, whose sectors have 32-bit numbers. -/
def OnDrive (block : ℕ) : Prop :=
  block ≠ 0 ∧ fs.superblockOffset + (block + 1) * (fs.blockSize / 512) ≤ 2 ^ 32

end Fs

section Addresses
variable {fs : Fs}

theorem Fs.SizeOk.dvd (h : fs.SizeOk) : fs.blockSize ∣ 2 ^ 32 := by
  obtain ⟨k, hk, heq⟩ := h
  rw [heq, show (1024 : ℕ) = 2 ^ 10 from rfl, ← pow_add]
  exact Nat.pow_dvd_pow 2 (by omega)

/-- Blocks are whole sectors and whole arrays of pointers. -/
theorem Fs.SizeOk.sizes (h : fs.SizeOk) :
    1024 ≤ fs.blockSize ∧ fs.blockSize < 2 ^ 32 ∧ fs.blockSize = 512 * (fs.blockSize / 512) ∧
      fs.blockSize = 4 * fs.pointers := by
  obtain ⟨k, hk, heq⟩ := h
  have hpos : 0 < 2 ^ k := Nat.two_pow_pos k
  have hle : 2 ^ k ≤ 2 ^ 21 := Nat.pow_le_pow_right (by omega) hk
  unfold Fs.pointers
  omega

theorem Fs.OnDrive.sectorOf_eq {block : ℕ} (hd : fs.OnDrive block) (hs : fs.SizeOk) :
    fs.sectorOf block = fs.superblockOffset + block * (fs.blockSize / 512) := by
  have hle := hd.2
  rw [Nat.add_mul] at hle
  have := hs.sizes
  unfold Fs.sectorOf
  rw [u32_of_lt (show block * (fs.blockSize / 512) < 2 ^ 32 by omega), u32_of_lt (by omega)]

theorem Fs.OnDrive.sectorOf_ne {block : ℕ} (hd : fs.OnDrive block) (hs : fs.SizeOk) :
    fs.sectorOf block ≠ 0 := by
  have := hs.sizes
  have hmul : 0 < block * (fs.blockSize / 512) :=
    Nat.mul_pos (Nat.pos_of_ne_zero hd.1) (by omega)
  rw [hd.sectorOf_eq hs]
  omega

theorem Fs.OnDrive.blockAddr_eq {block : ℕ} (hd : fs.OnDrive block) (hs : fs.SizeOk) :
    fs.blockAddr block = 512 * fs.superblockOffset + block * fs.blockSize := by
  have h512 := hs.sizes.2.2.1
  unfold Fs.blockAddr bytesPerSector
  rw [hd.sectorOf_eq hs, Nat.mul_add, Nat.mul_left_comm, ← h512]

end Addresses

/-! ## The queue of requests -/

section Queue
variable (fs : Fs) (b : ℕ → ℕ) (offset size : ℕ)

/-- A request for the pieces `first`, …, `first + len - 1` of a read of `size`
bytes, where `b` gives the block of each piece. It starts where the blocks do
not follow on each other. -/
structure IsRun (first len : ℕ) (r : ReadRequest) : Prop where
  pos : 0 < len
  sector : r.sector = fs.sectorOf (b first)
  buffer : r.buffer = first * fs.blockSize
  count : r.count = min ((first + len) * fs.blockSize) size - first * fs.blockSize
  offset : r.offset = if first = 0 then offset else 0
  contiguous : ∀ i < len, b (first + i) = b first + i
  maximal : first = 0 ∨ b first ≠ b (first - 1) + 1

/-- The requests for the pieces from `t` up to `t'`. -/
def Runs : ℕ → ℕ → List ReadRequest → Prop
  | t, t', [] => t = t'
  | t, t', r :: rs => ∃ len, IsRun fs b offset size t len r ∧ Runs (t + len) t' rs

/-- The request that is queued for the piece `t`. -/
def piece (t : ℕ) : ReadRequest where
  sector := fs.sectorOf (b t)
  count := if size - t * fs.blockSize ≥ fs.blockSize then fs.blockSize
    else size - t * fs.blockSize
  offset := if t = 0 then offset else 0
  buffer := t * fs.blockSize

variable {fs b offset size}

theorem Runs.length_le {t t' : ℕ} {rs : List ReadRequest} (h : Runs fs b offset size t t' rs) :
    t + rs.length ≤ t' := by
  induction rs generalizing t with
  | nil => exact le_of_eq h
  | cons r rs ih =>
    obtain ⟨len, hr, hrest⟩ := h
    have := hr.pos
    have := ih hrest
    rw [List.length_cons]
    omega

/-- A run in front of the piece `t` is full. -/
theorem IsRun.count_eq {first len t : ℕ} {r : ReadRequest} (h : IsRun fs b offset size first len r)
    (hle : first + len ≤ t) (ht : t * fs.blockSize < size) : r.count = len * fs.blockSize := by
  have hmul : (first + len) * fs.blockSize ≤ t * fs.blockSize := Nat.mul_le_mul_right _ hle
  rw [h.count, min_eq_left (by omega), Nat.add_mul, Nat.add_sub_cancel_left]

/-- The piece `t` is merged into a run exactly if the run ends there and the block
follows on its last block. -/
theorem IsRun.merges_iff {first len t : ℕ} {r : ReadRequest}
    (h : IsRun fs b offset size first len r) (hs : fs.SizeOk) (hle : first + len ≤ t)
    (ht : t * fs.blockSize < size) (hsize : size < 2 ^ 32) (hon : ∀ i ≤ t, fs.OnDrive (b i)) :
    (r.sector = u32 ((piece fs b offset size t).sector + 2 ^ 32 - r.count / bytesPerSector) ∧
      r.buffer = u32 ((piece fs b offset size t).buffer + 2 ^ 32 - r.count)) ↔
      first + len = t ∧ b t = b first + len := by
  obtain ⟨hbs, hbs', h512, -⟩ := hs.sizes
  have hcount := h.count_eq hle ht
  have hmul : (first + len) * fs.blockSize ≤ t * fs.blockSize := Nat.mul_le_mul_right _ hle
  rw [Nat.add_mul] at hmul
  have hdiv : r.count / bytesPerSector = len * (fs.blockSize / 512) := by
    rw [hcount, h512, bytesPerSector, Nat.mul_left_comm, Nat.mul_div_cancel_left _ (by omega),
      Nat.mul_div_cancel_left _ (by omega)]
  have hbuffer : r.buffer = u32 ((piece fs b offset size t).buffer + 2 ^ 32 - r.count) ↔
      first + len = t := by
    have hu : u32 (t * fs.blockSize + 2 ^ 32 - r.count) = t * fs.blockSize - r.count := by
      unfold u32
      omega
    rw [piece, hu, h.buffer, hcount]
    constructor
    · intro heq
      apply Nat.eq_of_mul_eq_mul_right (show 0 < fs.blockSize by omega)
      rw [Nat.add_mul]
      omega
    · intro heq
      rw [← heq, Nat.add_mul]
      omega
  rw [hbuffer, and_comm, and_congr_right_iff]
  intro heq
  have hpos := h.pos
  have hd := hon t le_rfl
  have hfirst := hon first (by omega)
  have hlast := (hon (first + (len - 1)) (by omega)).2
  have hne := hd.sectorOf_ne hs
  rw [h.contiguous (len - 1) (by omega), show b first + (len - 1) + 1 = b first + len by omega,
    Nat.add_mul] at hlast
  have hle2 := hd.2
  rw [Nat.add_mul] at hle2
  have hq : 0 < fs.blockSize / 512 := by omega
  rw [hd.sectorOf_eq hs] at hne
  rw [h.sector, hdiv]
  unfold piece
  dsimp only
  have hiff : b t = b first + len ↔ b t * (fs.blockSize / 512) =
      b first * (fs.blockSize / 512) + len * (fs.blockSize / 512) := by
    rw [← Nat.add_mul, Nat.mul_left_inj hq.ne']
  rw [hd.sectorOf_eq hs, hfirst.sectorOf_eq hs, hiff]
  generalize len * (fs.blockSize / 512) = x at *
  generalize b t * (fs.blockSize / 512) = y at *
  generalize b first * (fs.blockSize / 512) = z at *
  unfold u32
  omega

/-- The first request for a piece that no run can take. -/
theorem isRun_piece {t : ℕ} (ht : t * fs.blockSize < size)
    (hmax : t = 0 ∨ b t ≠ b (t - 1) + 1) :
    IsRun fs b offset size t 1 (piece fs b offset size t) := by
  refine ⟨Nat.one_pos, rfl, rfl, ?_, rfl, ?_, hmax⟩
  · unfold piece
    dsimp only
    rw [Nat.add_mul, Nat.one_mul]
    split <;> omega
  · intro i hi
    rw [show i = 0 by omega, Nat.add_zero, Nat.add_zero]

/-- A run that takes the piece behind it. -/
theorem IsRun.merge {first len t : ℕ} {r : ReadRequest} (h : IsRun fs b offset size first len r)
    (ht : t * fs.blockSize < size) (hsize : size < 2 ^ 32) (heq : first + len = t)
    (hb : b t = b first + len) :
    IsRun fs b offset size first (len + 1)
      { r with count := u32 (r.count + (piece fs b offset size t).count) } := by
  have hcount := h.count_eq (le_of_eq heq) ht
  refine ⟨by omega, h.sector, h.buffer, ?_, h.offset, ?_, h.maximal⟩
  · have hmul : t * fs.blockSize = first * fs.blockSize + len * fs.blockSize := by
      rw [← heq, Nat.add_mul]
    have hnext : (first + (len + 1)) * fs.blockSize = t * fs.blockSize + fs.blockSize := by
      rw [← Nat.add_assoc, heq, Nat.succ_mul]
    unfold piece u32
    dsimp only
    rw [hcount, hnext]
    split <;> omega
  · intro i hi
    by_cases hlast : i = len
    · rw [hlast, heq, hb]
    · exact h.contiguous i (by omega)

/-- `ext2_queue_read` keeps the runs. -/
theorem queueRead_runs {t₀ t k : ℕ} {rs : List ReadRequest} (h : Runs fs b offset size t₀ t rs)
    (hs : fs.SizeOk) (ht : t * fs.blockSize < size) (hsize : size < 2 ^ 32)
    (hon : ∀ i ≤ t, fs.OnDrive (b i)) (hmax : t₀ = t → t = 0 ∨ b t ≠ b (t - 1) + 1) :
    ∃ rs' k', queueRead (rs ++ List.replicate (k + 1) .empty) (piece fs b offset size t) =
        some (rs' ++ List.replicate k' .empty) ∧
      rs'.length + k' = rs.length + (k + 1) ∧ Runs fs b offset size t₀ (t + 1) rs' := by
  induction rs generalizing t₀ with
  | nil =>
    have heq : t₀ = t := h
    refine ⟨[piece fs b offset size t], k, rfl, by simp; omega, 1, ?_, ?_⟩
    · rw [heq]
      exact isRun_piece ht (hmax heq)
    · rw [heq]
      rfl
  | cons r rs ih =>
    obtain ⟨len, hr, hrest⟩ := h
    have hle := hrest.length_le
    have hfirst : fs.OnDrive (b t₀) := hon t₀ (by omega)
    have hiff := hr.merges_iff hs (show t₀ + len ≤ t by omega) ht hsize hon
    rw [List.cons_append, queueRead, if_neg (by rw [hr.sector]; exact hfirst.sectorOf_ne hs)]
    by_cases hm : t₀ + len = t ∧ b t = b t₀ + len
    · rw [if_pos (hiff.mpr hm)]
      have hnil : rs = [] := List.eq_nil_of_length_eq_zero (by omega)
      refine ⟨_ :: rs, k + 1, rfl, rfl, len + 1, hr.merge ht hsize hm.1 hm.2, ?_⟩
      rw [hnil]
      exact congrArg (· + 1) hm.1
    · -- the run ends before the piece, or the block does not follow on it
      rw [if_neg fun hc => hm (hiff.mp hc)]
      obtain ⟨rs', k', hq, hlen, hrs'⟩ := ih hrest fun heq => Or.inr fun hb => by
        have hpos := hr.pos
        apply hm
        refine ⟨heq, ?_⟩
        rw [hb, show t - 1 = t₀ + (len - 1) by omega, hr.contiguous _ (by omega)]
        omega
      refine ⟨r :: rs', k', ?_, ?_, len, hr, hrs'⟩
      · rw [hq]
        rfl
      · rw [List.length_cons, List.length_cons]
        omega

/-- The variables of the reader in front of the piece `t`. -/
structure Queued (fs : Fs) (b : ℕ → ℕ) (offset size : ℕ) (t : ℕ) (s : ReadState) : Prop where
  requests : ∃ rs k, s.requests = rs ++ List.replicate k .empty ∧
    rs.length + k = fs.blocksOf size ∧ Runs fs b offset size 0 t rs
  currentloc : s.currentloc = t * fs.blockSize
  offset : s.offset = if t = 0 then offset else 0
  size : s.size = size - t * fs.blockSize

/-- The number of blocks is the least one that covers the size. -/
theorem blocksOf_le_iff (hbs : 0 < fs.blockSize) {size t : ℕ} :
    fs.blocksOf size ≤ t ↔ size ≤ t * fs.blockSize := by
  unfold Fs.blocksOf
  rw [Nat.div_le_iff_le_mul_add_pred hbs, Nat.mul_comm]
  omega

theorem lt_blocksOf_iff (hbs : 0 < fs.blockSize) {size t : ℕ} :
    t < fs.blocksOf size ↔ t * fs.blockSize < size := by
  rw [← not_le, blocksOf_le_iff hbs, not_le]

/-- One piece: the queue is complete, or the next piece follows. -/
theorem readBlock_spec {t : ℕ} {s : ReadState} (h : Queued fs b offset size t s) (hs : fs.SizeOk)
    (ht : t < fs.blocksOf size) (hsize : size < 2 ^ 32) (hon : ∀ i ≤ t, fs.OnDrive (b i)) :
    (t + 1 = fs.blocksOf size ∧ ∃ rs k, Runs fs b offset size 0 (t + 1) rs ∧
      readBlock fs (b t) s = .error (.send (rs ++ List.replicate k .empty))) ∨
    ∃ s', Queued fs b offset size (t + 1) s' ∧ t + 1 < fs.blocksOf size ∧
      readBlock fs (b t) s = .ok s' := by
  obtain ⟨hbs, -⟩ := hs.sizes
  have hpos : 0 < fs.blockSize := by omega
  have hlt := (lt_blocksOf_iff hpos).mp ht
  obtain ⟨rs, k, hrs, hlen, hruns⟩ := h.requests
  have hle := hruns.length_le
  obtain ⟨k, rfl⟩ : ∃ l, k = l + 1 := ⟨k - 1, by omega⟩
  obtain ⟨rs', k', hq, hlen', hruns'⟩ := queueRead_runs hruns hs hlt hsize hon (k := k)
    fun h0 => Or.inl h0.symm
  have hpiece : readBlock fs (b t) s = match some (rs' ++ List.replicate k' .empty) with
      | none => .error .fault
      | some requests =>
        let size := if s.size ≥ fs.blockSize then s.size - fs.blockSize else 0
        if size = 0 then .error (.send requests)
        else .ok ⟨size, 0, u32 (s.currentloc + fs.blockSize), requests⟩ := by
    rw [← hq, ← hrs]
    unfold readBlock piece
    rw [h.size, h.offset, h.currentloc]
  rw [hpiece]
  dsimp only
  rw [h.size, h.currentloc]
  have hnext : (t + 1) * fs.blockSize = t * fs.blockSize + fs.blockSize := Nat.succ_mul _ _
  by_cases hend : size ≤ (t + 1) * fs.blockSize
  · have := (blocksOf_le_iff hpos).mpr hend
    refine Or.inl ⟨by omega, rs', k', hruns', if_pos ?_⟩
    split <;> omega
  · have hlt' := (lt_blocksOf_iff hpos).mpr (show (t + 1) * fs.blockSize < size by omega)
    refine Or.inr ⟨_, ?_, hlt', if_neg ?_⟩
    · refine ⟨⟨rs', k', rfl, by omega, hruns'⟩, ?_, (if_neg (by omega)).symm, ?_⟩
      · dsimp only
        rw [u32_of_lt (by omega), hnext]
      · dsimp only
        rw [if_pos (by omega)]
        omega
    · rw [if_pos (by omega)]
      omega

/-- The loop over the blocks of all pieces ends with the complete queue. -/
theorem readEntries_queued (e : ℕ → ℕ) (f : ℕ) {t m : ℕ} {s : ReadState}
    (h : Queued fs (fun t => e (f + t)) offset size t s) (hs : fs.SizeOk)
    (hm : t + m = fs.blocksOf size) (hpos : 0 < m) (hsize : size < 2 ^ 32)
    (hon : ∀ i < fs.blocksOf size, fs.OnDrive (e (f + i))) :
    ∃ rs k, Runs fs (fun t => e (f + t)) offset size 0 (fs.blocksOf size) rs ∧
      readEntries fs e e m (f + t) s = .error (.send (rs ++ List.replicate k .empty)) := by
  induction m generalizing t s with
  | zero => omega
  | succ m ih =>
    have ht : t < fs.blocksOf size := by omega
    rw [readEntries, if_neg (hon t ht).1]
    rcases readBlock_spec h hs ht hsize fun i hi => hon i (by omega) with
      ⟨hend, rs, k, hruns, hread⟩ | ⟨s', h', hlt, hread⟩
    · rw [hread]
      rw [hend] at hruns
      exact ⟨rs, k, hruns, rfl⟩
    · rw [hread]
      exact ih h' (by omega) (by omega)

end Queue

/-! ## The levels -/

section Levels
variable {B : BlockLayer} {fs : Fs} {disk : Mem} {node : Node}

theorem readEntries_add (e b : ℕ → ℕ) (m m' i : ℕ) (s : ReadState) :
    readEntries fs e b (m + m') i s =
      readEntries fs e b m i s >>= readEntries fs e b m' (i + m) := by
  induction m generalizing i s with
  | zero =>
    rw [Nat.zero_add]
    rfl
  | succ m ih =>
    rw [Nat.succ_add_eq_add_succ, Nat.add_succ, readEntries, readEntries]
    by_cases h : e i = 0
    · rw [if_pos h, if_pos h]
      rfl
    · rw [if_neg h, if_neg h, bind_assoc]
      congr 1
      funext s'
      rw [ih, show i + 1 + m = i + (m + 1) by omega]

theorem readEntries_congr {e b e' b' : ℕ → ℕ} {m i i' : ℕ} (s : ReadState)
    (he : ∀ t < m, e (i + t) = e' (i' + t)) (hb : ∀ t < m, b (i + t) = b' (i' + t)) :
    readEntries fs e b m i s = readEntries fs e' b' m i' s := by
  induction m generalizing i i' s with
  | zero => rfl
  | succ m ih =>
    have he0 := he 0 (by omega)
    have hb0 := hb 0 (by omega)
    rw [Nat.add_zero, Nat.add_zero] at he0 hb0
    rw [readEntries, readEntries, he0, hb0]
    congr 2
    funext s'
    apply ih
    · intro t ht
      rw [Nat.add_right_comm, Nat.add_right_comm i', Nat.add_assoc, Nat.add_assoc i']
      exact he (t + 1) (by omega)
    · intro t ht
      rw [Nat.add_right_comm, Nat.add_right_comm i', Nat.add_assoc, Nat.add_assoc i']
      exact hb (t + 1) (by omega)

/-- A loop that is left early, cut at `a`. -/
theorem readEntries_cases {e b : ℕ → ℕ} {m i : ℕ} {s : ReadState} {x : ReadExit}
    (h : readEntries fs e b m i s = .error x) (a : ℕ) :
    readEntries fs e b a i s = .error x ∨
      ∃ s', a < m ∧ readEntries fs e b a i s = .ok s' ∧
        readEntries fs e b (m - a) (i + a) s' = .error x := by
  by_cases hle : a ≤ m
  · rw [show m = a + (m - a) by omega, readEntries_add] at h
    cases hr : readEntries fs e b a i s with
    | error y =>
      rw [hr] at h
      exact Or.inl h
    | ok s' =>
      rw [hr] at h
      refine Or.inr ⟨s', ?_, rfl, h⟩
      by_contra hlt
      rw [show m - a = 0 by omega] at h
      cases h
  · left
    rw [show a = m + (a - m) by omega, readEntries_add, h]
    rfl

theorem readTable_eq (hB : B.Exact) (disk : Mem) {block : ℕ} (h : block ≠ 0) :
    readTable B fs disk block = .ok (readPointers B fs disk block) := by
  rw [readTable, if_neg h, if_neg (not_not_intro (hB.read_none _ _ _ _))]

theorem fileBlock_direct {k : ℕ} (h : k < 12) : fs.fileBlock disk node k = node.pointer k :=
  if_pos h

theorem fileBlock_singly {i : ℕ} (h : i < fs.pointers) :
    fs.fileBlock disk node (12 + i) = fs.entry disk (node.pointer 12) i := by
  unfold Fs.fileBlock
  rw [if_neg (by omega), if_pos (by omega), Nat.add_sub_cancel_left]

theorem fileBlock_doubly {j i : ℕ} (hj : j < fs.pointers) (hi : i < fs.pointers) :
    fs.fileBlock disk node (12 + fs.pointers + j * fs.pointers + i) =
      fs.entry disk (fs.entry disk (node.pointer 13) j) i := by
  have hle : (j + 1) * fs.pointers ≤ fs.pointers * fs.pointers := Nat.mul_le_mul_right _ hj
  rw [Nat.add_mul] at hle
  unfold Fs.fileBlock Fs.doublyEnd
  rw [if_neg (by omega), if_neg (by omega), if_pos (by omega), Nat.add_assoc (12 + fs.pointers),
    Nat.add_sub_cancel_left]
  dsimp only
  rw [Nat.mul_comm j, Nat.mul_add_div (by omega), Nat.div_eq_of_lt hi, Nat.mul_add_mod,
    Nat.mod_eq_of_lt hi, Nat.add_zero]

/-- The indirect blocks that lead to the blocks below `last` exist. -/
structure Tables (fs : Fs) (disk : Mem) (node : Node) (last : ℕ) : Prop where
  singly : 12 < last → node.pointer 12 ≠ 0
  doubly : 12 + fs.pointers < last → node.pointer 13 ≠ 0
  doubly_entry : ∀ j < fs.pointers, 12 + fs.pointers + j * fs.pointers < last →
    fs.entry disk (node.pointer 13) j ≠ 0

/-- The second level of the walk is the loop over the blocks of the file. -/
theorem readDoubly_eq (hB : B.Exact) {last fuel j i m : ℕ} {s : ReadState} {x : ReadExit}
    (ht : Tables fs disk node last) (hlast : last ≤ fs.doublyEnd) (hj : j + fuel = fs.pointers)
    (hm : 12 + fs.pointers + j * fs.pointers + i + m = last)
    (h : readEntries fs (fs.fileBlock disk node) (fs.fileBlock disk node) m
      (12 + fs.pointers + j * fs.pointers + i) s = .error x) :
    readDoubly B fs disk (readPointers B fs disk (node.pointer 13)) fuel j i s = .error x := by
  induction fuel generalizing j i m s with
  | zero =>
    -- all blocks of the level are passed, so none is left to be read
    rw [show j = fs.pointers by omega] at hm
    unfold Fs.doublyEnd at hlast
    rw [show m = 0 by omega] at h
    cases h
  | succ fuel ih =>
    have hlt : 0 < m := by
      by_contra hz
      rw [show m = 0 by omega] at h
      cases h
    have hnext : (j + 1) * fs.pointers = j * fs.pointers + fs.pointers := Nat.succ_mul _ _
    have hentry : readPointers B fs disk (node.pointer 13) j = fs.entry disk (node.pointer 13) j :=
      readPointers_eq hB disk _ (show j < fs.pointers by omega)
    have hne := ht.doubly_entry j (by omega) (by omega)
    have hsib : readEntries fs (readPointers B fs disk (fs.entry disk (node.pointer 13) j))
        (readPointers B fs disk (fs.entry disk (node.pointer 13) j)) (fs.pointers - i) i s =
        readEntries fs (fs.fileBlock disk node) (fs.fileBlock disk node) (fs.pointers - i)
          (12 + fs.pointers + j * fs.pointers + i) s := by
      have hblock : ∀ t < fs.pointers - i,
          readPointers B fs disk (fs.entry disk (node.pointer 13) j) (i + t) =
            fs.fileBlock disk node (12 + fs.pointers + j * fs.pointers + i + t) := by
        intro t ht
        rw [Nat.add_assoc _ i, fileBlock_doubly (by omega) (by omega)]
        exact readPointers_eq hB disk _ (show i + t < fs.pointers by omega)
      exact readEntries_congr s hblock hblock
    rw [readDoubly, hentry, readTable_eq hB disk hne]
    change readEntries fs _ _ (fs.pointers - i) i s >>= _ = _
    rw [hsib]
    rcases readEntries_cases h (fs.pointers - i) with hend | ⟨s', hlt', hok, hrest⟩
    · rw [hend]
      rfl
    · rw [hok]
      refine ih (by omega) (m := m - (fs.pointers - i)) ?_ ?_
      · change 12 + fs.pointers + (j + 1) * fs.pointers + (i - fs.pointers) + _ = _
        omega
      · rw [show 12 + fs.pointers + (j + 1) * fs.pointers + (i - fs.blockSize / 4) =
          12 + fs.pointers + j * fs.pointers + i + (fs.pointers - i) by
            change 12 + fs.pointers + (j + 1) * fs.pointers + (i - fs.pointers) = _
            omega]
        exact hrest

/-- The walk over the levels is the loop over the blocks of the file, as long as
this ends with the doubly indirect block. -/
theorem walkFile_eq (hB : B.Exact) {f m : ℕ} {s : ReadState} {x : ReadExit}
    (stale : ℕ → ℕ → ℕ → ℕ) (ht : Tables fs disk node (f + m)) (hlast : f + m ≤ fs.doublyEnd)
    (h : readEntries fs (fs.fileBlock disk node) (fs.fileBlock disk node) m f s = .error x) :
    walkFile B fs disk stale node f s = .error x := by
  have hdirect : readEntries fs node.pointer node.pointer (12 - f) f s =
      readEntries fs (fs.fileBlock disk node) (fs.fileBlock disk node) (12 - f) f s := by
    have hblock : ∀ t < 12 - f, node.pointer (f + t) = fs.fileBlock disk node (f + t) :=
      fun t ht => (fileBlock_direct (by omega)).symm
    exact readEntries_congr s hblock hblock
  unfold walkFile
  rw [hdirect]
  rcases readEntries_cases h (12 - f) with hend | ⟨s₁, hlt, hok, h⟩
  · rw [hend]
    rfl
  have hsingly : readEntries fs (readPointers B fs disk (node.pointer 12))
      (readPointers B fs disk (node.pointer 12)) (fs.pointers - (f - 12)) (f - 12) s₁ =
      readEntries fs (fs.fileBlock disk node) (fs.fileBlock disk node) (fs.pointers - (f - 12))
        (f + (12 - f)) s₁ := by
    have hblock : ∀ t < fs.pointers - (f - 12), readPointers B fs disk (node.pointer 12) (f - 12 + t) =
        fs.fileBlock disk node (f + (12 - f) + t) := by
      intro t ht
      rw [show f + (12 - f) + t = 12 + (f - 12 + t) by omega, fileBlock_singly (by omega)]
      exact readPointers_eq hB disk _ (show f - 12 + t < fs.pointers by omega)
    exact readEntries_congr s₁ hblock hblock
  rw [hok, readTable_eq hB disk (ht.singly (by omega))]
  change readEntries fs _ _ (fs.pointers - (f - 12)) (f - 12) s₁ >>= _ = _
  rw [hsingly]
  rcases readEntries_cases h (fs.pointers - (f - 12)) with hend | ⟨s₂, hlt, hok, h⟩
  · rw [hend]
    rfl
  rw [hok, readTable_eq hB disk (ht.doubly (by omega))]
  change readDoubly B fs disk _ fs.pointers 0 (f - 12 - fs.pointers) s₂ >>= _ = _
  rw [readDoubly_eq hB ht hlast (j := 0) (Nat.zero_add _)
    (m := m - (12 - f) - (fs.pointers - (f - 12))) (by omega) (by
      rw [show 12 + fs.pointers + 0 * fs.pointers + (f - 12 - fs.pointers) =
        f + (12 - f) + (fs.pointers - (f - 12)) by omega]
      exact h)]
  rfl

end Levels

/-! ## The bytes that a read returns -/

section Sources
variable {B : BlockLayer} {fs : Fs} {b : ℕ → ℕ} {offset size : ℕ}

/-- The place on the disk from which the requests fill the byte `x` of the
buffer. -/
def sourceOf : List ReadRequest → ℕ → ℕ
  | [], _ => 0
  | r :: rs, x =>
    if r.buffer ≤ x ∧ x < r.buffer + r.count then
      bytesPerSector * r.sector + r.offset + (x - r.buffer)
    else sourceOf rs x

/-- The byte `x` comes from the run that starts with the piece `first`. The offset
of the read is added to the first run only. -/
structure IsSource (fs : Fs) (b : ℕ → ℕ) (offset x first source : ℕ) : Prop where
  le : first * fs.blockSize ≤ x
  contiguous : ∀ i, (first + i) * fs.blockSize ≤ x → b (first + i) = b first + i
  maximal : first = 0 ∨ b first ≠ b (first - 1) + 1
  eq : source = fs.blockAddr (b first) + (if first = 0 then offset else 0) +
    (x - first * fs.blockSize)

theorem IsRun.bounds {first len : ℕ} {r : ReadRequest} (h : IsRun fs b offset size first len r)
    (hlt : first * fs.blockSize < size) :
    r.buffer + r.count = min ((first + len) * fs.blockSize) size := by
  have hmul : (first + len) * fs.blockSize = first * fs.blockSize + len * fs.blockSize :=
    Nat.add_mul _ _ _
  rw [h.buffer, h.count]
  omega

theorem Runs.lt {t t' : ℕ} {r : ReadRequest} {rs : List ReadRequest}
    (h : Runs fs b offset size t t' (r :: rs)) : t < t' := by
  have := h.length_le
  rw [List.length_cons] at this
  omega

/-- The runs that are left are sent, and fill the buffer from the piece `t` on. -/
theorem sendRequests_runs (hB : B.Exact) (hs : fs.SizeOk) (disk : Mem) {t : ℕ}
    {rs : List ReadRequest} (k : ℕ) (h : Runs fs b offset size t (fs.blocksOf size) rs)
    (hon : ∀ i < fs.blocksOf size, fs.OnDrive (b i)) (buffer : Mem) :
    ∃ out, sendRequests B disk (rs ++ List.replicate k .empty) buffer = (.none, out) ∧
      (∀ x, t * fs.blockSize ≤ x → x < size → out x = disk (sourceOf rs x)) ∧
      ∀ x, x < t * fs.blockSize ∨ size ≤ x → out x = buffer x := by
  obtain ⟨hbs, -⟩ := hs.sizes
  have hpos : 0 < fs.blockSize := by omega
  induction rs generalizing t buffer with
  | nil =>
    have hsize : size ≤ t * fs.blockSize := (blocksOf_le_iff hpos).mp (le_of_eq h.symm)
    refine ⟨buffer, ?_, fun x h1 h2 => by omega, fun _ _ => rfl⟩
    cases k <;> rfl
  | cons r rs ih =>
    have ht := (lt_blocksOf_iff hpos).mp h.lt
    have hr0 := hon t h.lt
    obtain ⟨len, hr, hrest⟩ := h
    have hb := hr.bounds ht
    have hmul : (t + len) * fs.blockSize = t * fs.blockSize + len * fs.blockSize :=
      Nat.add_mul _ _ _
    rw [List.cons_append, sendRequests, if_neg (by rw [hr.sector]; exact hr0.sectorOf_ne hs)]
    dsimp only
    rw [if_neg (not_not_intro (hB.read_none _ _ _ _)),
      if_neg (not_not_intro (hB.read_none _ _ _ _))]
    obtain ⟨out, hout, hfill, hkeep⟩ := ih hrest
      (overwrite buffer r.buffer r.count (B.read disk r.sector r.offset r.count).2)
    refine ⟨out, hout, fun x h1 h2 => ?_, fun x hx => ?_⟩
    · rw [sourceOf]
      by_cases hx : x < (t + len) * fs.blockSize
      · rw [if_pos ⟨by rw [hr.buffer]; omega, by omega⟩, hkeep x (Or.inl hx),
          overwrite_of_mem (by rw [hr.buffer]; omega) (by omega),
          hB.read_data _ _ _ _ _ (by rw [hr.buffer] at hb ⊢; omega)]
      · rw [if_neg (by omega), hfill x (by omega) h2]
    · rw [hkeep x (by omega), overwrite_of_notMem (by rw [hr.buffer] at hb ⊢; omega)]

theorem Runs.isSource {t x : ℕ} {rs : List ReadRequest}
    (h : Runs fs b offset size t (fs.blocksOf size) rs) (hpos : 0 < fs.blockSize)
    (h1 : t * fs.blockSize ≤ x) (h2 : x < size) :
    ∃ first, IsSource fs b offset x first (sourceOf rs x) := by
  induction rs generalizing t with
  | nil =>
    have : size ≤ t * fs.blockSize := (blocksOf_le_iff hpos).mp (le_of_eq h.symm)
    omega
  | cons r rs ih =>
    have ht := (lt_blocksOf_iff hpos).mp h.lt
    obtain ⟨len, hr, hrest⟩ := h
    have hb := hr.bounds ht
    rw [sourceOf]
    by_cases hx : x < (t + len) * fs.blockSize
    · rw [if_pos ⟨by rw [hr.buffer]; omega, by omega⟩]
      refine ⟨t, h1, fun i hi => ?_, hr.maximal, ?_⟩
      · apply hr.contiguous
        have := Nat.lt_of_mul_lt_mul_right (lt_of_le_of_lt hi hx)
        omega
      · rw [hr.sector, hr.offset, hr.buffer]
        rfl
    · rw [if_neg (by omega)]
      exact ih hrest (by omega)

end Sources

/-! ## Reads within the first three levels -/

section Content
variable {B : BlockLayer} {fs : Fs} {disk : Mem} {node : Node} {offset size : ℕ}

/-- The array has a request for each piece, unless its length overflows. -/
theorem requestSize_eq (hs : fs.SizeOk) (hsize : size < 2 ^ 32)
    (h : size % fs.blockSize = 0 ∨ size + fs.blockSize < 2 ^ 32) :
    requestSize fs size = fs.blocksOf size := by
  obtain ⟨hbs, -⟩ := hs.sizes
  have hpos : 0 < fs.blockSize := by omega
  have hdiv := Nat.div_add_mod size fs.blockSize
  have hlt := Nat.mod_lt size hpos
  have hblocks : ∀ c < fs.blockSize, (size + c) / fs.blockSize =
      size / fs.blockSize + (size % fs.blockSize + c) / fs.blockSize := by
    intro c _
    nth_rewrite 1 [← hdiv]
    rw [Nat.add_assoc, Nat.mul_add_div hpos]
  unfold requestSize Fs.blocksOf
  rw [hblocks _ (by omega)]
  by_cases hz : size % fs.blockSize = 0
  · rw [if_neg (not_not_intro hz), Nat.add_zero, u32_of_lt hsize, hz, Nat.zero_add,
      Nat.div_eq_of_lt (show fs.blockSize - 1 < fs.blockSize by omega), Nat.add_zero]
  · rw [if_pos hz, u32_of_lt (h.resolve_left hz), Nat.add_div_right _ hpos,
      show size % fs.blockSize + (fs.blockSize - 1) = size % fs.blockSize - 1 + fs.blockSize by
        omega, Nat.add_div_right _ hpos,
      Nat.div_eq_of_lt (show size % fs.blockSize - 1 < fs.blockSize by omega)]

theorem requestSize_eq_zero (hs : fs.SizeOk) (hsize : size < 2 ^ 32)
    (h : ¬(size % fs.blockSize = 0 ∨ size + fs.blockSize < 2 ^ 32)) :
    requestSize fs size = 0 := by
  obtain ⟨-, hlt, -⟩ := hs.sizes
  rw [not_or] at h
  unfold requestSize u32
  rw [if_pos h.1]
  exact Nat.div_eq_of_lt (by omega)

/-- The requests depend on the pointers only, and every read of the file with
these pointers sends them. -/
theorem readContent_eq (hs : fs.SizeOk) (hpos : 0 < size) (hsize : size < 2 ^ 32)
    (hlen : u32 (size + offset) ≤ node.length)
    (hreq : size % fs.blockSize = 0 ∨ size + fs.blockSize < 2 ^ 32)
    (hlast : offset / fs.blockSize + fs.blocksOf size ≤ fs.doublyEnd)
    (hon : ∀ i < fs.blocksOf size,
      fs.OnDrive (fs.fileBlock disk node (offset / fs.blockSize + i))) :
    ∃ rs k, Runs fs (fun t => fs.fileBlock disk node (offset / fs.blockSize + t))
        (offset % fs.blockSize) size 0 (fs.blocksOf size) rs ∧
      ∀ B : BlockLayer, B.Exact → ∀ disk' stale buffer,
        (∀ i < fs.blocksOf size, fs.fileBlock disk' node (offset / fs.blockSize + i) =
          fs.fileBlock disk node (offset / fs.blockSize + i)) →
        Tables fs disk' node (offset / fs.blockSize + fs.blocksOf size) →
        readContent B fs disk' stale node offset size buffer =
          some (sendRequests B disk' (rs ++ List.replicate k .empty) buffer) := by
  obtain ⟨hbs, -⟩ := hs.sizes
  have hblocks : fs.blocksOf size ≠ 0 := fun hz =>
    hpos.ne' ((blocksOf_eq_zero_iff (by omega) _).mp hz)
  have hinit : Queued fs (fun t => fs.fileBlock disk node (offset / fs.blockSize + t))
      (offset % fs.blockSize) size 0 ⟨size, offset % fs.blockSize, 0,
        List.replicate (requestSize fs size) .empty⟩ := by
    refine ⟨⟨[], requestSize fs size, rfl, ?_, rfl⟩, ?_, rfl, ?_⟩
    · rw [List.length_nil, Nat.zero_add, requestSize_eq hs hsize hreq]
    · exact (Nat.zero_mul _).symm
    · rw [Nat.zero_mul, Nat.sub_zero]
  obtain ⟨rs, k, hruns, hread⟩ := readEntries_queued (fs.fileBlock disk node) _ hinit hs
    (Nat.zero_add _) (Nat.pos_of_ne_zero hblocks) hsize hon
  refine ⟨rs, k, hruns, fun B hB disk' stale buffer hsame ht => ?_⟩
  have hread' : readEntries fs (fs.fileBlock disk' node) (fs.fileBlock disk' node)
      (fs.blocksOf size) (offset / fs.blockSize) ⟨size, offset % fs.blockSize, 0,
        List.replicate (requestSize fs size) .empty⟩ =
      .error (.send (rs ++ List.replicate k .empty)) := by
    rw [← hread]
    exact readEntries_congr _ hsame hsame
  unfold readContent
  rw [if_neg (not_lt.mpr hlen), walkFile_eq hB stale ht hlast hread']

/-- The address of a block that follows on another one. -/
theorem Fs.OnDrive.blockAddr_add {block i : ℕ} (h : fs.OnDrive block) (h' : fs.OnDrive (block + i))
    (hs : fs.SizeOk) : fs.blockAddr (block + i) = fs.blockAddr block + i * fs.blockSize := by
  rw [h.blockAddr_eq hs, h'.blockAddr_eq hs, Nat.add_mul, Nat.add_assoc]

/-- The bytes of a read that starts with a block come from the blocks they lie
in. -/
theorem IsSource.eq_of_aligned {b : ℕ → ℕ} {x first source : ℕ}
    (h : IsSource fs b 0 x first source) (hs : fs.SizeOk)
    (hon : ∀ t, t * fs.blockSize ≤ x → fs.OnDrive (b t)) :
    source = fs.blockAddr (b (x / fs.blockSize)) + x % fs.blockSize := by
  obtain ⟨hbs, -⟩ := hs.sizes
  have hle := Nat.div_mul_le_self x fs.blockSize
  have hdiv := Nat.div_add_mod' x fs.blockSize
  have hfirst := (Nat.le_div_iff_mul_le (show 0 < fs.blockSize by omega)).mpr h.le
  obtain ⟨i, hi⟩ := Nat.exists_eq_add_of_le hfirst
  rw [hi] at hle hdiv ⊢
  have hb := h.contiguous i hle
  have hd := hon _ hle
  rw [Nat.add_mul] at hdiv
  rw [hb] at hd ⊢
  rw [(hon first h.le).blockAddr_add hd hs, h.eq, ite_self]
  omega

/-- The bytes of any read come from the right places if the blocks follow on each
other. -/
theorem IsSource.eq_of_contiguous {b : ℕ → ℕ} {x first source : ℕ}
    (h : IsSource fs b offset x first source) (hs : fs.SizeOk)
    (hb : ∀ t, t * fs.blockSize ≤ offset + x → b t = b 0 + t)
    (hon : ∀ t, t * fs.blockSize ≤ offset + x → fs.OnDrive (b t)) :
    source = fs.blockAddr (b ((offset + x) / fs.blockSize)) + (offset + x) % fs.blockSize := by
  have hle := Nat.div_mul_le_self (offset + x) fs.blockSize
  have hdiv := Nat.div_add_mod' (offset + x) fs.blockSize
  have hfirst : first = 0 := by
    by_contra hne
    have h1 := h.le
    have h2 : (first - 1) * fs.blockSize ≤ first * fs.blockSize :=
      Nat.mul_le_mul_right _ (Nat.sub_le _ _)
    have h3 := h.maximal.resolve_left hne
    rw [hb first (by omega), hb (first - 1) (by omega)] at h3
    omega
  have hd := hon _ hle
  rw [hb _ hle] at hd ⊢
  rw [(hon 0 (by omega)).blockAddr_add hd hs, h.eq, hfirst, if_pos rfl]
  omega

end Content

/-! ## Walks that send nothing -/

section Unsent
variable {B : BlockLayer} {fs : Fs} {disk : Mem} {node : Node}

/-- The reader is left with an error, or not at all. -/
def ReadExit.IsFailure : ReadExit → Prop
  | .fault => True
  | .failed error => error ≠ .none
  | .send _ => False

/-- A part of the walk that does not reach `send_requests`. -/
def Unsent {α : Type} (r : Except ReadExit α) (P : α → Prop) : Prop :=
  match r with
  | .ok a => P a
  | .error x => x.IsFailure

theorem Unsent.bind {α β : Type} {r : Except ReadExit α} {P : α → Prop} {Q : β → Prop}
    {g : α → Except ReadExit β} (h : Unsent r P) (hg : ∀ a, P a → Unsent (g a) Q) :
    Unsent (r >>= g) Q := by
  cases r with
  | ok a => exact hg a h
  | error x => exact h

/-- The next `m` pieces do not end the walk: the array of requests is empty, or
the size covers more pieces. -/
def Stuck (fs : Fs) (m : ℕ) (s : ReadState) : Prop :=
  s.requests = [] ∨ m * fs.blockSize < s.size

theorem readBlock_unsent {m : ℕ} {s : ReadState} (h : Stuck fs (m + 1) s) (block : ℕ) :
    Unsent (readBlock fs block s) (Stuck fs m) := by
  unfold readBlock
  rcases h with h | h
  · rw [h]
    exact trivial
  · rw [Nat.succ_mul] at h
    split
    · exact trivial
    · dsimp only
      rw [if_pos (show s.size ≥ fs.blockSize by omega),
        if_neg (show ¬s.size - fs.blockSize = 0 by omega)]
      exact Or.inr (show m * fs.blockSize < s.size - fs.blockSize by omega)

theorem readEntries_unsent {fuel m i : ℕ} {s : ReadState} (h : Stuck fs (fuel + m) s)
    (e b : ℕ → ℕ) : Unsent (readEntries fs e b fuel i s) (Stuck fs m) := by
  induction fuel generalizing i s with
  | zero =>
    rw [Nat.zero_add] at h
    exact h
  | succ fuel ih =>
    rw [Nat.succ_add] at h
    rw [readEntries]
    split
    · exact ErrorT.noConfusion
    · exact (readBlock_unsent h _).bind fun s' hs' => ih hs'

theorem readTable_unsent (block : ℕ) :
    Unsent (readTable B fs disk block) (· = readPointers B fs disk block) := by
  unfold readTable
  split
  · exact ErrorT.noConfusion
  · split
    · assumption
    · rfl

theorem readDoubly_unsent {fuel m j i : ℕ} {s : ReadState}
    (h : Stuck fs (fuel * fs.pointers - i + m) s) (doubly : ℕ → ℕ) :
    Unsent (readDoubly B fs disk doubly fuel j i s) fun r => Stuck fs m r.2 := by
  induction fuel generalizing j i s with
  | zero =>
    rw [Nat.zero_mul, Nat.zero_sub, Nat.zero_add] at h
    exact h
  | succ fuel ih =>
    rw [readDoubly]
    apply (readTable_unsent _).bind
    intro sib _
    have h' : Stuck fs (fs.pointers - i + (fuel * fs.pointers - (i - fs.pointers) + m)) s := by
      rw [Nat.succ_mul] at h
      rw [show fs.pointers - i + (fuel * fs.pointers - (i - fs.pointers) + m) =
        fuel * fs.pointers + fs.pointers - i + m by omega]
      exact h
    exact (readEntries_unsent h' _ _).bind fun s' hs' => ih hs'

/-- The walk that comes to the triply indirect block fails if the buffer of this
block is followed by zeros. -/
theorem walkFile_unsent {f : ℕ} {s : ReadState} (hs : fs.SizeOk) (stale : ℕ → ℕ → ℕ → ℕ)
    (h : Stuck fs (fs.doublyEnd - f) s) :
    Unsent (walkFile (.exactWith fun _ => 0) fs disk stale node f s) fun _ => False := by
  obtain ⟨hbs, -, -, h4⟩ := hs.sizes
  have hcut : fs.doublyEnd - f = 12 - f + (fs.pointers - (f - 12) +
      (fs.pointers * fs.pointers - (f - 12 - fs.pointers) + 0)) := by
    unfold Fs.doublyEnd
    omega
  rw [hcut] at h
  unfold walkFile
  refine (readEntries_unsent h _ _).bind fun s₁ h₁ => ?_
  refine (readTable_unsent _).bind fun singly _ => ?_
  refine (readEntries_unsent h₁ _ _).bind fun s₂ h₂ => ?_
  refine (readTable_unsent _).bind fun doubly _ => ?_
  refine (readDoubly_unsent h₂ _).bind fun r _ => ?_
  refine (readTable_unsent _).bind fun triply ht => ?_
  -- the pointer at the end of the block is read behind its buffer
  have hzero : triply (fs.blockSize / 4) = 0 := by
    rw [ht]
    apply (loadLE_congr fun x hx _ => ?_ : _ = loadLE (fun _ => 0) (4 * (fs.blockSize / 4)) 4)
    exact if_neg (by
      change 4 * fs.pointers ≤ x at hx
      omega)
  obtain ⟨k, hk⟩ : ∃ k, fs.blockSize / 4 = k + 1 := ⟨fs.blockSize / 4 - 1, by omega⟩
  rw [hk, readTriply, hzero]
  exact ErrorT.noConfusion

end Unsent

/-! ## Which reads return the file -/

section Files
variable {fs : Fs} {disk disk' : Mem} {node : Node} {offset count : ℕ}

/-- An indirect block of the file, apart from its data. -/
def Indirect (fs : Fs) (disk : Mem) (node : Node) (block : ℕ) : Prop :=
  fs.OnDrive block ∧ ∀ k < fs.blocksOf node.length, fs.fileBlock disk node k ≠ block

/-- A well-formed tree of blocks for the length of the file. -/
structure FileTree (fs : Fs) (disk : Mem) (node : Node) : Prop where
  blocks_le : fs.blocksOf node.length ≤
    fs.doublyEnd + fs.pointers * fs.pointers * fs.pointers
  data : ∀ k < fs.blocksOf node.length, fs.OnDrive (fs.fileBlock disk node k)
  distinct : ∀ k < fs.blocksOf node.length, ∀ l < fs.blocksOf node.length,
    fs.fileBlock disk node k = fs.fileBlock disk node l → k = l
  singly : 12 < fs.blocksOf node.length → Indirect fs disk node (node.pointer 12)
  doubly : 12 + fs.pointers < fs.blocksOf node.length → Indirect fs disk node (node.pointer 13)
  doubly_entry : ∀ j < fs.pointers,
    12 + fs.pointers + j * fs.pointers < fs.blocksOf node.length →
      Indirect fs disk node (fs.entry disk (node.pointer 13) j)
  triply : fs.doublyEnd < fs.blocksOf node.length → Indirect fs disk node (node.pointer 14)
  triply_entry : ∀ l < fs.pointers,
    fs.doublyEnd + l * (fs.pointers * fs.pointers) < fs.blocksOf node.length →
      Indirect fs disk node (fs.entry disk (node.pointer 14) l)
  triply_doubly : ∀ l < fs.pointers, ∀ j < fs.pointers,
    fs.doublyEnd + l * (fs.pointers * fs.pointers) + j * fs.pointers <
        fs.blocksOf node.length →
      Indirect fs disk node (fs.entry disk (fs.entry disk (node.pointer 14) l) j)

/-- The disks differ in the contents of the file only. -/
def SameOutsideData (fs : Fs) (node : Node) (disk disk' : Mem) : Prop :=
  ∀ x, (∀ k < fs.blocksOf node.length, x < fs.blockAddr (fs.fileBlock disk node k) ∨
    fs.blockAddr (fs.fileBlock disk node k) + fs.blockSize ≤ x) → disk' x = disk x

/-- `ext2_read_file` returns the bytes of the file, whatever these are. -/
def ReadsFile (fs : Fs) (disk : Mem) (node : Node) (offset count : ℕ) : Prop :=
  ∀ B : BlockLayer, B.Exact → ∀ stale buffer disk', SameOutsideData fs node disk disk' →
    ∃ out, readFile B fs disk' stale node offset count buffer = some (.none, out) ∧
      ∀ x < count, out x = disk' (fs.fileAddr disk' node (offset + x))

/-- The offset has 32 bits, the array of requests does not overflow, the pieces end
with the doubly indirect block, and a read from the middle of a block is one of
blocks that follow on each other. -/
structure Readable (fs : Fs) (disk : Mem) (node : Node) (offset count : ℕ) : Prop where
  offset_lt : offset < 2 ^ 32
  requests : count % fs.blockSize = 0 ∨ count + fs.blockSize < 2 ^ 32
  levels : offset / fs.blockSize + fs.blocksOf count ≤ fs.doublyEnd
  contiguous : offset % fs.blockSize = 0 ∨
    ∀ t, t * fs.blockSize < offset % fs.blockSize + count →
      fs.fileBlock disk node (offset / fs.blockSize + t) =
        fs.fileBlock disk node (offset / fs.blockSize) + t

/-- Two blocks share no byte. -/
theorem Fs.OnDrive.apart {block block' : ℕ} (h : fs.OnDrive block) (h' : fs.OnDrive block')
    (hs : fs.SizeOk) (hne : block ≠ block') :
    fs.blockAddr block + fs.blockSize ≤ fs.blockAddr block' ∨
      fs.blockAddr block' + fs.blockSize ≤ fs.blockAddr block := by
  rw [h.blockAddr_eq hs, h'.blockAddr_eq hs]
  rcases Nat.lt_or_gt_of_ne hne with hlt | hlt
  · have := Nat.mul_le_mul_right fs.blockSize (Nat.succ_le_of_lt hlt)
    rw [Nat.succ_mul] at this
    omega
  · have := Nat.mul_le_mul_right fs.blockSize (Nat.succ_le_of_lt hlt)
    rw [Nat.succ_mul] at this
    omega

theorem FileTree.entry_eq (h : FileTree fs disk node) (hs : fs.SizeOk)
    (hsame : SameOutsideData fs node disk disk') {block i : ℕ} (hb : Indirect fs disk node block)
    (hi : i < fs.pointers) : fs.entry disk' block i = fs.entry disk block i := by
  have h4 := hs.sizes.2.2.2
  unfold Fs.entry
  apply loadLE_congr
  intro x hx hx'
  apply hsame
  intro k hk
  have := (h.data k hk).apart hb.1 hs (hb.2 k hk)
  omega

/-- The tree is found on every disk that differs in the contents only. -/
theorem FileTree.fileBlock_eq (h : FileTree fs disk node) (hs : fs.SizeOk)
    (hsame : SameOutsideData fs node disk disk') {k : ℕ} (hk : k < fs.blocksOf node.length) :
    fs.fileBlock disk' node k = fs.fileBlock disk node k := by
  obtain ⟨hbs, -, -, h4⟩ := hs.sizes
  have hn : 0 < fs.pointers := by omega
  unfold Fs.fileBlock
  by_cases h1 : k < 12
  · rw [if_pos h1, if_pos h1]
  rw [if_neg h1, if_neg h1]
  by_cases h2 : k < 12 + fs.pointers
  · rw [if_pos h2, if_pos h2, h.entry_eq hs hsame (h.singly (by omega)) (by omega)]
  rw [if_neg h2, if_neg h2]
  by_cases h3 : k < fs.doublyEnd
  · rw [if_pos h3, if_pos h3]
    dsimp only
    have hj : (k - (12 + fs.pointers)) / fs.pointers < fs.pointers := by
      apply Nat.div_lt_of_lt_mul
      unfold Fs.doublyEnd at h3
      omega
    have hle := Nat.div_mul_le_self (k - (12 + fs.pointers)) fs.pointers
    rw [h.entry_eq hs hsame (h.doubly (by omega)) hj,
      h.entry_eq hs hsame (h.doubly_entry _ hj (by omega)) (Nat.mod_lt _ hn)]
  · rw [if_neg h3, if_neg h3]
    dsimp only
    have hle := h.blocks_le
    have hl : (k - fs.doublyEnd) / (fs.pointers * fs.pointers) < fs.pointers :=
      Nat.div_lt_of_lt_mul (by omega)
    have hj : (k - fs.doublyEnd) / fs.pointers % fs.pointers < fs.pointers := Nat.mod_lt _ hn
    have h5 := Nat.div_mul_le_self (k - fs.doublyEnd) (fs.pointers * fs.pointers)
    have h6 : (k - fs.doublyEnd) / (fs.pointers * fs.pointers) * (fs.pointers * fs.pointers) +
        (k - fs.doublyEnd) / fs.pointers % fs.pointers * fs.pointers ≤ k - fs.doublyEnd := by
      rw [← Nat.div_div_eq_div_mul, ← Nat.mul_assoc, ← Nat.add_mul, Nat.div_add_mod']
      exact Nat.div_mul_le_self _ _
    rw [h.entry_eq hs hsame (h.triply (by omega)) hl,
      h.entry_eq hs hsame (h.triply_entry _ hl (by omega)) hj,
      h.entry_eq hs hsame (h.triply_doubly _ hl _ hj (by omega)) (Nat.mod_lt _ hn)]

theorem FileTree.tables (h : FileTree fs disk node) (hs : fs.SizeOk)
    (hsame : SameOutsideData fs node disk disk') {last : ℕ}
    (hlast : last ≤ fs.blocksOf node.length) : Tables fs disk' node last := by
  refine ⟨fun h1 => (h.singly (by omega)).1.1, fun h1 => (h.doubly (by omega)).1.1,
    fun j hj h1 => ?_⟩
  rw [h.entry_eq hs hsame (h.doubly (by omega)) hj]
  exact (h.doubly_entry j hj (by omega)).1.1

/-- The pieces of a read lie within the blocks of the file. -/
theorem blocks_within (hpos : 0 < fs.blockSize) {offset count length : ℕ} (hc : 0 < count)
    (h : offset + count ≤ length) :
    offset / fs.blockSize + fs.blocksOf count ≤ fs.blocksOf length := by
  have hne : fs.blocksOf count ≠ 0 := fun hz =>
    hc.ne' ((blocksOf_eq_zero_iff hpos _).mp hz)
  have hlast := (lt_blocksOf_iff hpos).mp (show fs.blocksOf count - 1 < fs.blocksOf count by omega)
  have hle := Nat.div_mul_le_self offset fs.blockSize
  have hlt : offset / fs.blockSize + (fs.blocksOf count - 1) < fs.blocksOf length := by
    rw [lt_blocksOf_iff hpos, Nat.add_mul]
    omega
  omega

/-- A place in a block of the file. -/
theorem fileBlock_lt (hpos : 0 < fs.blockSize) {x length : ℕ} (h : x < length) :
    x / fs.blockSize < fs.blocksOf length := by
  rw [lt_blocksOf_iff hpos]
  exact lt_of_le_of_lt (Nat.div_mul_le_self _ _) h

/-- The requests of a read of the file at `offset`, and where they take each byte
from. -/
theorem FileTree.readContent_eq (h : FileTree fs disk node) (hs : fs.SizeOk) {offset count : ℕ}
    (hc : 0 < count) (hc' : count < 2 ^ 32) (hlen : offset + count ≤ node.length)
    (hreq : count % fs.blockSize = 0 ∨ count + fs.blockSize < 2 ^ 32)
    (hlast : offset / fs.blockSize + fs.blocksOf count ≤ fs.doublyEnd) :
    ∃ source : ℕ → ℕ,
      (∀ x < count, ∃ first, IsSource fs
        (fun t => fs.fileBlock disk node (offset / fs.blockSize + t)) (offset % fs.blockSize) x
        first (source x)) ∧
      ∀ B : BlockLayer, B.Exact → ∀ stale buffer disk', SameOutsideData fs node disk disk' →
        ∃ out, readContent B fs disk' stale node offset count buffer = some (.none, out) ∧
          ∀ x < count, out x = disk' (source x) := by
  obtain ⟨hbs, -⟩ := hs.sizes
  have hpos : 0 < fs.blockSize := by omega
  have hwithin := blocks_within hpos hc hlen
  have hon : ∀ i < fs.blocksOf count,
      fs.OnDrive (fs.fileBlock disk node (offset / fs.blockSize + i)) :=
    fun i hi => h.data _ (by omega)
  have hu : u32 (count + offset) ≤ node.length :=
    le_trans (Nat.mod_le _ _) (by omega)
  obtain ⟨rs, k, hruns, hread⟩ := Ext2.readContent_eq hs hc hc' hu hreq hlast hon
  refine ⟨sourceOf rs, fun x hx => hruns.isSource hpos (by omega) hx,
    fun B hB stale buffer disk' hsame => ?_⟩
  obtain ⟨out, hout, hfill, -⟩ := sendRequests_runs hB hs disk' k hruns hon buffer
  refine ⟨out, ?_, fun x hx => hfill x (by omega) hx⟩
  rw [hread B hB disk' stale buffer (fun i hi => h.fileBlock_eq hs hsame (by omega))
    (h.tables hs hsame hwithin), hout]

/-- Where the byte `x` of a read at `offset` lies in the file. -/
theorem fileAddr_add (hpos : 0 < fs.blockSize) (offset x : ℕ) :
    fs.fileAddr disk node (offset + x) =
      fs.blockAddr (fs.fileBlock disk node
        (offset / fs.blockSize + (offset % fs.blockSize + x) / fs.blockSize)) +
        (offset % fs.blockSize + x) % fs.blockSize := by
  have hdiv := Nat.div_add_mod offset fs.blockSize
  unfold Fs.fileAddr
  rw [show offset + x = fs.blockSize * (offset / fs.blockSize) + (offset % fs.blockSize + x) by
    omega, Nat.mul_add_div hpos, Nat.mul_add_mod]

theorem FileTree.fileAddr_eq (h : FileTree fs disk node) (hs : fs.SizeOk)
    (hsame : SameOutsideData fs node disk disk') {x : ℕ} (hx : x < node.length) :
    fs.fileAddr disk' node x = fs.fileAddr disk node x := by
  have := hs.sizes.1
  unfold Fs.fileAddr
  rw [h.fileBlock_eq hs hsame (fileBlock_lt (by omega) hx)]

theorem Readable.reads (hr : Readable fs disk node offset count) (h : FileTree fs disk node)
    (hs : fs.SizeOk) (hc : 0 < count) (hc' : count < 2 ^ 32)
    (hlen : offset + count ≤ node.length) : ReadsFile fs disk node offset count := by
  obtain ⟨hbs, -⟩ := hs.sizes
  have hpos : 0 < fs.blockSize := by omega
  obtain ⟨source, hsource, hread⟩ := h.readContent_eq hs hc hc' hlen hr.requests hr.levels
  intro B hB stale buffer disk' hsame
  obtain ⟨out, hout, hfill⟩ := hread B hB stale buffer disk' hsame
  refine ⟨out, ?_, fun x hx => ?_⟩
  · rw [readFile, if_neg (by omega), u32_of_lt hr.offset_lt, u32_of_lt hc', hout]
  · obtain ⟨first, hx'⟩ := hsource x hx
    have hdiv := Nat.div_add_mod' offset fs.blockSize
    have hon : ∀ t, t * fs.blockSize ≤ offset % fs.blockSize + x →
        fs.OnDrive (fs.fileBlock disk node (offset / fs.blockSize + t)) := by
      intro t ht
      apply h.data
      rw [lt_blocksOf_iff hpos, Nat.add_mul]
      omega
    rw [hfill x hx, h.fileAddr_eq hs hsame (by omega), fileAddr_add hpos]
    congr 1
    rcases hr.contiguous with haligned | hcontiguous
    · rw [haligned] at hx' hon ⊢
      rw [Nat.zero_add] at hon ⊢
      exact hx'.eq_of_aligned hs hon
    · exact hx'.eq_of_contiguous hs (fun t ht => hcontiguous t (by omega)) hon

/-- A read that returns the file takes each byte from its place: otherwise the
byte at this place could be changed alone. -/
theorem ReadsFile.source_eq (hr : ReadsFile fs disk node offset count) (h : FileTree fs disk node)
    (hs : fs.SizeOk) (hc' : count < 2 ^ 32) (hlen : offset + count ≤ node.length)
    {source : ℕ → ℕ}
    (hread : ∀ B : BlockLayer, B.Exact → ∀ stale buffer disk', SameOutsideData fs node disk disk' →
      ∃ out, readContent B fs disk' stale node (u32 offset) count buffer = some (.none, out) ∧
        ∀ x < count, out x = disk' (source x))
    {x : ℕ} (hx : x < count) : source x = fs.fileAddr disk node (offset + x) := by
  obtain ⟨hbs, -⟩ := hs.sizes
  have hpos : 0 < fs.blockSize := by omega
  have hlt : (offset + x) / fs.blockSize < fs.blocksOf node.length :=
    fileBlock_lt hpos (by omega)
  by_contra hne
  have hsame : SameOutsideData fs node disk
      (Function.update disk (fs.fileAddr disk node (offset + x)) (disk (source x) + 1)) := by
    intro y hy
    apply Function.update_of_ne
    rintro rfl
    have := hy _ hlt
    have := Nat.mod_lt (offset + x) hpos
    unfold Fs.fileAddr at *
    omega
  have hB := BlockLayer.exact_exactWith fun _ => 0
  obtain ⟨out, hout, hfile⟩ := hr _ hB (fun _ _ _ => 0) disk _ hsame
  obtain ⟨out', hout', hfill⟩ := hread _ hB (fun _ _ _ => 0) disk _ hsame
  rw [readFile, if_neg (by omega), u32_of_lt hc', hout'] at hout
  have heq : out' = out := (Prod.mk.inj (Option.some.inj hout)).2
  have h1 := hfile x hx
  have h2 := hfill x hx
  rw [← heq, h2, Function.update_of_ne hne, h.fileAddr_eq hs hsame (by omega),
    Function.update_self] at h1
  exact absurd h1 (by simp)

/-- A read whose queue has no room, or that comes to the triply indirect block,
does not return the file. -/
theorem ReadsFile.not_stuck (hr : ReadsFile fs disk node offset count) (hs : fs.SizeOk)
    (hc' : count < 2 ^ 32) (hlen : offset + count ≤ node.length) :
    ¬Stuck fs (fs.doublyEnd - u32 offset / fs.blockSize) ⟨count, u32 offset % fs.blockSize, 0,
      List.replicate (requestSize fs count) .empty⟩ := by
  intro hstuck
  obtain ⟨out, hout, -⟩ := hr _ (BlockLayer.exact_exactWith fun _ => 0) (fun _ _ _ => 0) disk disk
    fun _ _ => rfl
  have hu : u32 (count + u32 offset) ≤ node.length := by
    have h1 : u32 (count + u32 offset) ≤ count + u32 offset := Nat.mod_le _ _
    have h2 : u32 offset ≤ offset := Nat.mod_le _ _
    omega
  rw [readFile, if_neg (by omega), u32_of_lt hc', readContent, if_neg (not_lt.mpr hu)] at hout
  have hw : Unsent (walkFile (.exactWith fun _ => 0) fs disk (fun _ _ _ => 0) node _ _) _ :=
    walkFile_unsent hs (fun _ _ _ => 0) hstuck
  revert hout hw
  cases walkFile (.exactWith fun _ => 0) fs disk (fun _ _ _ => 0) node
      (u32 offset / fs.blockSize) _ with
  | ok s => exact fun _ hw => hw.elim
  | error x =>
    cases x with
    | fault => exact fun hout _ => Option.some_ne_none _ hout.symm
    | failed error => exact fun hout hw => hw (Prod.mk.inj (Option.some.inj hout)).1
    | send requests => exact fun _ hw => hw.elim

/-- Blocks at the same place are the same block. -/
theorem Fs.OnDrive.eq_of_blockAddr {block block' : ℕ} (h : fs.OnDrive block)
    (h' : fs.OnDrive block') (hs : fs.SizeOk) (heq : fs.blockAddr block = fs.blockAddr block') :
    block = block' := by
  have := hs.sizes.1
  by_contra hne
  have := h.apart h' hs hne
  omega

theorem ReadsFile.readable (hr : ReadsFile fs disk node offset count) (h : FileTree fs disk node)
    (hs : fs.SizeOk) (hc : 0 < count) (hc' : count < 2 ^ 32)
    (hlen : offset + count ≤ node.length) : Readable fs disk node offset count := by
  obtain ⟨hbs, -⟩ := hs.sizes
  have hpos : 0 < fs.blockSize := by omega
  have hstuck := hr.not_stuck hs hc' hlen
  have hreq : count % fs.blockSize = 0 ∨ count + fs.blockSize < 2 ^ 32 := by
    by_contra hreq
    apply hstuck
    left
    rw [requestSize_eq_zero hs hc' hreq]
    rfl
  have hlevels : u32 offset / fs.blockSize + fs.blocksOf count ≤ fs.doublyEnd := by
    by_contra hlevels
    have hne : fs.blocksOf count ≠ 0 := fun hz =>
      hc.ne' ((blocksOf_eq_zero_iff hpos _).mp hz)
    have hlt : fs.doublyEnd - u32 offset / fs.blockSize < fs.blocksOf count := by omega
    exact hstuck (Or.inr ((lt_blocksOf_iff hpos).mp hlt))
  have hle : u32 offset ≤ offset := Nat.mod_le _ _
  obtain ⟨source, hsource, hread⟩ := h.readContent_eq hs hc hc' (show u32 offset + count ≤ _ by
    omega) hreq hlevels
  have hplace : ∀ x < count, source x = fs.fileAddr disk node (offset + x) := fun x hx =>
    hr.source_eq h hs hc' hlen hread hx
  have hmod : u32 offset % fs.blockSize = offset % fs.blockSize :=
    Nat.mod_mod_of_dvd _ hs.dvd
  -- the first byte comes from the block of the low bits of the offset
  have hlow : u32 offset = offset := by
    obtain ⟨first, h0⟩ := hsource 0 hc
    have hfirst : first = 0 := by
      by_contra hne
      have := Nat.mul_pos (Nat.pos_of_ne_zero hne) hpos
      have := h0.le
      omega
    have heq := h0.eq.symm.trans (hplace 0 hc)
    rw [hfirst, if_pos rfl, Nat.zero_sub, Nat.add_zero, Nat.add_zero, hmod, Nat.add_zero] at heq
    unfold Fs.fileAddr at heq
    have hlt := fileBlock_lt hpos (show offset < node.length by omega)
    have hlt' := fileBlock_lt hpos (show u32 offset < node.length by omega)
    have hblock := h.distinct _ hlt' _ hlt ((h.data _ hlt').eq_of_blockAddr (h.data _ hlt) hs
      (by omega))
    rw [← Nat.div_add_mod (u32 offset) fs.blockSize, hblock, hmod, Nat.div_add_mod]
  rw [hlow] at hlevels hsource
  refine ⟨by rw [← hlow]; exact u32_lt _, hreq, hlevels, ?_⟩
  -- the first byte of a later block comes from the first run
  by_contra hneg
  rw [not_or] at hneg
  obtain ⟨ho, hneg⟩ := hneg
  apply hneg
  intro t ht
  rcases Nat.eq_zero_or_pos t with rfl | htpos
  · rfl
  have hdiv := Nat.div_add_mod' offset fs.blockSize
  have hmodlt := Nat.mod_lt offset hpos
  have hle1 : fs.blockSize ≤ t * fs.blockSize := Nat.le_mul_of_pos_left _ htpos
  obtain ⟨x, hx⟩ : ∃ x, offset % fs.blockSize + x = t * fs.blockSize :=
    ⟨t * fs.blockSize - offset % fs.blockSize, by omega⟩
  obtain ⟨first, hx'⟩ := hsource x (by omega)
  have heq := hx'.eq.symm.trans (hplace x (by omega))
  rw [fileAddr_add hpos, hx, Nat.mul_div_cancel _ hpos, Nat.mul_mod_left, Nat.add_zero] at heq
  have hle2 := hx'.le
  have hon : ∀ i, i * fs.blockSize ≤ t * fs.blockSize →
      fs.OnDrive (fs.fileBlock disk node (offset / fs.blockSize + i)) := by
    intro i hi
    apply h.data
    rw [lt_blocksOf_iff hpos, Nat.add_mul]
    omega
  rw [(hon t le_rfl).blockAddr_eq hs, (hon first (by omega)).blockAddr_eq hs] at heq
  by_cases hfirst : first = 0
  · rw [hfirst, if_pos rfl, Nat.zero_mul, Nat.sub_zero, Nat.add_zero] at heq
    apply Nat.eq_of_mul_eq_mul_right hpos
    rw [Nat.add_mul]
    omega
  · -- the byte of a later run does not lie at the start of a block
    exfalso
    apply ho
    rw [if_neg hfirst, Nat.add_zero] at heq
    have hdvd : fs.blockSize ∣ offset % fs.blockSize := by
      have hsum : fs.fileBlock disk node (offset / fs.blockSize + t) * fs.blockSize +
          first * fs.blockSize + offset % fs.blockSize =
          fs.fileBlock disk node (offset / fs.blockSize + first) * fs.blockSize +
            t * fs.blockSize := by
        omega
      rw [← Nat.add_mul, ← Nat.add_mul] at hsum
      apply (Nat.dvd_add_right (Nat.dvd_mul_left fs.blockSize _)).mp
      rw [hsum]
      exact Nat.dvd_mul_left _ _
    exact Nat.eq_zero_of_dvd_of_lt hdvd hmodlt

/-- `ext2_read_file` returns the bytes of a file, whatever these are, exactly for
readable ranges. -/
theorem readsFile_iff_readable (hs : fs.SizeOk) (h : FileTree fs disk node) (hc : 1 ≤ count)
    (hc' : count ≤ 2 ^ 32 - 1) (hlen : offset + count ≤ node.length) :
    ReadsFile fs disk node offset count ↔ Readable fs disk node offset count :=
  ⟨fun hr => hr.readable h hs hc (by omega) hlen, fun hr => hr.reads h hs hc (by omega) hlen⟩

end Files

/-! ## A file of two blocks -/

/-- A volume with blocks of 1024 bytes at the start of a drive. -/
def kibVolume : Fs where
  superblock := fun _ => 0
  superblockOffset := 0
  blockSize := 1024
  blockgroupCount := 1
  readOnly := false

/-- A file of the blocks 20 and 22. -/
def scatteredFile : Node where
  length := 2048
  attributes := 0
  hardLinks := 1
  creationTime := 0
  lastAccessTime := 0
  lastModificationTime := 0
  inodeNbr := 12
  pointer := fun k => if k = 0 then 20 else if k = 1 then 22 else 0
  length_lt := by decide
  attributes_lt := Node.noAttributes
  hardLinks_lt := Node.oneLink
  creationTime_lt := Node.noTime
  lastAccessTime_lt := Node.noTime
  lastModificationTime_lt := Node.noTime
  inodeNbr_lt := Node.firstFile
  pointer_lt := fun k => by split_ifs <;> decide

theorem kibVolume_sizeOk : kibVolume.SizeOk := ⟨0, by decide, rfl⟩

theorem scatteredFile_tree (disk : Mem) : FileTree kibVolume disk scatteredFile := by
  have hblocks : kibVolume.blocksOf scatteredFile.length = 2 := by decide
  have hend : kibVolume.doublyEnd = 65804 := by decide
  have hptr : kibVolume.pointers = 256 := by decide
  have hfile : ∀ k < 2, kibVolume.fileBlock disk scatteredFile k = 20 + 2 * k := by
    intro k hk
    rw [fileBlock_direct (by omega)]
    interval_cases k <;> rfl
  constructor
  · decide
  · rw [hblocks]
    intro k hk
    rw [hfile k hk]
    interval_cases k <;> exact ⟨by decide, by decide⟩
  · rw [hblocks]
    intro k hk l hl heq
    rw [hfile k hk, hfile l hl] at heq
    omega
  all_goals
    rw [hblocks]
    first
      | rw [hend]
      | rw [hptr]
      | skip
    intros
    omega

/-- Both blocks are read from the start of the first one, although they are apart. -/
theorem readsFile_scattered_aligned :
    ReadsFile kibVolume (fun _ => 0) scatteredFile 0 2048 :=
  (readsFile_iff_readable kibVolume_sizeOk (scatteredFile_tree _) (by decide) (by decide)
    (by decide)).mpr ⟨by decide, by decide, by decide, Or.inl (by decide)⟩

/-- The second block of the file begins with a one. -/
def scatteredDisk : Mem := fun x => if x = 22 * 1024 then 1 else 0

/-- A read of the second half of the file from the middle of a block takes the
byte of the second block from the block behind the first one. -/
theorem readFile_scattered_wrong :
    FileTree kibVolume scatteredDisk scatteredFile ∧
      ¬ReadsFile kibVolume scatteredDisk scatteredFile 100 1024 ∧
      ((readFile (.exactWith fun _ => 0) kibVolume scatteredDisk (fun _ _ _ => 0) scatteredFile
        100 1024 fun _ => 0).map fun r => (r.1, r.2 924)) = some (.none, 0) ∧
      scatteredDisk (kibVolume.fileAddr scatteredDisk scatteredFile (100 + 924)) = 1 := by
  refine ⟨scatteredFile_tree _, fun hr => ?_, by decide, by decide⟩
  have hread := hr.readable (scatteredFile_tree _) kibVolume_sizeOk (by decide) (by decide)
    (by decide)
  exact absurd (hread.contiguous.resolve_left (by decide) 1 (by decide)) (by decide)

end VkKernel.Ext2
