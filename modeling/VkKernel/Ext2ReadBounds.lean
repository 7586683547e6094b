import VkKernel.Ext2Queue
import VkKernel.Lib.Outcome
import VkKernel.Lib.Traced

/-!
# The array of read requests

`ext2_inode_read_content` makes room for one request per block. `ext2_queue_read` looks for
a request without a sector, and the loop at `send_requests` looks at the sector of a request
before it compares its number with the length of the array.
-/

namespace VkKernel.Ext2
open ByteMemory PackedStruct IntervalUpdate Outcome

/-! ## The blocks that the pointers lead to -/

section Pointers
variable (B : BlockLayer) (fs : Fs) (disk : Mem)

/-- The blocks of one array of pointers, up to a null pointer. -/
def entryBlocks (entry block : ℕ → ℕ) : ℕ → ℕ → Traced ℕ ErrorT Unit
  | 0, _ => pure ()
  | fuel + 1, i =>
    if entry i = 0 then Traced.stop .fileCorruptedFs
    else Traced.tell (block i) >>= fun _ => entryBlocks entry block fuel (i + 1)

def tableBlocks (block : ℕ) : Traced ℕ ErrorT (ℕ → ℕ) :=
  if block = 0 then Traced.stop .fileCorruptedFs
  else if (B.read disk (fs.sectorOf block) 0 fs.blockSize).1 ≠ .none then
    Traced.stop (B.read disk (fs.sectorOf block) 0 fs.blockSize).1
  else pure (readPointers B fs disk block)

/-- The blocks below doubly indirect pointers, from the entry `i` of the first one on.
`block` gives the array that is read in place of the tested one. -/
def doublyBlocks (block : ℕ → (ℕ → ℕ) → ℕ → ℕ) (doubly : ℕ → ℕ) : ℕ → ℕ → ℕ → Traced ℕ ErrorT ℕ
  | 0, _, i => pure i
  | fuel + 1, j, i =>
    tableBlocks B fs disk (doubly j) >>= fun sib =>
      entryBlocks sib (block j sib) (fs.blockSize / 4 - i) i >>= fun _ =>
        doublyBlocks block doubly fuel (j + 1) (i - fs.blockSize / 4)

def triplyBlocks (stale : ℕ → ℕ → ℕ → ℕ) (triply : ℕ → ℕ) : ℕ → ℕ → ℕ → Traced ℕ ErrorT Unit
  | 0, _, _ => pure ()
  | fuel + 1, k, i =>
    tableBlocks B fs disk (triply (fs.blockSize / 4)) >>= fun dib =>
      doublyBlocks B fs disk (fun j _ => stale k j) dib (fs.blockSize / 4) 0 i >>= fun i =>
        triplyBlocks stale triply fuel (k + 1) i

/-- The blocks that `ext2_inode_read_content` comes to from the block `firstBlock` on, if it
does not stop for having read enough. -/
def fileBlocks (stale : ℕ → ℕ → ℕ → ℕ) (node : Node) (firstBlock : ℕ) : Traced ℕ ErrorT Unit :=
  entryBlocks node.pointer node.pointer (12 - firstBlock) firstBlock >>= fun _ =>
    tableBlocks B fs disk (node.pointer 12) >>= fun singly =>
      entryBlocks singly singly (fs.blockSize / 4 - (firstBlock - 12)) (firstBlock - 12) >>= fun _ =>
        tableBlocks B fs disk (node.pointer 13) >>= fun doubly =>
          doublyBlocks B fs disk (fun _ sib => sib) doubly (fs.blockSize / 4) 0
              (firstBlock - 12 - fs.blockSize / 4) >>= fun i =>
            tableBlocks B fs disk (node.pointer 14) >>= fun triply =>
              triplyBlocks B fs disk stale triply (fs.blockSize / 4) 0 i

end Pointers

/-! ## The walk queues these blocks -/

section Walk
variable {B : BlockLayer} {fs : Fs} {disk : Mem}

/-- Queue the blocks of a walk. -/
def queueBlocks {α : Type} (fs : Fs) (x : Traced ℕ ErrorT α) (s : ReadState) :
    Except ReadExit (α × ReadState) :=
  x.feed (readBlock fs) .failed s

theorem queueBlocks_bind {α β : Type} (x : Traced ℕ ErrorT α) (g : α → Traced ℕ ErrorT β)
    (s : ReadState) :
    queueBlocks fs (x >>= g) s = queueBlocks fs x s >>= fun r => queueBlocks fs (g r.1) r.2 :=
  Traced.feed_bind x g s

theorem queueBlocks_entryBlocks (entry block : ℕ → ℕ) (fuel i : ℕ) (s : ReadState) :
    queueBlocks fs (entryBlocks entry block fuel i) s =
      readEntries fs entry block fuel i s >>= fun s => .ok ((), s) := by
  induction fuel generalizing i s with
  | zero => rfl
  | succ fuel ih =>
    rw [entryBlocks, readEntries]
    by_cases h : entry i = 0
    · rw [if_pos h, if_pos h]
      rfl
    · rw [if_neg h, if_neg h, queueBlocks, Traced.feed_tell_bind, bind_assoc]
      congr 1
      funext s'
      exact ih (i + 1) s'

theorem queueBlocks_tableBlocks (block : ℕ) (s : ReadState) :
    queueBlocks fs (tableBlocks B fs disk block) s =
      readTable B fs disk block >>= fun table => .ok (table, s) := by
  unfold tableBlocks readTable
  split_ifs
  · rfl
  · rfl
  · rfl

theorem queueBlocks_doublyBlocks (doubly : ℕ → ℕ) (fuel j i : ℕ) (s : ReadState) :
    queueBlocks fs (doublyBlocks B fs disk (fun _ sib => sib) doubly fuel j i) s =
      readDoubly B fs disk doubly fuel j i s := by
  induction fuel generalizing j i s with
  | zero => rfl
  | succ fuel ih =>
    rw [doublyBlocks, readDoubly, queueBlocks_bind, queueBlocks_tableBlocks, bind_assoc]
    congr 1
    funext sib
    rw [ok_bind, queueBlocks_bind, queueBlocks_entryBlocks, bind_assoc]
    congr 1
    funext s'
    exact ih (j + 1) (i - fs.blockSize / 4) s'

theorem queueBlocks_doublyBlocks_stale (stale : ℕ → ℕ → ℕ) (dib : ℕ → ℕ) (fuel j i : ℕ)
    (s : ReadState) :
    queueBlocks fs (doublyBlocks B fs disk (fun j _ => stale j) dib fuel j i) s =
      readDoublyStale B fs disk stale dib fuel j i s := by
  induction fuel generalizing j i s with
  | zero => rfl
  | succ fuel ih =>
    rw [doublyBlocks, readDoublyStale, queueBlocks_bind, queueBlocks_tableBlocks, bind_assoc]
    congr 1
    funext sib
    rw [ok_bind, queueBlocks_bind, queueBlocks_entryBlocks, bind_assoc]
    congr 1
    funext s'
    exact ih (j + 1) (i - fs.blockSize / 4) s'

theorem queueBlocks_triplyBlocks (stale : ℕ → ℕ → ℕ → ℕ) (triply : ℕ → ℕ) (fuel k i : ℕ)
    (s : ReadState) :
    queueBlocks fs (triplyBlocks B fs disk stale triply fuel k i) s =
      readTriply B fs disk stale triply fuel k i s >>= fun s => .ok ((), s) := by
  induction fuel generalizing k i s with
  | zero => rfl
  | succ fuel ih =>
    rw [triplyBlocks, readTriply, queueBlocks_bind, queueBlocks_tableBlocks, bind_assoc, bind_assoc]
    congr 1
    funext dib
    rw [ok_bind, queueBlocks_bind, queueBlocks_doublyBlocks_stale, bind_assoc]
    congr 1
    funext r
    exact ih (k + 1) r.1 r.2

/-- The walk over the pointers queues the blocks that they lead to. -/
theorem queueBlocks_fileBlocks (stale : ℕ → ℕ → ℕ → ℕ) (node : Node) (firstBlock : ℕ)
    (s : ReadState) :
    queueBlocks fs (fileBlocks B fs disk stale node firstBlock) s =
      walkFile B fs disk stale node firstBlock s >>= fun s => .ok ((), s) := by
  unfold walkFile fileBlocks
  rw [queueBlocks_bind, queueBlocks_entryBlocks, bind_assoc, bind_assoc]
  congr 1
  funext s
  rw [ok_bind, queueBlocks_bind, queueBlocks_tableBlocks, bind_assoc, bind_assoc]
  congr 1
  funext singly
  rw [ok_bind, queueBlocks_bind, queueBlocks_entryBlocks, bind_assoc, bind_assoc]
  congr 1
  funext s
  rw [ok_bind, queueBlocks_bind, queueBlocks_tableBlocks, bind_assoc, bind_assoc]
  congr 1
  funext doubly
  rw [ok_bind, queueBlocks_bind, queueBlocks_doublyBlocks, bind_assoc]
  congr 1
  funext r
  rw [queueBlocks_bind, queueBlocks_tableBlocks, bind_assoc, bind_assoc]
  congr 1
  funext triply
  rw [ok_bind, queueBlocks_triplyBlocks]

end Walk

/-! ## The accesses to the array -/

section Accesses
variable (B : BlockLayer) (fs : Fs) (disk : Mem)

/-- The block device refuses the request. -/
def Refused (r : ReadRequest) : Prop := (B.read disk r.sector r.offset r.count).1 ≠ .none

instance (r : ReadRequest) : Decidable (Refused B disk r) := inferInstanceAs (Decidable (_ ≠ _))

/-- The numbers of the requests whose sector the loop at `send_requests` looks at. Behind the
last request it looks at one more, and only then compares its number. -/
def sendIndices : ℕ → List ReadRequest → List ℕ
  | i, [] => [i]
  | i, r :: rs =>
    i :: if r.sector = 0 then [] else if Refused B disk r then [] else sendIndices (i + 1) rs

/-- Behind the comparison with the length, `ext2_inode_read_content` looks only at requests of
its array. -/
def StaysInArray (stale : ℕ → ℕ → ℕ → ℕ) (node : Node) (offset size : ℕ) : Prop :=
  match walkFile B fs disk stale node (offset / fs.blockSize) ⟨size, offset % fs.blockSize, 0,
      List.replicate (requestSize fs size) .empty⟩ with
  | .ok s => ∀ i ∈ sendIndices B disk 0 s.requests, i < requestSize fs size
  | .error (.send requests) => ∀ i ∈ sendIndices B disk 0 requests, i < requestSize fs size
  | .error (.failed _) => True
  | .error .fault => False

/-- None of the first `n` requests is merged with the one before it or lacks a sector. -/
structure Scattered (b : ℕ → ℕ) (n : ℕ) : Prop where
  sector : ∀ t < n, fs.sectorOf (b t) ≠ 0
  apart : ∀ t, t + 1 < n →
    u32 (fs.sectorOf (b t) + fs.blockSize / bytesPerSector) ≠ fs.sectorOf (b (t + 1))

end Accesses

section Queue
variable {B : BlockLayer} {fs : Fs} {disk : Mem} {b : ℕ → ℕ} {offset size : ℕ}

/-- The loop stays in the array if a request in it has no sector or is refused. -/
theorem sendIndices_lt_iff (k : ℕ) (rs : List ReadRequest) :
    (∀ i ∈ sendIndices B disk k rs, i < k + rs.length) ↔
      ∃ r ∈ rs, r.sector = 0 ∨ Refused B disk r := by
  induction rs generalizing k with
  | nil => simp [sendIndices]
  | cons r rs ih =>
    rw [sendIndices, List.length_cons, List.forall_mem_cons, List.exists_mem_cons_iff]
    have hk : k < k + (rs.length + 1) := by omega
    by_cases h0 : r.sector = 0
    · simp [h0]
    by_cases hr : Refused B disk r
    · simp [hr]
    have hnext := ih (k + 1)
    rw [Nat.add_right_comm, Nat.add_assoc] at hnext
    rw [if_neg h0, if_neg hr, hnext]
    simp [hk, h0, hr]

theorem Scattered.of_succ {n : ℕ} (h : Scattered fs b (n + 1)) : Scattered fs b n :=
  ⟨fun t ht => h.sector t (by omega), fun t ht => h.apart t (by omega)⟩

/-- Requests with a sector keep it. -/
theorem queueRead_used {us zs : List ReadRequest} {q : ReadRequest} (hu : ∀ r ∈ us, r.sector ≠ 0)
    (hz : ∀ z ∈ zs, z.sector = 0) (hne : zs ≠ []) :
    ∃ us' zs', queueRead (us ++ zs) q = some (us' ++ zs') ∧ (∀ r ∈ us', r.sector ≠ 0) ∧
      (∀ z ∈ zs', z.sector = 0) ∧ us'.length + zs'.length = us.length + zs.length ∧
      us'.length ≤ us.length + 1 := by
  induction us with
  | nil =>
    cases zs with
    | nil => exact absurd rfl hne
    | cons z zs =>
      have hz0 := hz z List.mem_cons_self
      rw [List.nil_append, queueRead, if_pos hz0]
      by_cases hq : q.sector = 0
      · refine ⟨[], q :: zs, rfl, by simp, ?_, by simp, by simp⟩
        intro x hx
        cases hx with
        | head => exact hq
        | tail _ hx => exact hz x (List.mem_cons_of_mem _ hx)
      · refine ⟨[q], zs, rfl, by simpa using hq, ?_, by simp; omega, by simp⟩
        intro x hx
        exact hz x (List.mem_cons_of_mem _ hx)
  | cons r us ih =>
    have hr := hu r List.mem_cons_self
    rw [List.cons_append, queueRead, if_neg hr]
    by_cases hm : r.sector = u32 (q.sector + 2 ^ 32 - r.count / bytesPerSector) ∧
        r.buffer = u32 (q.buffer + 2 ^ 32 - r.count)
    · rw [if_pos hm]
      refine ⟨{ r with count := u32 (r.count + q.count) } :: us, zs, rfl, ?_, hz, by simp, by simp⟩
      intro x hx
      cases hx with
      | head => exact hr
      | tail _ hx => exact hu x (List.mem_cons_of_mem _ hx)
    · obtain ⟨us', zs', hrun, hu', hz', hlen, hle⟩ := ih fun x hx => hu x (List.mem_cons_of_mem _ hx)
      rw [if_neg hm, hrun]
      refine ⟨r :: us', zs', rfl, ?_, hz', ?_, ?_⟩
      · intro x hx
        cases hx with
        | head => exact hr
        | tail _ hx => exact hu' x hx
      · rw [List.length_cons, List.length_cons]
        omega
      · rw [List.length_cons, List.length_cons]
        omega

/-- A piece in front of another one is a whole block. -/
theorem piece_count {j t : ℕ} (hj : j < t) (ht : t * fs.blockSize < size) :
    (piece fs b offset size j).count = fs.blockSize := by
  have hle : (j + 1) * fs.blockSize ≤ t * fs.blockSize := Nat.mul_le_mul_right _ hj
  rw [Nat.add_mul, Nat.one_mul] at hle
  exact if_pos (by omega)

/-- The request for a piece that is not merged. -/
theorem queueRead_piece (hs : fs.SizeOk) (hsize : size < 2 ^ 32) {t : ℕ} (ht : t * fs.blockSize < size)
    (h : Scattered fs b t) {z : ReadRequest} (zs : List ReadRequest) (hz : z.sector = 0) :
    (∀ j, j + 1 = t → u32 (fs.sectorOf (b j) + fs.blockSize / bytesPerSector) ≠ fs.sectorOf (b t)) ∧
      queueRead ((List.range t).map (piece fs b offset size) ++ z :: zs) (piece fs b offset size t) =
        some ((List.range (t + 1)).map (piece fs b offset size) ++ zs) ∨
    (∃ j, j + 1 = t ∧ u32 (fs.sectorOf (b j) + fs.blockSize / bytesPerSector) = fs.sectorOf (b t)) ∧
      ∃ us, queueRead ((List.range t).map (piece fs b offset size) ++ z :: zs)
          (piece fs b offset size t) = some (us ++ z :: zs) ∧ us.length = t ∧ ∀ r ∈ us, r.sector ≠ 0 := by
  obtain ⟨hbs, hbs', -⟩ := hs.sizes
  have hnew : queueRead (z :: zs) (piece fs b offset size t) = some (piece fs b offset size t :: zs) := by
    rw [queueRead, if_pos hz]
  cases t with
  | zero =>
    left
    refine ⟨by omega, ?_⟩
    exact hnew
  | succ j =>
    have hmul : (j + 1) * fs.blockSize = j * fs.blockSize + fs.blockSize := Nat.succ_mul _ _
    have hcount : (piece fs b offset size j).count = fs.blockSize := piece_count (Nat.lt_succ_self j) ht
    have hskip : ∀ r ∈ (List.range j).map (piece fs b offset size), r.sector ≠ 0 ∧
        r.buffer + r.count < (piece fs b offset size (j + 1)).buffer := by
      intro r hr
      obtain ⟨i, hi, rfl⟩ := List.mem_map.mp hr
      rw [List.mem_range] at hi
      refine ⟨h.sector i (by omega), ?_⟩
      rw [piece_count (Nat.lt_succ_of_lt hi) ht]
      have hle : (i + 1) * fs.blockSize ≤ j * fs.blockSize := Nat.mul_le_mul_right _ hi
      rw [Nat.add_mul, Nat.one_mul] at hle
      unfold piece
      dsimp only
      omega
    have hbuffer : (piece fs b offset size (j + 1)).buffer < 2 ^ 32 := by
      unfold piece
      dsimp only
      omega
    have hsector : ∀ i, (piece fs b offset size i).sector < 2 ^ 32 := fun i => u32_lt _
    have hstop : (piece fs b offset size j).stop =
        fs.sectorOf (b j) + fs.blockSize / bytesPerSector := by
      rw [ReadRequest.stop, hcount]
      rfl
    have hmerge : (piece fs b offset size j).buffer =
        u32 ((piece fs b offset size (j + 1)).buffer + 2 ^ 32 - (piece fs b offset size j).count) := by
      rw [hcount]
      unfold piece u32
      dsimp only
      omega
    have hiff := sector_eq_iff (r := piece fs b offset size j) (q := piece fs b offset size (j + 1))
      (hsector j) (by omega) (hsector (j + 1))
    rw [hstop] at hiff
    rw [List.range_succ, List.map_append, List.map_singleton, List.append_assoc,
      queueRead_append hskip hbuffer, List.singleton_append, queueRead,
      if_neg (show (piece fs b offset size j).sector ≠ 0 from h.sector j (by omega))]
    by_cases hm : u32 (fs.sectorOf (b j) + fs.blockSize / bytesPerSector) = fs.sectorOf (b (j + 1))
    · right
      rw [if_pos ⟨hiff.mpr hm, hmerge⟩]
      let r : ReadRequest := { piece fs b offset size j with
        count := u32 ((piece fs b offset size j).count + (piece fs b offset size (j + 1)).count) }
      refine ⟨⟨j, rfl, hm⟩, (List.range j).map (piece fs b offset size) ++ [r], ?_, by simp, ?_⟩
      · rw [List.append_assoc, List.singleton_append]
        rfl
      · intro r hr
        rw [List.mem_append, List.mem_singleton] at hr
        rcases hr with hr | rfl
        · exact (hskip r hr).1
        · exact h.sector j (by omega)
    · left
      rw [if_neg fun hc => hm (hiff.mp hc.1), hnew]
      refine ⟨?_, ?_⟩
      · intro i hi
        obtain rfl : i = j := by omega
        exact hm
      · rw [List.range_succ, List.range_succ]
        simp

/-- The variables of the reader in front of the piece `t`, in an array of `n` requests. -/
structure AtPiece (fs : Fs) (b : ℕ → ℕ) (offset size n t : ℕ) (s : ReadState) : Prop where
  requests : ∃ us zs, s.requests = us ++ zs ∧ us.length + zs.length = n ∧ us.length ≤ t ∧
    (∀ r ∈ us, r.sector ≠ 0) ∧ (∀ z ∈ zs, z.sector = 0) ∧ (us.length = t → Scattered fs b t) ∧
    (Scattered fs b t → us = (List.range t).map (piece fs b offset size))
  currentloc : s.currentloc = t * fs.blockSize
  offset : s.offset = if t = 0 then offset else 0
  size : s.size = size - t * fs.blockSize

/-- What the array holds behind the piece `t`. -/
theorem queueRead_atPiece (hs : fs.SizeOk) (hsize : size < 2 ^ 32) {n t : ℕ} (ht : t * fs.blockSize < size)
    (hn : t < n) {us zs : List ReadRequest} (hlen : us.length + zs.length = n) (hle : us.length ≤ t)
    (hu : ∀ r ∈ us, r.sector ≠ 0) (hz : ∀ z ∈ zs, z.sector = 0)
    (hscattered : us.length = t → Scattered fs b t)
    (hpieces : Scattered fs b t → us = (List.range t).map (piece fs b offset size)) :
    ∃ us' zs', queueRead (us ++ zs) (piece fs b offset size t) = some (us' ++ zs') ∧
      us'.length + zs'.length = n ∧ us'.length ≤ t + 1 ∧ (∀ r ∈ us', r.sector ≠ 0) ∧
      (∀ z ∈ zs', z.sector = 0) ∧ (us'.length = t + 1 → Scattered fs b (t + 1)) ∧
      (Scattered fs b (t + 1) → us' = (List.range (t + 1)).map (piece fs b offset size)) := by
  obtain ⟨z, zs, rfl⟩ : ∃ z zs', zs = z :: zs' := by
    apply List.exists_cons_of_ne_nil
    rintro rfl
    rw [List.length_nil] at hlen
    omega
  by_cases hsc : Scattered fs b t
  · rw [hpieces hsc]
    rw [hpieces hsc, List.length_map, List.length_range, List.length_cons] at hlen
    rcases @queueRead_piece fs b offset size hs hsize t ht hsc z zs (hz z List.mem_cons_self) with
      ⟨happart, hrun⟩ | ⟨⟨j, hj, hm⟩, us', hrun, hlen', hu'⟩
    · by_cases h0 : fs.sectorOf (b t) = 0
      · -- the request is stored, and its place is still the first one without a sector
        refine ⟨(List.range t).map (piece fs b offset size), piece fs b offset size t :: zs, ?_, ?_,
          ?_, ?_, ?_, ?_, ?_⟩
        · rw [hrun, List.range_succ]
          simp
        · simpa using hlen
        · simp
        · rw [← hpieces hsc]
          exact hu
        · intro x hx
          cases hx with
          | head => exact h0
          | tail _ hx => exact hz x (List.mem_cons_of_mem _ hx)
        · intro hl
          simp at hl
        · intro h
          exact absurd h0 (h.sector t (Nat.lt_succ_self t))
      · refine ⟨_, zs, hrun, ?_, ?_, ?_, ?_, ?_, fun _ => rfl⟩
        · rw [List.length_map, List.length_range]
          omega
        · simp
        · intro r hr
          obtain ⟨i, hi, rfl⟩ := List.mem_map.mp hr
          rw [List.mem_range] at hi
          by_cases hit : i = t
          · rw [hit]
            exact h0
          · exact hsc.sector i (by omega)
        · intro x hx
          exact hz x (List.mem_cons_of_mem _ hx)
        · intro _
          constructor
          · intro i hi
            by_cases hit : i = t
            · rw [hit]
              exact h0
            · exact hsc.sector i (by omega)
          · intro i hi
            by_cases hit : i + 1 = t
            · rw [hit]
              exact happart i hit
            · exact hsc.apart i (by omega)
    · refine ⟨us', z :: zs, hrun, ?_, by omega, hu', hz, ?_, ?_⟩
      · rw [List.length_cons]
        omega
      · intro hl
        omega
      · intro h
        exact absurd hm (hj ▸ h.apart j (by omega))
  · obtain ⟨us', zs', hrun, hu', hz', hlen', hle'⟩ := queueRead_used (q := piece fs b offset size t) hu hz
      (List.cons_ne_nil z zs)
    have hlt : us.length ≠ t := fun hl => hsc (hscattered hl)
    refine ⟨us', zs', hrun, by omega, by omega, hu', hz', ?_, ?_⟩
    · intro hl
      omega
    · intro h
      exact absurd h.of_succ hsc

/-- One piece. The reader is done behind the last one. -/
theorem AtPiece.step (hs : fs.SizeOk) (hsize : size < 2 ^ 32) {n t : ℕ} {s : ReadState}
    (h : AtPiece fs b offset size n t s) (ht : t * fs.blockSize < size) (hn : t < n) :
    (t + 1 < fs.blocksOf size ∧ ∃ s', AtPiece fs b offset size n (t + 1) s' ∧
      readBlock fs (b t) s = .ok s') ∨
    (t + 1 = fs.blocksOf size ∧ ∃ us zs, readBlock fs (b t) s = .error (.send (us ++ zs)) ∧
      us.length + zs.length = n ∧ us.length ≤ t + 1 ∧ (∀ r ∈ us, r.sector ≠ 0) ∧
      (∀ z ∈ zs, z.sector = 0) ∧ (us.length = t + 1 → Scattered fs b (t + 1)) ∧
      (Scattered fs b (t + 1) → us = (List.range (t + 1)).map (piece fs b offset size))) := by
  obtain ⟨hbs, hbs', -⟩ := hs.sizes
  have hpos : 0 < fs.blockSize := by omega
  obtain ⟨us, zs, hreq, hlen, hle, hu, hz, hsc, hpieces⟩ := h.requests
  obtain ⟨us', zs', hrun, hlen', hle', hu', hz', hsc', hpieces'⟩ :=
    queueRead_atPiece hs hsize ht hn hlen hle hu hz hsc hpieces
  have hpiece : readBlock fs (b t) s =
      if (if s.size ≥ fs.blockSize then s.size - fs.blockSize else 0) = 0 then
        .error (.send (us' ++ zs'))
      else .ok ⟨if s.size ≥ fs.blockSize then s.size - fs.blockSize else 0, 0,
        u32 (s.currentloc + fs.blockSize), us' ++ zs'⟩ := by
    have hqueue : queueRead s.requests ⟨fs.sectorOf (b t),
        if s.size ≥ fs.blockSize then fs.blockSize else s.size, s.offset, s.currentloc⟩ =
        some (us' ++ zs') := by
      rw [← hrun, ← hreq, h.size, h.offset, h.currentloc]
      rfl
    unfold readBlock
    rw [hqueue]
  have hlt := (lt_blocksOf_iff hpos).mpr ht
  have hnext : (t + 1) * fs.blockSize = t * fs.blockSize + fs.blockSize := Nat.succ_mul _ _
  rw [hpiece, h.size, h.currentloc]
  by_cases hend : size ≤ (t + 1) * fs.blockSize
  · have hlast := (blocksOf_le_iff hpos).mpr hend
    have hzero : (if size - t * fs.blockSize ≥ fs.blockSize then
        size - t * fs.blockSize - fs.blockSize else 0) = 0 := by
      split <;> omega
    rw [if_pos hzero]
    exact Or.inr ⟨by omega, us', zs', rfl, hlen', hle', hu', hz', hsc', hpieces'⟩
  · have hlt' := (lt_blocksOf_iff hpos).mpr (show (t + 1) * fs.blockSize < size by omega)
    have hrest : (if size - t * fs.blockSize ≥ fs.blockSize then
        size - t * fs.blockSize - fs.blockSize else 0) = size - (t + 1) * fs.blockSize := by
      rw [if_pos (by omega)]
      omega
    rw [hrest, if_neg (by omega)]
    refine Or.inl ⟨hlt', _, ⟨⟨us', zs', rfl, hlen', hle', hu', hz', hsc', hpieces'⟩, ?_, ?_, rfl⟩, rfl⟩
    · dsimp only
      rw [u32_of_lt (by omega), hnext]
    · exact (if_neg (by omega)).symm

/-- The requests of the first `n` blocks. -/
def queueList (fs : Fs) (bs : List ℕ) (s : ReadState) : Except ReadExit ReadState :=
  bs.foldlM (fun s block => readBlock fs block s) s

theorem queueList_append (bs bs' : List ℕ) (s : ReadState) :
    queueList fs (bs ++ bs') s = queueList fs bs s >>= queueList fs bs' := by
  unfold queueList
  rw [List.foldlM_append]

/-- Fewer blocks than the read has pieces. -/
theorem queueList_of_lt (hs : fs.SizeOk) (hsize : size < 2 ^ 32) {n : ℕ} {s : ReadState}
    (h : AtPiece fs b offset size n 0 s) (hn : fs.blocksOf size ≤ n) {t : ℕ} (ht : t < fs.blocksOf size) :
    ∃ s', queueList fs ((List.range t).map b) s = .ok s' ∧ AtPiece fs b offset size n t s' := by
  obtain ⟨hbs, -⟩ := hs.sizes
  induction t with
  | zero => exact ⟨s, rfl, h⟩
  | succ t ih =>
    obtain ⟨s1, hrun, h1⟩ := ih (by omega)
    have hlt := (lt_blocksOf_iff (by omega)).mp (show t < fs.blocksOf size by omega)
    rcases h1.step hs hsize hlt (by omega) with ⟨-, s2, h2, hstep⟩ | ⟨hend, -⟩
    · refine ⟨s2, ?_, h2⟩
      rw [List.range_succ, List.map_append, queueList_append, hrun, ok_bind]
      unfold queueList
      rw [List.map_singleton, List.foldlM_cons, hstep]
      rfl
    · omega

/-- As many blocks as the read has pieces, or more. -/
theorem queueList_of_le (hs : fs.SizeOk) (hsize : size < 2 ^ 32) {n : ℕ} {s : ReadState}
    (h : AtPiece fs b offset size n 0 s) (hn : fs.blocksOf size ≤ n) (hpos : 0 < size) {t : ℕ}
    (ht : fs.blocksOf size ≤ t) :
    ∃ us zs, queueList fs ((List.range t).map b) s = .error (.send (us ++ zs)) ∧
      us.length + zs.length = n ∧ us.length ≤ fs.blocksOf size ∧ (∀ r ∈ us, r.sector ≠ 0) ∧
      (∀ z ∈ zs, z.sector = 0) ∧
      (us.length = fs.blocksOf size → Scattered fs b (fs.blocksOf size)) ∧
      (Scattered fs b (fs.blocksOf size) →
        us = (List.range (fs.blocksOf size)).map (piece fs b offset size)) := by
  obtain ⟨hbs, -⟩ := hs.sizes
  have hN : 0 < fs.blocksOf size := (lt_blocksOf_iff (by omega)).mpr (by omega)
  obtain ⟨l, hl⟩ : ∃ l, fs.blocksOf size = l + 1 := ⟨fs.blocksOf size - 1, by omega⟩
  obtain ⟨s1, hrun, h1⟩ := queueList_of_lt hs hsize h hn (t := l) (by omega)
  have hlt := (lt_blocksOf_iff (by omega)).mp (show l < fs.blocksOf size by omega)
  rcases h1.step hs hsize hlt (by omega) with ⟨hnot, -⟩ | ⟨-, us, zs, hstep, hrest⟩
  · omega
  · rw [← hl] at hrest
    refine ⟨us, zs, ?_, hrest⟩
    have hsplit : List.range t = List.range l ++ (List.range (t - l)).map (l + ·) := by
      rw [← List.range_add, Nat.add_sub_cancel' (by omega)]
    have hsucc : List.range (t - l) = 0 :: (List.range (t - l - 1)).map Nat.succ := by
      rw [← List.range_succ_eq_map, Nat.sub_add_cancel (by omega)]
    rw [hsplit, hsucc, List.map_append, queueList_append, hrun, ok_bind]
    unfold queueList
    rw [List.map_cons, List.map_cons, List.foldlM_cons, Nat.add_zero, hstep]
    rfl

end Queue

/-! ## All reads -/

section Reads
variable {B : BlockLayer} {fs : Fs} {disk : Mem} {stale : ℕ → ℕ → ℕ → ℕ} {node : Node} {offset size : ℕ}

/-- The array has no entry for an empty read, or if its length overflows. -/
def NoRequests (fs : Fs) (size : ℕ) : Prop :=
  size = 0 ∨ size % fs.blockSize ≠ 0 ∧ 2 ^ 32 ≤ size + fs.blockSize

theorem requestSize_of_noRequests (hs : fs.SizeOk) (hsize : size < 2 ^ 32) (h : NoRequests fs size) :
    requestSize fs size = 0 := by
  rcases h with rfl | ⟨hrest, hover⟩
  · unfold requestSize
    rw [Nat.zero_mod, if_neg (not_not_intro rfl), Nat.add_zero, u32_of_lt (by omega), Nat.zero_div]
  · apply requestSize_eq_zero hs hsize
    omega

theorem requestSize_of_requests (hs : fs.SizeOk) (hsize : size < 2 ^ 32) (h : ¬NoRequests fs size) :
    0 < size ∧ requestSize fs size = fs.blocksOf size := by
  unfold NoRequests at h
  refine ⟨by omega, requestSize_eq hs hsize ?_⟩
  by_cases hrest : size % fs.blockSize = 0
  · exact Or.inl hrest
  · right
    by_contra hover
    exact h (Or.inr ⟨hrest, by omega⟩)

/-- The variables in front of the first block. -/
theorem atPiece_first (fs : Fs) (b : ℕ → ℕ) (offset size n : ℕ) :
    AtPiece fs b offset size n 0 ⟨size, offset, 0, List.replicate n .empty⟩ where
  requests := by
    refine ⟨[], List.replicate n .empty, rfl, by simp, le_rfl, by simp, ?_, ?_, fun _ => rfl⟩
    · intro z hz
      rw [List.eq_of_mem_replicate hz]
      rfl
    · intro _
      exact ⟨fun t ht => absurd ht (Nat.not_lt_zero t), fun t ht => absurd ht (Nat.not_lt_zero _)⟩
  currentloc := (Nat.zero_mul _).symm
  offset := rfl
  size := by rw [Nat.zero_mul, Nat.sub_zero]

/-- The blocks of the walk decide how it ends. -/
theorem walkFile_eq_queueList (s : ReadState) :
    walkFile B fs disk stale node (offset / fs.blockSize) s =
      queueList fs (fileBlocks B fs disk stale node (offset / fs.blockSize)).1 s >>= fun s =>
        match (fileBlocks B fs disk stale node (offset / fs.blockSize)).2 with
        | .ok _ => .ok s
        | .error e => .error (.failed e) := by
  have h := @queueBlocks_fileBlocks B fs disk stale node (offset / fs.blockSize) s
  unfold queueBlocks Traced.feed at h
  unfold queueList
  revert h
  cases walkFile B fs disk stale node (offset / fs.blockSize) s with
  | error e =>
    cases List.foldlM (fun s w => readBlock fs w s) s
        (fileBlocks B fs disk stale node (offset / fs.blockSize)).1 with
    | error e' => exact fun h => by injection h with h; rw [h]; rfl
    | ok s' =>
      rw [ok_bind, ok_bind]
      cases (fileBlocks B fs disk stale node (offset / fs.blockSize)).2 with
      | error e' => exact fun h => by injection h with h; rw [← h]
      | ok u => exact fun h => by injection h
  | ok r =>
    cases List.foldlM (fun s w => readBlock fs w s) s
        (fileBlocks B fs disk stale node (offset / fs.blockSize)).1 with
    | error e' => exact fun h => by injection h
    | ok s' =>
      rw [ok_bind, ok_bind]
      cases (fileBlocks B fs disk stale node (offset / fs.blockSize)).2 with
      | error e' => exact fun h => by injection h
      | ok u => exact fun h => by injection h with h; injection h with _ h; rw [← h]; rfl

/-- No request fits into an array without entries. -/
theorem queueList_nil (bs : List ℕ) {s : ReadState} (hs : s.requests = []) (hne : bs ≠ []) :
    queueList fs bs s = .error .fault := by
  cases bs with
  | nil => exact absurd rfl hne
  | cons block bs =>
    unfold queueList
    rw [List.foldlM_cons]
    unfold readBlock
    rw [hs]
    rfl

/-- `ext2_inode_read_content` looks at requests of its array only, exactly if an array
without entries is not used, since the pointers lead to an error before the first block, and
an array with entries is not filled by requests that all are read. -/
theorem staysInArray_iff (hs : fs.SizeOk) (hsize : size < 2 ^ 32) :
    let walk := fileBlocks B fs disk stale node (offset / fs.blockSize)
    StaysInArray B fs disk stale node offset size ↔
      (NoRequests fs size → walk.1 = [] ∧ ∃ e, walk.2 = .error e) ∧
      (¬NoRequests fs size → fs.blocksOf size ≤ walk.1.length →
        Scattered fs (walk.1.getD · 0) (fs.blocksOf size) →
        ∃ t < fs.blocksOf size,
          Refused B disk (piece fs (walk.1.getD · 0) (offset % fs.blockSize) size t)) := by
  intro walk
  have hlist : walk.1 = (List.range walk.1.length).map (walk.1.getD · 0) := by
    apply List.ext_getElem
    · rw [List.length_map, List.length_range]
    · intro i h1 h2
      rw [List.getElem_map, List.getElem_range, List.getD_eq_getElem _ _ h1]
  unfold StaysInArray
  rw [walkFile_eq_queueList]
  by_cases hno : NoRequests fs size
  · rw [requestSize_of_noRequests hs hsize hno]
    simp only [hno, not_true, false_implies, and_true, true_implies]
    by_cases hempty : walk.1 = []
    · -- the reader comes to `send_requests`, or it does not
      have hrun : ∀ s, queueList fs walk.1 s = .ok s := by
        intro s
        rw [hempty]
        rfl
      rw [hrun, ok_bind]
      cases hend : walk.2 with
      | error e => simp [walk, hempty]
      | ok u => simp [walk, sendIndices]
    · rw [queueList_nil _ rfl hempty]
      simp [hempty, bind, Except.bind]
  · obtain ⟨hpos, hreq⟩ := requestSize_of_requests hs hsize hno
    rw [hreq]
    simp only [hno, not_false_eq_true, false_implies, true_and, true_implies]
    have hinit := atPiece_first fs (walk.1.getD · 0) (offset % fs.blockSize) size (fs.blocksOf size)
    by_cases hshort : walk.1.length < fs.blocksOf size
    · obtain ⟨s, hrun, hs'⟩ := queueList_of_lt hs hsize hinit le_rfl hshort
      rw [← hlist] at hrun
      rw [hrun, ok_bind]
      have hright : ¬fs.blocksOf size ≤ walk.1.length := by omega
      cases hend : walk.2 with
      | error e => simp [walk, hright]
      | ok u =>
        obtain ⟨us, zs, hlist', hlen, hle, -, hz, -⟩ := hs'.requests
        have hfirst := @sendIndices_lt_iff B disk 0 s.requests
        rw [hlist', Nat.zero_add, List.length_append, hlen] at hfirst
        have hzero : ∃ r ∈ us ++ zs, r.sector = 0 ∨ Refused B disk r := by
          obtain ⟨z, hzmem⟩ := List.exists_mem_of_length_pos (show 0 < zs.length by omega)
          exact ⟨z, List.mem_append_right _ hzmem, Or.inl (hz z hzmem)⟩
        simp only [hright, false_implies, iff_true]
        rw [hlist']
        exact hfirst.mpr hzero
    · obtain ⟨us, zs, hrun, hlen, hle, hu, hz, hsc, hpieces⟩ := queueList_of_le hs hsize hinit le_rfl hpos
        (not_lt.mp hshort)
      rw [← hlist] at hrun
      rw [hrun]
      have hfirst := @sendIndices_lt_iff B disk 0 (us ++ zs)
      rw [Nat.zero_add, List.length_append, hlen] at hfirst
      change (∀ i ∈ sendIndices B disk 0 (us ++ zs), i < fs.blocksOf size) ↔ _
      rw [hfirst]
      constructor
      · rintro ⟨r, hr, hcase⟩ - hscattered
        have hus := hpieces hscattered
        have hzs : zs = [] := by
          apply List.eq_nil_of_length_eq_zero
          rw [hus, List.length_map, List.length_range] at hlen
          omega
        rw [hzs, List.append_nil] at hr
        have hrefused := hcase.resolve_left (hu r hr)
        rw [hus] at hr
        obtain ⟨t, ht, rfl⟩ := List.mem_map.mp hr
        exact ⟨t, List.mem_range.mp ht, hrefused⟩
      · intro h
        by_cases hfull : us.length = fs.blocksOf size
        · have hscattered := hsc hfull
          obtain ⟨t, ht, hrefused⟩ := h (not_lt.mp hshort) hscattered
          rw [hpieces hscattered]
          refine ⟨_, List.mem_append_left _ (List.mem_map.mpr ⟨t, List.mem_range.mpr ht, rfl⟩), Or.inr hrefused⟩
        · obtain ⟨z, hzmem⟩ := List.exists_mem_of_length_pos (show 0 < zs.length by omega)
          exact ⟨z, List.mem_append_right _ hzmem, Or.inl (hz z hzmem)⟩

end Reads

/-- The read of the first byte of a file looks at a second request. -/
theorem readContent_overruns :
    u32 (1 + 0) ≤ scatteredFile.length ∧
    ¬StaysInArray (.exactWith fun _ => 0) kibVolume (fun _ => 0) (fun _ _ _ => 0) scatteredFile 0 1 := by
  have hwalk : walkFile (.exactWith fun _ => 0) kibVolume (fun _ => 0) (fun _ _ _ => 0) scatteredFile
      (0 / kibVolume.blockSize) ⟨1, 0 % kibVolume.blockSize, 0,
        List.replicate (requestSize kibVolume 1) .empty⟩ = .error (.send [⟨40, 1, 0, 0⟩]) := rfl
  refine ⟨by decide, ?_⟩
  unfold StaysInArray
  rw [hwalk]
  intro h
  have hsecond : (1 : ℕ) ∈ sendIndices (.exactWith fun _ => 0) (fun _ => 0) 0 [⟨40, 1, 0, 0⟩] := by
    simp [sendIndices, Refused, BlockLayer.exactWith]
  exact absurd (h 1 hsecond) (by decide)

/-- A file of the neighbouring blocks 20 and 21. -/
def neighbourFile : Node :=
  { scatteredFile with
    pointer := fun k => if k = 0 then 20 else if k = 1 then 21 else 0
    pointer_lt := fun k => by split_ifs <;> decide }

/-- The requests of its blocks are merged, which leaves an entry without a sector. -/
theorem staysInArray_neighbours :
    StaysInArray (.exactWith fun _ => 0) kibVolume (fun _ => 0) (fun _ _ _ => 0) neighbourFile 0 2048 := by
  apply (staysInArray_iff kibVolume_sizeOk (by decide)).mpr
  refine ⟨?_, fun _ _ h => ?_⟩
  · intro h
    exact absurd h (by unfold NoRequests; decide)
  · exact absurd (h.apart 0 (by decide)) (not_not_intro rfl)

end VkKernel.Ext2
