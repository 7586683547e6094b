import VkKernel.Ext2Dir

/-!
# Changing ext2 directories

`ext2_create_dirent` writes a record at the first zero inode that its scanner
meets, and `ext2_remove_dirent` moves all bytes behind a record to its place.
Both leave a chain of records only in directories that leave room for it.
-/

namespace VkKernel.Ext2
open ByteMemory PackedStruct IntervalUpdate

/-! ## The functions -/

/-- The record that `ext2_create_dirent` prepares. Behind the name and its zero
byte lies what the stack holds. -/
def towrite (stack : Mem) (inode : ℕ) (name : List UInt8) : Mem :=
  let m := overwrite stack 8 (name.length + 1) (cstring name)
  let m := Dirent.inode.set m inode
  let m := Dirent.nameLen.set m name.length
  let m := Dirent.type.set m 0
  Dirent.size.set m (alignup (8 + name.length % 256) 4)

/-- A call of `ext2_inode_write_content` on the directory: offset, size and data. -/
structure WriteRequest where
  offset : ℕ
  size : ℕ
  data : Mem

/-- The directory after the call. -/
def WriteRequest.apply (w : WriteRequest) (m : Mem) : Mem := overwrite m w.offset w.size w.data

/-- The loop of `ext2_create_dirent`: the offset at which it stops. -/
def createLoop (m : Mem) : ℕ → ℕ → ℕ → Option ℕ
  | 0, _, _ => none
  | fuel + 1, length, offset =>
    if length = 0 then some offset
    else if direntInode m offset = 0 then some offset
    else createLoop m fuel ((length + 2 ^ 64 - stride m offset) % 2 ^ 64)
      (u32 (offset + stride m offset))

/-- `ext2_create_dirent` up to its write, on the result of
`ext2_inode_read_content`. -/
def createDirent (readContent : ErrorT × Mem) (stack : Mem) (inode : ℕ) (name : List UInt8)
    (length : ℕ) : Option (ErrorT × Option WriteRequest) :=
  if readContent.1 ≠ .none then some (readContent.1, none)
  else
    (createLoop readContent.2 (2 ^ 32) length 0).map fun offset =>
      (.none, some ⟨offset, alignup (8 + name.length % 256) 4, towrite stack inode name⟩)

/-- The loop of `ext2_remove_dirent`: nothing if it returns
`ERROR_FILE_NOT_FOUND`, and else the buffer that is written. `memcpy` copies
upwards, and the bytes at the end stay where they are. -/
def removeLoop (m : Mem) (name : List UInt8) : ℕ → ℕ → ℕ → Option (Option Mem)
  | 0, _, _ => none
  | fuel + 1, length, offset =>
    if length = 0 then some (some m)
    else if direntInode m offset = 0 then some none
    else if strcfirst (cstring name) (window m (offset + 8)) (name.length + 1) 0 % 2 ^ 16 =
        name.length then
      some (some (copy m offset (offset + stride m offset)
        (u32 (length + 2 ^ 32 - stride m offset))))
    else removeLoop m name fuel ((length + 2 ^ 64 - stride m offset) % 2 ^ 64)
      (u32 (offset + stride m offset))

/-- `ext2_remove_dirent` up to its write. -/
def removeDirent (readContent : ErrorT × Mem) (name : List UInt8) (length : ℕ) :
    Option (ErrorT × Option WriteRequest) :=
  if readContent.1 ≠ .none then some (readContent.1, none)
  else
    (removeLoop readContent.2 name (2 ^ 32) length 0).map fun r =>
      match r with
      | none => (.fileNotFound, none)
      | some buffer => (.none, some ⟨0, u32 length, buffer⟩)

/-! ## What is expected of them -/

/-- The directory after a new record has been written: its used records are the
old ones and the new one. -/
def AddsEntry (m m' : Mem) (blockSize length : ℕ) (recs : List ℕ) (inode : ℕ) (name : List UInt8) :
    Prop :=
  ∃ recs', IsDirectory m' blockSize length recs' ∧
    (usedEntries m' recs').Perm ((inode, name) :: usedEntries m recs)

/-- The directory after a record has been removed: a used record with exactly
this name is gone. -/
def RemovesEntry (m m' : Mem) (blockSize length : ℕ) (recs : List ℕ) (name : List UInt8) : Prop :=
  ∃ recs', IsDirectory m' blockSize length recs' ∧
    ∃ t ∈ recs, direntInode m t ≠ 0 ∧ direntName m t = name ∧
      (usedEntries m recs).Perm ((direntInode m t, name) :: usedEntries m' recs')

/-- The used records come first and are packed. They are followed by unused ones
up to `b` in the same block, and what a record of `size` bytes leaves of these
is again tiled by unused records. -/
structure CreateFits (m : Mem) (blockSize : ℕ) (recs : List ℕ) (size : ℕ) (us : List ℕ) (p : ℕ)
    (vs after ws : List ℕ) (b : ℕ) : Prop where
  eq : recs = us ++ (p :: vs ++ after)
  used : ∀ o ∈ us, direntInode m o ≠ 0
  packed : Packed m 0 us p
  unused : ∀ o ∈ p :: vs, direntInode m o = 0
  until_b : Chain m p b (p :: vs)
  rest : Chain m (p + size) b ws
  rest_unused : ∀ o ∈ ws, direntInode m o = 0
  block : (b - 1) / blockSize = p / blockSize

/-- The record `t` is packed and comes behind packed used records with other
names. The bytes at the end of the directory, as many as the record has, are
tiled by unused records, and no record behind it is moved across the end of a
block. -/
structure RemoveFits (m : Mem) (blockSize length : ℕ) (recs : List ℕ) (name : List UInt8)
    (us : List ℕ) (t : ℕ) (after ws : List ℕ) : Prop where
  eq : recs = us ++ t :: after
  used : ∀ o ∈ us, direntInode m o ≠ 0 ∧ Differs m length (o + 8) name
  packed : Packed m 0 us t
  target : direntInode m t ≠ 0 ∧ direntName m t = name
  size : stride m t = direntSize m t
  tail : Chain m (length - direntSize m t) length ws
  tail_unused : ∀ o ∈ ws, direntInode m o = 0
  tail_within : ∀ o ∈ ws, (o + direntSize m o - 1) / blockSize = o / blockSize
  moved : ∀ o ∈ after, (o - direntSize m t + direntSize m o - 1) / blockSize =
    (o - direntSize m t) / blockSize

/-- The scanner passes over packed used records with other names and comes to a
zero inode. -/
structure NotFoundFits (m : Mem) (length : ℕ) (recs : List ℕ) (name : List UInt8) (us vs : List ℕ)
    (q : ℕ) : Prop where
  eq : recs = us ++ vs
  used : ∀ o ∈ us, direntInode m o ≠ 0 ∧ Differs m length (o + 8) name
  packed : Packed m 0 us q
  stop : q + 4 ≤ length ∧ direntInode m q = 0

/-! ## Records that are moved -/

section Moves
variable {m m' : Mem} {length blockSize : ℕ} {name : List UInt8}

/-- The same bytes at another place. -/
structure SameRecord (m m' : Mem) (p p' : ℕ) : Prop where
  inode : direntInode m' p' = direntInode m p
  size : direntSize m' p' = direntSize m p
  name : direntInode m p ≠ 0 → direntName m' p' = direntName m p
  ok : RecordOk m' p'

theorem RecordOk.same {p p' : ℕ} (hok : RecordOk m p)
    (h : ∀ i < direntSize m p, m' (p' + i) = m (p + i)) : SameRecord m m' p p' := by
  have h8 := hok.header
  have hget : ∀ f : Field, f.offset + f.width ≤ 8 → f.get (window m' p') = f.get (window m p) := by
    intro f hf
    apply Field.get_congr
    intro i _ hi
    exact h i (by omega)
  have hi : direntInode m' p' = direntInode m p := hget _ (by decide)
  have hs : direntSize m' p' = direntSize m p := hget _ (by decide)
  have hl : direntNameLen m' p' = direntNameLen m p := hget _ (by decide)
  have hn : direntInode m p ≠ 0 → direntName m' p' = direntName m p := by
    intro hu
    have hle := hok.name hu
    unfold direntName
    rw [hl]
    apply List.map_congr_left
    intro i hi'
    rw [List.mem_range] at hi'
    rw [Nat.add_assoc, Nat.add_assoc]
    exact h _ (by omega)
  refine ⟨hi, hs, hn, ?_, ?_, ?_, ?_⟩
  · rw [hs]
    exact h8
  · rw [hi, hl, hs]
    exact hok.name
  · rw [hi, hl]
    exact hok.name_pos
  · intro hu
    rw [hi] at hu
    rw [hn hu]
    exact hok.name_ne hu

theorem usedEntries_cons_used {o : ℕ} (os : List ℕ) (h : direntInode m o ≠ 0) :
    usedEntries m (o :: os) = (direntInode m o, direntName m o) :: usedEntries m os := by
  unfold usedEntries
  rw [List.filter_cons, if_pos (decide_eq_true h), List.map_cons]

theorem usedEntries_cons_unused {o : ℕ} (os : List ℕ) (h : direntInode m o = 0) :
    usedEntries m (o :: os) = usedEntries m os := by
  unfold usedEntries
  rw [List.filter_cons, if_neg (fun hd => absurd h (of_decide_eq_true hd))]

/-- A chain is moved down by `k` bytes. -/
theorem Chain.move {k a b : ℕ} {os : List ℕ} (h : Chain m a b os) (hk : k ≤ a)
    (hm : ∀ x, a ≤ x → x < b → m' (x - k) = m x) :
    Chain m' (a - k) (b - k) (os.map (· - k)) ∧
      usedEntries m' (os.map (· - k)) = usedEntries m os ∧
      ∀ o ∈ os, direntSize m' (o - k) = direntSize m o ∧
        direntInode m' (o - k) = direntInode m o := by
  induction os generalizing a with
  | nil =>
    have hab : a = b := h
    exact ⟨by rw [hab]; rfl, rfl, fun o ho => absurd ho List.not_mem_nil⟩
  | cons o os ih =>
    obtain ⟨rfl, hok, hrest⟩ := h
    have hle := hrest.le
    have hsame : SameRecord m m' o (o - k) := by
      apply hok.same
      intro i hi
      rw [← hm (o + i) (by omega) (by omega)]
      congr 1
      omega
    obtain ⟨h1, h2, h3⟩ := ih hrest (by omega) fun x hx hx' => hm x (by omega) hx'
    refine ⟨⟨rfl, hsame.ok, ?_⟩, ?_, fun x hx => ?_⟩
    · rw [hsame.size, show o - k + direntSize m o = o + direntSize m o - k by omega]
      exact h1
    · rw [List.map_cons]
      by_cases hu : direntInode m o = 0
      · have hu' : direntInode m' (o - k) = 0 := hsame.inode.trans hu
        rw [usedEntries_cons_unused _ hu', usedEntries_cons_unused _ hu, h2]
      · have hu' : direntInode m' (o - k) ≠ 0 := by
          rw [hsame.inode]
          exact hu
        rw [usedEntries_cons_used _ hu', usedEntries_cons_used _ hu, h2, hsame.inode, hsame.name hu]
    · rcases List.mem_cons.mp hx with rfl | hx'
      · exact ⟨hsame.size, hsame.inode⟩
      · exact h3 x hx'

/-- A chain whose bytes are kept. -/
theorem Chain.keep {a b : ℕ} {os : List ℕ} (h : Chain m a b os)
    (hm : ∀ x, a ≤ x → x < b → m' x = m x) :
    Chain m' a b os ∧ usedEntries m' os = usedEntries m os ∧
      ∀ o ∈ os, direntSize m' o = direntSize m o ∧ direntInode m' o = direntInode m o := by
  have := h.move (Nat.zero_le a) hm
  simpa using this

theorem usedEntries_append (m : Mem) (os os' : List ℕ) :
    usedEntries m (os ++ os') = usedEntries m os ++ usedEntries m os' := by
  unfold usedEntries
  rw [List.filter_append, List.map_append]

theorem usedEntries_unused {os : List ℕ} (h : ∀ o ∈ os, direntInode m o = 0) :
    usedEntries m os = [] := by
  induction os with
  | nil => rfl
  | cons o os ih =>
    rw [usedEntries_cons_unused _ (h o (List.mem_cons_self ..))]
    exact ih fun x hx => h x (List.mem_cons_of_mem _ hx)

theorem Chain.mem_bounds {a b : ℕ} {os : List ℕ} (h : Chain m a b os) :
    ∀ o ∈ os, a ≤ o ∧ RecordOk m o ∧ o + direntSize m o ≤ b := by
  induction os generalizing a with
  | nil => exact fun o ho => absurd ho List.not_mem_nil
  | cons o os ih =>
    obtain ⟨rfl, hok, hrest⟩ := h
    intro x hx
    rcases List.mem_cons.mp hx with rfl | hx'
    · exact ⟨le_rfl, hok, hrest.le⟩
    · obtain ⟨h1, h2, h3⟩ := ih hrest x hx'
      exact ⟨by omega, h2, h3⟩

/-- The end of a chain follows from its records. -/
theorem Chain.end_unique {a b b' : ℕ} {os : List ℕ} (h : Chain m a b os) (h' : Chain m a b' os) :
    b = b' := by
  induction os generalizing a with
  | nil => exact (show _ = _ from h).symm.trans h'
  | cons o os ih => exact ih h.2.2 h'.2.2

/-- The records of a chain follow from where it starts. -/
theorem Chain.resume {a b c : ℕ} {os os' : List ℕ} (h : Chain m a c os) (h' : Chain m a b os')
    (hcb : c ≤ b) : ∃ rest, os' = os ++ rest ∧ Chain m c b rest := by
  induction os generalizing a os' with
  | nil =>
    have hac : a = c := h
    exact ⟨os', rfl, hac ▸ h'⟩
  | cons o os ih =>
    obtain ⟨rfl, hok, hrest⟩ := h
    have h8 := hok.header
    have hle := hrest.le
    cases os' with
    | nil =>
      have hab : o = b := h'
      omega
    | cons o' os' =>
      obtain ⟨rfl, -, hrest'⟩ := h'
      obtain ⟨rest, rfl, hr⟩ := ih hrest hrest'
      exact ⟨rest, rfl, hr⟩

theorem Chain.eq_nil {a : ℕ} {os : List ℕ} (h : Chain m a a os) : os = [] := by
  cases os with
  | nil => rfl
  | cons o os =>
    obtain ⟨-, hok, hle⟩ := h.record
    have := hok.header
    omega

theorem Packed.le {a q : ℕ} {us : List ℕ} (h : Packed m a us q) : a ≤ q := by
  induction us generalizing a with
  | nil => exact le_of_eq h
  | cons u us ih => exact le_trans (Nat.le_add_right _ _) (ih h.2)

/-- Packed records in a chain end where the next record begins. -/
theorem Packed.chain {a b o : ℕ} {us os : List ℕ} (hp : Packed m a us o)
    (hc : Chain m a b (us ++ o :: os)) : Chain m a o us := by
  induction us generalizing a with
  | nil => exact hp
  | cons u us ih =>
    obtain ⟨rfl, hok, hrest⟩ := hc
    obtain ⟨-, hp'⟩ := hp
    refine ⟨rfl, hok, ?_⟩
    have hnext : u + stride m u = u + direntSize m u := by
      cases us with
      | nil => exact hp'.trans hrest.1
      | cons u' us => exact hp'.1.symm.trans hrest.1
    rw [hnext] at hp'
    exact ih hp' hrest

/-! ## A new record -/

/-- The bytes of the new record in the directory. -/
theorem record_towrite (stack : Mem) {inode p : ℕ} (hi : inode < 2 ^ 32)
    (hlen : name.length < 256) (hpos : 1 ≤ name.length) (hn : ∀ c ∈ name, c ≠ 0)
    (h : ∀ i < alignup (8 + name.length % 256) 4, m' (p + i) = towrite stack inode name i) :
    direntInode m' p = inode ∧ direntSize m' p = alignup (8 + name.length % 256) 4 ∧
      direntName m' p = name ∧ RecordOk m' p := by
  have hs : alignup (8 + name.length % 256) 4 = 8 + (name.length + 3) / 4 * 4 := by
    rw [Nat.mod_eq_of_lt hlen, alignup_eq (by decide) (by omega)]
    omega
  have hget : ∀ f : Field, f.offset + f.width ≤ 8 →
      f.get (window m' p) = f.get (towrite stack inode name) := by
    intro f hf
    apply Field.get_congr
    intro i _ hi
    exact h i (by omega)
  have hinode : direntInode m' p = inode := by
    unfold direntInode
    rw [hget _ (by decide)]
    unfold towrite
    rw [Field.get_set_of_apart (by decide), Field.get_set_of_apart (by decide),
      Field.get_set_of_apart (by decide), Field.get_set]
    exact Nat.mod_eq_of_lt hi
  have hsize : direntSize m' p = alignup (8 + name.length % 256) 4 := by
    unfold direntSize
    rw [hget _ (by decide)]
    unfold towrite
    rw [Field.get_set]
    exact Nat.mod_eq_of_lt (by rw [hs]; change _ < 65536; omega)
  have hnl : direntNameLen m' p = name.length := by
    unfold direntNameLen
    rw [hget _ (by decide)]
    unfold towrite
    rw [Field.get_set_of_apart (by decide), Field.get_set_of_apart (by decide), Field.get_set]
    exact Nat.mod_eq_of_lt hlen
  have hname : direntName m' p = name := by
    unfold direntName
    rw [hnl]
    apply List.ext_getElem
    · rw [List.length_map, List.length_range]
    · intro i h1 h2
      rw [List.getElem_map, List.getElem_range, Nat.add_assoc, h _ (by omega)]
      have hfield : ∀ f : Field, f.offset + f.width ≤ 8 → ∀ (m : Mem) (v : ℕ),
          f.set m v (8 + i) = m (8 + i) := fun f hf m v => Field.set_of_notMem (by omega)
      unfold towrite
      rw [hfield _ (by decide), hfield _ (by decide), hfield _ (by decide), hfield _ (by decide),
        overwrite_of_mem (by omega) (by omega), Nat.add_sub_cancel_left]
      exact List.getD_eq_getElem _ _ h2
  refine ⟨hinode, hsize, hname, ?_, ?_, ?_, ?_⟩
  · rw [hsize, hs]
    omega
  · intro _
    rw [hsize, hnl, hs]
    omega
  · intro _
    rw [hnl]
    exact hpos
  · intro _
    rw [hname]
    exact hn

/-- The scanner of `ext2_create_dirent` on packed used records. -/
theorem createLoop_eq {us : List ℕ} {fuel a p : ℕ} (hchain : Chain m a p us)
    (hused : ∀ o ∈ us, direntInode m o ≠ 0) (hp : Packed m a us p) (hle : p ≤ length)
    (hz : direntInode m p = 0) (hfuel : p < a + fuel) (hlen : length < 2 ^ 32) :
    createLoop m fuel (length - a) a = some p := by
  induction us generalizing fuel a with
  | nil =>
    have hap : a = p := hp
    subst hap
    cases fuel with
    | zero => omega
    | succ fuel =>
      rw [createLoop]
      split_ifs
      · rfl
      · rfl
  | cons o us ih =>
    obtain ⟨rfl, hok, hrest⟩ := hchain
    obtain ⟨-, hp'⟩ := hp
    have hle' := hrest.le
    have h8 := hok.header
    have hnext : o + stride m o = o + direntSize m o := by
      cases us with
      | nil => exact hp'.trans (show _ = _ from hrest).symm
      | cons u' us => exact hp'.1.symm.trans hrest.1
    cases fuel with
    | zero => omega
    | succ fuel =>
      have hsub : (length - o + 2 ^ 64 - stride m o) % 2 ^ 64 = length - (o + stride m o) := by
        omega
      rw [createLoop, if_neg (by omega), if_neg (hused o (List.mem_cons_self ..)), hsub,
        u32_of_lt (by omega)]
      rw [hnext] at hp' ⊢
      exact ih hrest (fun x hx => hused x (List.mem_cons_of_mem _ hx)) hp' (by omega)

/-- A new record in a directory that has room for it. -/
theorem createDirent_fits (stack : Mem) {recs us vs after ws : List ℕ} {inode p b : ℕ}
    (hdir : IsDirectory m blockSize length recs) (hlen : length < 2 ^ 32) (hi : inode ≠ 0)
    (hi' : inode < 2 ^ 32) (hname : name.length < 256) (hpos : 1 ≤ name.length)
    (hn : ∀ c ∈ name, c ≠ 0)
    (h : CreateFits m blockSize recs (alignup (8 + name.length % 256) 4) us p vs after ws b) :
    ∃ w, createDirent (.none, m) stack inode name length = some (.none, some w) ∧
      AddsEntry m (w.apply m) blockSize length recs inode name := by
  have hchain := hdir.chain
  rw [h.eq] at hchain
  have hus : Chain m 0 p us := h.packed.chain hchain
  obtain ⟨c, -, hrest⟩ := Chain.append_iff.mp hchain
  obtain ⟨rfl, -, -⟩ := Chain.record hrest
  obtain ⟨b', hvs, hafter⟩ := Chain.append_iff.mp hrest
  have hb : b' = b := hvs.end_unique h.until_b
  subst hb
  have hbl := hafter.le
  have hpb' := h.rest.le
  have hs : alignup (8 + name.length % 256) 4 = 8 + (name.length + 3) / 4 * 4 := by
    rw [Nat.mod_eq_of_lt hname, alignup_eq (by decide) (by omega)]
    omega
  have hloop := createLoop_eq hus h.used h.packed (show p ≤ length by omega)
    (h.unused p (List.mem_cons_self ..)) (show p < 0 + 2 ^ 32 by omega) hlen
  rw [Nat.sub_zero] at hloop
  refine ⟨_, by
    unfold createDirent
    rw [if_neg (not_not_intro rfl)]
    dsimp only
    rw [hloop, Option.map_some], ?_⟩
  generalize hm : WriteRequest.apply _ m = m'
  unfold WriteRequest.apply at hm
  dsimp only at hm
  -- the bytes before and behind the new record
  have hout : ∀ x, x < p ∨ p + alignup (8 + name.length % 256) 4 ≤ x → m' x = m x := fun x hx => by
    rw [← hm, overwrite_of_notMem hx]
  obtain ⟨hino, hsz, hnm, hok⟩ := record_towrite stack hi' hname hpos hn
    (show ∀ i < alignup (8 + name.length % 256) 4, m' (p + i) = _ from fun i hi => by
      rw [← hm, overwrite_of_mem (by omega) (by omega), Nat.add_sub_cancel_left])
  obtain ⟨c1, u1, s1⟩ := hus.keep fun x _ hx => hout x (Or.inl hx)
  obtain ⟨c2, u2, s2⟩ := h.rest.keep fun x hx _ => hout x (Or.inr hx)
  obtain ⟨c3, u3, s3⟩ := hafter.keep fun x hx _ => hout x (Or.inr (by omega))
  refine ⟨us ++ (p :: ws ++ after), ⟨?_, hdir.blocks, ?_⟩, ?_⟩
  · rw [Chain.append_iff]
    refine ⟨p, c1, rfl, hok, ?_⟩
    rw [hsz]
    exact Chain.append_iff.mpr ⟨b', c2, c3⟩
  · intro o ho
    have hwithin := hdir.within
    rw [h.eq] at hwithin
    rcases List.mem_append.mp ho with ho | ho
    · rw [(s1 o ho).1]
      exact hwithin o (by simp [ho])
    · rcases List.mem_append.mp ho with ho | ho
      · -- the new record and the ones that it leaves lie in one block
        have hbounds : p ≤ o ∧ 8 ≤ direntSize m' o ∧ o + direntSize m' o ≤ b' := by
          rcases List.mem_cons.mp ho with rfl | ho
          · exact ⟨le_rfl, hok.header, by omega⟩
          · obtain ⟨g1, g2, g3⟩ := c2.mem_bounds o ho
            exact ⟨by omega, g2.header, g3⟩
        have h1 : p / blockSize ≤ o / blockSize := Nat.div_le_div_right hbounds.1
        have h2 : o / blockSize ≤ (o + direntSize m' o - 1) / blockSize :=
          Nat.div_le_div_right (by omega)
        have h3 : (o + direntSize m' o - 1) / blockSize ≤ (b' - 1) / blockSize :=
          Nat.div_le_div_right (by omega)
        have := h.block
        omega
      · rw [(s3 o ho).1]
        exact hwithin o (by simp [ho])
  · have hold : usedEntries m recs = usedEntries m us ++ usedEntries m after := by
      rw [h.eq, usedEntries_append, usedEntries_append, usedEntries_unused h.unused, List.nil_append]
    have hws : usedEntries m' ws = [] := usedEntries_unused fun o ho => by
      rw [(s2 o ho).2]
      exact h.rest_unused o ho
    rw [hold, usedEntries_append, usedEntries_append, u1,
      usedEntries_cons_used ws (by rw [hino]; exact hi), hws, u3, hino, hnm]
    exact List.perm_middle

/-! ## A record that is removed -/

/-- `ext2_remove_dirent` compares the strings the other way round, with the same
result. -/
theorem strcfirst_comm (str0 str1 : Mem) (fuel tr : ℕ) :
    strcfirst str0 str1 fuel tr = strcfirst str1 str0 fuel tr := by
  induction fuel generalizing tr with
  | zero => rfl
  | succ fuel ih =>
    have hiff : (str0 tr ≠ 0 ∧ str0 tr = str1 tr) ↔ (str1 tr ≠ 0 ∧ str1 tr = str0 tr) :=
      ⟨fun ⟨h1, h2⟩ => ⟨h2 ▸ h1, h2.symm⟩, fun ⟨h1, h2⟩ => ⟨h2 ▸ h1, h2.symm⟩⟩
    rw [strcfirst, strcfirst, ih]
    simp only [hiff]

/-- The loop of `ext2_remove_dirent` with the test of the other scanners. -/
theorem removeLoop_succ (m : Mem) (name : List UInt8) (fuel length offset : ℕ) :
    removeLoop m name (fuel + 1) length offset =
      if length = 0 then some (some m)
      else if direntInode m offset = 0 then some none
      else if firstOf m (offset + 8) name then
        some (some (copy m offset (offset + stride m offset)
          (u32 (length + 2 ^ 32 - stride m offset))))
      else removeLoop m name fuel ((length + 2 ^ 64 - stride m offset) % 2 ^ 64)
        (u32 (offset + stride m offset)) := by
  rw [removeLoop, strcfirst_comm]
  rfl

/-- The scanner passes over packed used records with other names. -/
theorem removeLoop_walk (hn : ∀ c ∈ name, c ≠ 0) {us vs : List ℕ} {fuel a b p : ℕ}
    (hchain : Chain m a b (us ++ vs))
    (hused : ∀ o ∈ us, direntInode m o ≠ 0 ∧ Differs m length (o + 8) name)
    (hp : Packed m a us p) (hle : p ≤ length) (hfuel : length < a + fuel) (hlen : length < 2 ^ 32) :
    ∃ fuel', length < p + fuel' ∧
      removeLoop m name fuel (length - a) a = removeLoop m name fuel' (length - p) p := by
  induction us generalizing fuel a with
  | nil =>
    have hap : a = p := hp
    exact ⟨fuel, hap ▸ hfuel, by rw [hap]⟩
  | cons o us ih =>
    obtain ⟨rfl, hok, hrest⟩ := hchain
    obtain ⟨-, hp'⟩ := hp
    have hs := stride_eq m o
    obtain ⟨hu, hd⟩ := hused o (List.mem_cons_self ..)
    have hle' : o + stride m o ≤ p := hp'.le
    cases fuel with
    | zero => omega
    | succ fuel =>
      have hsub : (length - o + 2 ^ 64 - stride m o) % 2 ^ 64 = length - (o + stride m o) := by
        omega
      rw [removeLoop_succ, if_neg (by omega), if_neg hu, if_neg (hd.not_firstOf hn), hsub,
        u32_of_lt (by omega)]
      cases us with
      | nil =>
        have hp'' : o + stride m o = p := hp'
        exact ⟨fuel, by omega, by rw [hp'']⟩
      | cons u' us =>
        have hnext : o + stride m o = o + direntSize m o := hp'.1.symm.trans hrest.1
        rw [hnext] at hp' ⊢
        exact ih hrest (fun x hx => hused x (List.mem_cons_of_mem _ hx)) hp' (by omega)

/-- A record is removed from a directory with unused records at its end. -/
theorem removeDirent_fits {recs us after ws : List ℕ} {t : ℕ}
    (hdir : IsDirectory m blockSize length recs) (hlen : length < 2 ^ 32)
    (hn : ∀ c ∈ name, c ≠ 0) (h : RemoveFits m blockSize length recs name us t after ws) :
    ∃ w, removeDirent (.none, m) name length = some (.none, some w) ∧
      RemovesEntry m (w.apply m) blockSize length recs name := by
  have hchain := hdir.chain
  rw [h.eq] at hchain
  have hus : Chain m 0 t us := h.packed.chain hchain
  obtain ⟨c, -, hrest⟩ := Chain.append_iff.mp hchain
  obtain ⟨rfl, hok, hafter⟩ := hrest
  have hend := hafter.le
  have h8 := hok.header
  have hsize := h.size
  obtain ⟨hu, hname⟩ := h.target
  obtain ⟨fuel, hf, hpass⟩ := removeLoop_walk hn hchain h.used h.packed (show t ≤ length by omega)
    (show length < 0 + 2 ^ 32 by omega) hlen
  have hloop : removeLoop m name (2 ^ 32) length 0 =
      some (some (copy m t (t + direntSize m t) (length - t - direntSize m t))) := by
    rw [Nat.sub_zero] at hpass
    rw [hpass]
    cases fuel with
    | zero => omega
    | succ fuel =>
      have hcount : u32 (length - t + 2 ^ 32 - direntSize m t) = length - t - direntSize m t := by
        unfold u32
        omega
      rw [removeLoop_succ, if_neg (by omega), if_neg hu, if_pos (firstOf_direntName hn hname), hsize,
        hcount]
  refine ⟨_, by
    unfold removeDirent
    rw [if_neg (not_not_intro rfl)]
    dsimp only
    rw [hloop, Option.map_some], ?_⟩
  generalize hm : WriteRequest.apply _ m = m'
  unfold WriteRequest.apply at hm
  dsimp only at hm
  -- the bytes behind the record come down, those at the end stay
  have hkeep : ∀ x, x < t ∨ length - direntSize m t ≤ x → m' x = m x := by
    intro x hx
    rw [← hm, u32_of_lt hlen]
    by_cases hxl : x < length
    · rw [overwrite_of_mem (by omega) (by omega), Nat.sub_zero, copy_apply_of_lt (by omega)]
    · rw [overwrite_of_notMem (by omega)]
  have hmove : ∀ x, t + direntSize m t ≤ x → x < length → m' (x - direntSize m t) = m x := by
    intro x hx hx'
    rw [← hm, u32_of_lt hlen, overwrite_of_mem (by omega) (by omega), Nat.sub_zero,
      show x - direntSize m t = t + (x - direntSize m t - t) by omega, copy_apply_of_mem (by omega)]
    congr 1
    omega
  obtain ⟨c1, u1, s1⟩ := hus.keep fun x _ hx => hkeep x (Or.inl hx)
  obtain ⟨c2, u2, s2⟩ := hafter.move (by omega) hmove
  obtain ⟨c3, -, s3⟩ := h.tail.keep fun x hx _ => hkeep x (Or.inr hx)
  rw [Nat.add_sub_cancel] at c2
  have hwithin := hdir.within
  rw [h.eq] at hwithin
  refine ⟨us ++ (after.map (· - direntSize m t) ++ ws), ⟨?_, hdir.blocks, ?_⟩, t,
    by rw [h.eq]; simp, hu, hname, ?_⟩
  · exact Chain.append_iff.mpr ⟨t, c1, Chain.append_iff.mpr ⟨_, c2, c3⟩⟩
  · intro o ho
    rcases List.mem_append.mp ho with ho | ho
    · rw [(s1 o ho).1]
      exact hwithin o (by simp [ho])
    · rcases List.mem_append.mp ho with ho | ho
      · obtain ⟨o', ho', rfl⟩ := List.mem_map.mp ho
        rw [(s2 o' ho').1]
        exact h.moved o' ho'
      · rw [(s3 o ho).1]
        exact h.tail_within o ho
  · have hws : usedEntries m' ws = [] := usedEntries_unused fun o ho => by
      rw [(s3 o ho).2]
      exact h.tail_unused o ho
    rw [h.eq, usedEntries_append, usedEntries_append, usedEntries_append, u1, u2, hws,
      List.append_nil, usedEntries_cons_used after hu, hname]
    exact List.perm_middle

/-- A name that is not there is not found, and nothing is written. -/
theorem removeDirent_not_found {recs us vs : List ℕ} {q : ℕ}
    (hdir : IsDirectory m blockSize length recs) (hlen : length < 2 ^ 32)
    (hn : ∀ c ∈ name, c ≠ 0) (h : NotFoundFits m length recs name us vs q) :
    removeDirent (.none, m) name length = some (.fileNotFound, none) := by
  have hchain := hdir.chain
  rw [h.eq] at hchain
  obtain ⟨hq, hz⟩ := h.stop
  obtain ⟨fuel, hf, hpass⟩ := removeLoop_walk hn hchain h.used h.packed (show q ≤ length by omega)
    (show length < 0 + 2 ^ 32 by omega) hlen
  have hloop : removeLoop m name (2 ^ 32) length 0 = some none := by
    rw [Nat.sub_zero] at hpass
    rw [hpass]
    cases fuel with
    | zero => omega
    | succ fuel => rw [removeLoop_succ, if_neg (by omega), if_pos hz]
  unfold removeDirent
  rw [if_neg (not_not_intro rfl)]
  dsimp only
  rw [hloop, Option.map_some]

end Moves

/-- The files `.` and `a`, then three unused records, the last one of 12 bytes. -/
def roomDirectory : Mem := storeLE (cstring
  [2, 0, 0, 0, 12, 0, 1, 0, 46, 0, 0, 0,
    11, 0, 0, 0, 12, 0, 1, 0, 97, 0, 0, 0,
    0, 0, 0, 0, 12, 0, 0, 0, 0, 0, 0, 0,
    0, 0, 0, 0, 0xD0, 3]) 1016 2 12

theorem roomDirectory_isDirectory : IsDirectory roomDirectory 1024 1024 [0, 12, 24, 36, 1012] where
  chain := by decide +kernel
  blocks := by decide
  within := by decide +kernel

end VkKernel.Ext2
