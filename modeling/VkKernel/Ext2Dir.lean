import VkKernel.Ext2
import VkKernel.Strings

/-!
# Reading ext2 directories

A directory is a chain of records linked by their size field. The scanners of
`ext2_list_dir` and `ext2_open` step from one record to the next by the length
of its name instead, so they see the records as long as these are packed.
-/

namespace VkKernel.Ext2
open ByteMemory PackedStruct IntervalUpdate

/-! ## The scanners -/

namespace Dirent

def inode : Field := ⟨0, 4⟩
def size : Field := ⟨4, 2⟩
def nameLen : Field := ⟨6, 1⟩
def type : Field := ⟨7, 1⟩

end Dirent

section Records
variable (m : Mem) (p : ℕ)

def direntInode : ℕ := Dirent.inode.get (window m p)

def direntSize : ℕ := Dirent.size.get (window m p)

def direntNameLen : ℕ := Dirent.nameLen.get (window m p)

def direntName : List UInt8 := (List.range (direntNameLen m p)).map fun i => m (p + 8 + i)

/-- How far the scanners step from a record: `8+name_len_real`. -/
def stride : ℕ := 8 + alignup (direntNameLen m p) 4

end Records

/-- The loop of `ext2_list_dir` over the buffer `m`. A name is what `strncpy`
copies, up to a zero byte. -/
def listLoop (m : Mem) : ℕ → ℕ → ℕ → List (ℕ × List UInt8)
  | 0, _, _ => []
  | fuel + 1, length, offset =>
    if length = 0 then []
    else if direntInode m offset = 0 then []
    else
      (direntInode m offset, (direntName m offset).takeWhile (· ≠ 0)) ::
        if length ≤ stride m offset then []
        else listLoop m fuel (length - stride m offset) (u32 (offset + stride m offset))

/-- `ext2_list_dir` on the result of `ext2_inode_read_content`. -/
def listDir (readContent : ErrorT × Mem) (length : ℕ) : ErrorT × List (ℕ × List UInt8) × ℕ :=
  if readContent.1 ≠ .none then (readContent.1, [], 0)
  else
    let entries := listLoop readContent.2 (length + 1) length 0
    (.none, entries, u32 entries.length)

/-- `strcfirst((char*) dirent->name, name) == name_len`, with the 16-bit result. -/
def firstOf (m : Mem) (p : ℕ) (name : List UInt8) : Prop :=
  strcfirst (window m p) (cstring name) (name.length + 1) 0 % 2 ^ 16 = name.length

instance (m : Mem) (p : ℕ) (name : List UInt8) : Decidable (firstOf m p name) :=
  inferInstanceAs (Decidable (_ = _))

/-- The loop of `ext2_open`, up to the inode that it opens. -/
def openLoop (m : Mem) (name : List UInt8) : ℕ → ℕ → ℕ → Option ℕ
  | 0, _, _ => none
  | fuel + 1, length, offset =>
    if length = 0 then none
    else if direntInode m offset ≠ 0 ∧ firstOf m (offset + 8) name then some (direntInode m offset)
    else if length < stride m offset then none
    else openLoop m name fuel (length - stride m offset) (u32 (offset + stride m offset))

/-- `ext2_open` on the results of its at most three calls of
`ext2_inode_read_content`: the inode that it opens. -/
def openDirent (readContent : ℕ → ErrorT × Mem) (length : ℕ) (name : List UInt8) : Option ℕ :=
  let r := readContent 0
  let r := if r.1 ≠ .none then readContent 1 else r
  let r := if r.1 ≠ .none then readContent 2 else r
  if r.1 ≠ .none then none else openLoop r.2 name (length + 1) length 0

/-! ## The format -/

/-- A record holds its name, and the name of a used one is a string. -/
structure RecordOk (m : Mem) (p : ℕ) : Prop where
  header : 8 ≤ direntSize m p
  name : direntInode m p ≠ 0 → 8 + direntNameLen m p ≤ direntSize m p
  name_pos : direntInode m p ≠ 0 → 1 ≤ direntNameLen m p
  name_ne : direntInode m p ≠ 0 → ∀ c ∈ direntName m p, c ≠ 0

instance (m : Mem) (p : ℕ) : Decidable (RecordOk m p) :=
  decidable_of_iff (8 ≤ direntSize m p ∧
    (direntInode m p ≠ 0 → 8 + direntNameLen m p ≤ direntSize m p) ∧
    (direntInode m p ≠ 0 → 1 ≤ direntNameLen m p) ∧
    (direntInode m p ≠ 0 → ∀ c ∈ direntName m p, c ≠ 0))
    ⟨fun ⟨h1, h2, h3, h4⟩ => ⟨h1, h2, h3, h4⟩, fun ⟨h1, h2, h3, h4⟩ => ⟨h1, h2, h3, h4⟩⟩

/-- The records from `a` to `b`, each at the end of the one before it. -/
def Chain (m : Mem) : ℕ → ℕ → List ℕ → Prop
  | a, b, [] => a = b
  | a, b, o :: os => o = a ∧ RecordOk m a ∧ Chain m (a + direntSize m a) b os

instance decidableChain (m : Mem) : ∀ (a b : ℕ) (os : List ℕ), Decidable (Chain m a b os)
  | a, b, [] => inferInstanceAs (Decidable (a = b))
  | a, b, o :: os =>
    have := decidableChain m (a + direntSize m a) b os
    inferInstanceAs (Decidable (o = a ∧ RecordOk m a ∧ Chain m (a + direntSize m a) b os))

/-- A directory of `length` bytes with the records at `recs`: its blocks are tiled
by them. -/
structure IsDirectory (m : Mem) (blockSize length : ℕ) (recs : List ℕ) : Prop where
  chain : Chain m 0 length recs
  blocks : length % blockSize = 0
  within : ∀ o ∈ recs, (o + direntSize m o - 1) / blockSize = o / blockSize

/-- The pairs of inode and name of the used records. -/
def usedEntries (m : Mem) (recs : List ℕ) : List (ℕ × List UInt8) :=
  (recs.filter fun o => direntInode m o ≠ 0).map fun o => (direntInode m o, direntName m o)

/-! ## What the scanners see -/

/-- The records follow each other in steps of the scanners, from `a` to `q`. -/
def Packed (m : Mem) : ℕ → List ℕ → ℕ → Prop
  | a, [], q => a = q
  | a, o :: os, q => o = a ∧ Packed m (a + stride m a) os q

/-- The used records come first and are packed, and behind them the directory
ends or four bytes are zero. -/
structure ListPacked (m : Mem) (length : ℕ) (recs us vs : List ℕ) (q : ℕ) : Prop where
  eq : recs = us ++ vs
  used : ∀ o ∈ us, direntInode m o ≠ 0
  unused : ∀ o ∈ vs, direntInode m o = 0
  packed : Packed m 0 us q
  stop : length ≤ q ∨ q + 4 ≤ length ∧ direntInode m q = 0

/-- Within the directory the bytes at `p` differ from the name. -/
def Differs (m : Mem) (length p : ℕ) (name : List UInt8) : Prop :=
  ∃ i < name.length, p + i < length ∧ m (p + i) ≠ cstring name i

/-- The scanner passes over the record at `a`: it is unused or has another name,
and it is packed up to zero bytes. -/
structure Passes (m : Mem) (length : ℕ) (name : List UInt8) (a : ℕ) : Prop where
  differs : direntInode m a ≠ 0 → Differs m length (a + 8) name
  stride_le : stride m a ≤ direntSize m a
  zero : ∀ x, a + stride m a ≤ x → x < a + direntSize m a → m x = 0

/-- The scanner passes over the records from `a` to `b`, whose zero bytes are
taken for empty records of 8 bytes. -/
def PassesAll (m : Mem) (length : ℕ) (name : List UInt8) : ℕ → List ℕ → ℕ → Prop
  | a, [], b => a = b
  | a, o :: os, b => o = a ∧ Passes m length name a ∧
      (direntSize m a - stride m a) % 8 = 0 ∧ PassesAll m length name (a + direntSize m a) os b

/-- The scanner reaches the used record with the name, or passes over all records
if there is none. -/
def OpenPacked (m : Mem) (length : ℕ) (recs : List ℕ) (name : List UInt8) : Prop :=
  (∃ before t after, recs = before ++ t :: after ∧ direntInode m t ≠ 0 ∧ direntName m t = name ∧
    PassesAll m length name 0 before t) ∨
  (recs = [] ∨ ∃ before t, recs = before ++ [t] ∧ PassesAll m length name 0 before t ∧
    Passes m length name t ∧ (direntSize m t - stride m t) % 4 = 0)

/-- The result for a name: the inode of the used record with exactly this name,
or nothing if there is none. -/
def OpensExactly (m : Mem) (recs : List ℕ) (name : List UInt8) (r : Option ℕ) : Prop :=
  (∃ t ∈ recs, direntInode m t ≠ 0 ∧ direntName m t = name ∧ r = some (direntInode m t)) ∨
    (∀ t ∈ recs, direntInode m t ≠ 0 → direntName m t ≠ name) ∧ r = none

section Scan
variable {m : Mem} {length : ℕ} {name : List UInt8}

theorem direntNameLen_lt (m : Mem) (p : ℕ) : direntNameLen m p < 256 := Field.get_lt _ _

/-- A step is the length of the name, rounded up. -/
theorem stride_eq (m : Mem) (p : ℕ) : stride m p = 8 + (direntNameLen m p + 3) / 4 * 4 := by
  have hlt := direntNameLen_lt m p
  unfold stride
  rw [alignup_eq (by decide) (by omega)]
  omega

theorem Chain.le {a b : ℕ} {os : List ℕ} (h : Chain m a b os) : a ≤ b := by
  induction os generalizing a with
  | nil => exact le_of_eq h
  | cons o os ih =>
    obtain ⟨-, -, hrest⟩ := h
    exact le_trans (Nat.le_add_right _ _) (ih hrest)

theorem Chain.append_iff {a b : ℕ} {os os' : List ℕ} :
    Chain m a b (os ++ os') ↔ ∃ c, Chain m a c os ∧ Chain m c b os' := by
  induction os generalizing a with
  | nil => exact ⟨fun h => ⟨a, rfl, h⟩, fun ⟨c, hac, h⟩ => hac ▸ h⟩
  | cons o os ih =>
    rw [List.cons_append, Chain, ih]
    constructor
    · rintro ⟨ho, hok, c, h1, h2⟩
      exact ⟨c, ⟨ho, hok, h1⟩, h2⟩
    · rintro ⟨c, ⟨ho, hok, h1⟩, h2⟩
      exact ⟨ho, hok, c, h1, h2⟩

theorem Chain.record {a b o : ℕ} {os : List ℕ} (h : Chain m a b (o :: os)) :
    o = a ∧ RecordOk m a ∧ a + direntSize m a ≤ b := ⟨h.1, h.2.1, h.2.2.le⟩

/-- The scanner of `ext2_list_dir` on packed records. -/
theorem listLoop_eq {us vs : List ℕ} {fuel a q : ℕ} (hchain : Chain m a length (us ++ vs))
    (hused : ∀ o ∈ us, direntInode m o ≠ 0) (hp : Packed m a us q)
    (hstop : length ≤ q ∨ q + 4 ≤ length ∧ direntInode m q = 0) (hfuel : length < a + fuel)
    (hlen : length < 2 ^ 32) :
    listLoop m fuel (length - a) a = us.map fun o => (direntInode m o, direntName m o) := by
  induction us generalizing fuel a with
  | nil =>
    have hq : a = q := hp
    subst hq
    cases fuel with
    | zero => rfl
    | succ fuel =>
      rw [listLoop]
      by_cases hz : length - a = 0
      · rw [if_pos hz, List.map_nil]
      · rw [if_neg hz, if_pos (hstop.resolve_left (by omega)).2, List.map_nil]
  | cons o us ih =>
    obtain ⟨rfl, hok, hle⟩ := Chain.record hchain
    have hu := hused o (List.mem_cons_self ..)
    have h8 := hok.header
    obtain ⟨-, hp'⟩ := hp
    cases fuel with
    | zero => omega
    | succ fuel =>
      have hname : (direntName m o).takeWhile (· ≠ 0) = direntName m o := by
        rw [List.takeWhile_eq_self_iff]
        intro c hc
        exact decide_eq_true (hok.name_ne hu c hc)
      rw [listLoop, if_neg (by omega), if_neg hu, List.map_cons, hname]
      congr 1
      have hstride : 8 ≤ stride m o := by rw [stride_eq]; omega
      cases us with
      | nil =>
        -- the last used record: the scan ends with the directory or at the zero inode
        have hq : o + stride m o = q := hp'
        by_cases hend : length - o ≤ stride m o
        · rw [if_pos hend, List.map_nil]
        · obtain ⟨-, hzero⟩ := hstop.resolve_left (by omega)
          rw [if_neg hend, u32_of_lt (by omega), List.map_nil]
          cases fuel with
          | zero => rfl
          | succ fuel => rw [listLoop, if_neg (by omega), hq, if_pos hzero]
      | cons o' us =>
        -- the next record lies where the scanner steps to
        obtain ⟨-, -, hrest⟩ := hchain
        obtain ⟨ho', hok', hle'⟩ := Chain.record hrest
        have hnext : o + stride m o = o + direntSize m o := hp'.1.symm.trans ho'
        have h8' := hok'.header
        have hsz : o + stride m o < length := by omega
        rw [if_neg (by omega), u32_of_lt (by omega), Nat.sub_sub]
        apply ih
        · rw [hnext]
          exact hrest
        · exact fun x hx => hused x (List.mem_cons_of_mem _ hx)
        · exact hp'
        · omega

theorem usedEntries_eq {us vs : List ℕ} (hused : ∀ o ∈ us, direntInode m o ≠ 0)
    (hunused : ∀ o ∈ vs, direntInode m o = 0) :
    usedEntries m (us ++ vs) = us.map fun o => (direntInode m o, direntName m o) := by
  have hnone : vs.filter (fun o => direntInode m o ≠ 0) = [] := by
    rw [List.filter_eq_nil_iff]
    intro o ho h
    exact of_decide_eq_true h (hunused o ho)
  unfold usedEntries
  rw [List.filter_append, List.filter_eq_self.mpr fun o ho => decide_eq_true (hused o ho), hnone,
    List.append_nil]

/-- Records take up space. -/
theorem Chain.length_le {a b : ℕ} {os : List ℕ} (h : Chain m a b os) : a + os.length ≤ b := by
  induction os generalizing a with
  | nil => exact le_of_eq h
  | cons o os ih =>
    obtain ⟨-, hok, hrest⟩ := h
    have := ih hrest
    have := hok.header
    rw [List.length_cons]
    omega

/-- Packed directories are listed. -/
theorem listDir_of_packed {recs us vs : List ℕ} {q : ℕ} (hchain : Chain m 0 length recs)
    (hlen : length < 2 ^ 32) (h : ListPacked m length recs us vs q) :
    listDir (.none, m) length = (.none, usedEntries m recs, (usedEntries m recs).length) := by
  rw [h.eq] at hchain ⊢
  rw [usedEntries_eq h.used h.unused]
  have hloop := listLoop_eq hchain h.used h.packed h.stop (show length < 0 + (length + 1) by omega)
    hlen
  obtain ⟨c, hus, hvs⟩ := Chain.append_iff.mp hchain
  have hcount := hus.length_le
  have hle := hvs.le
  unfold listDir
  rw [Nat.sub_zero] at hloop
  rw [if_neg (not_not_intro rfl)]
  dsimp only
  rw [hloop, u32_of_lt (by rw [List.length_map]; omega)]

/-! ## Names -/

/-- The test of the scanner is whether the bytes begin with the name. -/
theorem firstOf_iff (hn : ∀ c ∈ name, c ≠ 0) (m : Mem) (p : ℕ) :
    firstOf m p name ↔ name.length < 2 ^ 16 ∧ ∀ i < name.length, m (p + i) = cstring name i := by
  obtain ⟨-, hle, heq⟩ := strcfirst_bounds (window m p) (cstring name) (name.length + 1) 0
  have hend : cstring name name.length = 0 := by
    unfold cstring
    rw [List.getD_eq_default _ _ le_rfl]
  -- the zero at the end of the name stops the comparison
  have hlast : strcfirst (window m p) (cstring name) (name.length + 1) 0 ≤ name.length := by
    by_contra hgt
    obtain ⟨h1, h2⟩ := heq name.length (Nat.zero_le _) (by omega)
    exact h1 (h2.trans hend)
  unfold firstOf
  constructor
  · intro h
    have hlt : name.length < 2 ^ 16 := h ▸ Nat.mod_lt _ (by decide)
    rw [Nat.mod_eq_of_lt (by omega)] at h
    exact ⟨hlt, fun i hi => (heq i (Nat.zero_le _) (by omega)).2⟩
  · rintro ⟨hlt, hall⟩
    rw [Nat.mod_eq_of_lt (by omega)]
    by_contra hne
    have hi : strcfirst (window m p) (cstring name) (name.length + 1) 0 < name.length := by omega
    apply strcfirst_stop (window m p) (cstring name) (name.length + 1) 0 (by omega)
    have hsame := hall _ hi
    refine ⟨?_, hsame⟩
    change m (p + _) ≠ 0
    rw [hsame]
    exact cstring_ne hn hi

theorem Differs.not_firstOf (hn : ∀ c ∈ name, c ≠ 0) {p : ℕ} (h : Differs m length p name) :
    ¬firstOf m p name := by
  intro hf
  obtain ⟨i, hi, -, hne⟩ := h
  exact hne (((firstOf_iff hn m p).mp hf).2 i hi)

theorem firstOf_direntName (hn : ∀ c ∈ name, c ≠ 0) {p : ℕ} (h : direntName m p = name) :
    firstOf m (p + 8) name := by
  have hlen : name.length = direntNameLen m p := by
    rw [← h]
    unfold direntName
    rw [List.length_map, List.length_range]
  have hlt := direntNameLen_lt m p
  rw [firstOf_iff hn]
  refine ⟨by omega, fun i hi => ?_⟩
  unfold cstring
  rw [List.getD_eq_getElem _ _ hi]
  simp only [← h, direntName, List.getElem_map, List.getElem_range]

theorem Differs.ne {p : ℕ} (hn : ∀ c ∈ name, c ≠ 0) (h : Differs m length (p + 8) name) :
    direntName m p ≠ name := fun heq => h.not_firstOf hn (firstOf_direntName hn heq)

/-! ## The scanner of `ext2_open` -/

/-- An empty record of zero bytes. -/
theorem zero_record {p : ℕ} (h : ∀ x, p ≤ x → x < p + 8 → m x = 0) :
    direntInode m p = 0 ∧ stride m p = 8 := by
  have hget : ∀ f : Field, f.offset + f.width ≤ 8 →
      f.get (window m p) = f.get (window (fun _ => 0) 0) := by
    intro f hf
    apply Field.get_congr
    intro i _ hi
    exact h _ (by omega) (by omega)
  have hi : direntInode m p = 0 := (hget Dirent.inode (by decide)).trans (by decide)
  have hl : direntNameLen m p = 0 := (hget Dirent.nameLen (by decide)).trans (by decide)
  refine ⟨hi, ?_⟩
  rw [stride_eq, hl]

/-- Zero bytes are passed over, eight at a time. -/
theorem openLoop_zero (name : List UInt8) {fuel p n : ℕ} (hz : ∀ x, p ≤ x → x < p + 8 * n → m x = 0)
    (hle : p + 8 * n ≤ length) (hfuel : length < p + fuel) (hlen : length < 2 ^ 32) :
    ∃ fuel', length < p + 8 * n + fuel' ∧
      openLoop m name fuel (length - p) p = openLoop m name fuel' (length - (p + 8 * n)) (p + 8 * n)
      := by
  induction n generalizing fuel p with
  | zero => exact ⟨fuel, hfuel, rfl⟩
  | succ n ih =>
    obtain ⟨hi, hs⟩ := zero_record (fun x h1 h2 => hz x h1 (by omega))
    cases fuel with
    | zero => omega
    | succ fuel =>
      rw [openLoop, if_neg (by omega), if_neg (fun h => h.1 hi), hs, if_neg (by omega),
        u32_of_lt (by omega), Nat.sub_sub]
      obtain ⟨fuel', hf, heq⟩ := ih (fun x h1 h2 => hz x (by omega) (by omega))
        (show p + 8 + 8 * n ≤ length by omega) (show length < p + 8 + fuel by omega)
      refine ⟨fuel', by omega, ?_⟩
      rw [heq, show p + 8 + 8 * n = p + 8 * (n + 1) by omega]

/-- Zero bytes up to the end of the directory. -/
theorem openLoop_zero_end (name : List UInt8) {fuel p : ℕ} (hz : ∀ x, p ≤ x → x < length → m x = 0)
    (hle : p ≤ length) (hmod : (length - p) % 4 = 0) (hfuel : length < p + fuel)
    (hlen : length < 2 ^ 32) : openLoop m name fuel (length - p) p = none := by
  obtain ⟨fuel', hf, heq⟩ := openLoop_zero name (n := (length - p) / 8)
    (fun x h1 h2 => hz x h1 (by omega)) (by omega) hfuel hlen
  rw [heq]
  cases fuel' with
  | zero => rfl
  | succ fuel' =>
    rw [openLoop]
    by_cases h0 : length - (p + 8 * ((length - p) / 8)) = 0
    · rw [if_pos h0]
    · -- four bytes are left: an inode of zero and a step behind the end
      have h4 : length - (p + 8 * ((length - p) / 8)) = 4 := by omega
      have hi : direntInode m (p + 8 * ((length - p) / 8)) = 0 := by
        have : direntInode m (p + 8 * ((length - p) / 8)) =
            Dirent.inode.get (window (fun _ => 0) 0) := by
          apply Field.get_congr
          intro i _ hi'
          change i < 0 + 4 at hi'
          exact hz _ (by omega) (by omega)
        rw [this]
        decide
      have hs := stride_eq m (p + 8 * ((length - p) / 8))
      rw [if_neg h0, if_neg (fun h => h.1 hi), if_pos (by omega)]

/-- A record is passed over up to the zero bytes behind its name. -/
theorem openLoop_pass (hn : ∀ c ∈ name, c ≠ 0) {fuel a : ℕ} (hp : Passes m length name a)
    (hle : a + direntSize m a ≤ length) (hfuel : length < a + fuel) (hlen : length < 2 ^ 32) :
    ∃ fuel', length < a + stride m a + fuel' ∧
      openLoop m name fuel (length - a) a =
        openLoop m name fuel' (length - (a + stride m a)) (a + stride m a) := by
  have hs := stride_eq m a
  have hss := hp.stride_le
  cases fuel with
  | zero => omega
  | succ fuel =>
    refine ⟨fuel, by omega, ?_⟩
    rw [openLoop, if_neg (by omega),
      if_neg (fun h => (hp.differs h.1).not_firstOf hn h.2), if_neg (by omega), u32_of_lt (by omega),
      Nat.sub_sub]

theorem openLoop_passAll (hn : ∀ c ∈ name, c ≠ 0) {os : List ℕ} {fuel a b : ℕ}
    (hp : PassesAll m length name a os b) (hle : b ≤ length) (hfuel : length < a + fuel)
    (hlen : length < 2 ^ 32) :
    ∃ fuel', length < b + fuel' ∧
      openLoop m name fuel (length - a) a = openLoop m name fuel' (length - b) b := by
  induction os generalizing fuel a with
  | nil =>
    have hab : a = b := hp
    exact ⟨fuel, hab ▸ hfuel, by rw [hab]⟩
  | cons o os ih =>
    obtain ⟨-, hpass, hgap, hrest⟩ := hp
    have hb : a + direntSize m a ≤ b := by
      have hmono : ∀ {os : List ℕ} {a : ℕ}, PassesAll m length name a os b → a ≤ b := by
        intro os
        induction os with
        | nil => exact fun h => le_of_eq h
        | cons o os ih' => exact fun h => le_trans (Nat.le_add_right _ _) (ih' h.2.2.2)
      exact hmono hrest
    have hss := hpass.stride_le
    obtain ⟨f1, hf1, heq1⟩ := openLoop_pass hn hpass (by omega) hfuel hlen
    obtain ⟨f2, hf2, heq2⟩ := openLoop_zero name
      (n := (direntSize m a - stride m a) / 8) (p := a + stride m a)
      (fun x h1 h2 => hpass.zero x h1 (by omega)) (by omega) hf1 hlen
    have hnext : a + stride m a + 8 * ((direntSize m a - stride m a) / 8) = a + direntSize m a := by
      omega
    rw [hnext] at hf2 heq2
    obtain ⟨f3, hf3, heq3⟩ := ih hrest hf2
    exact ⟨f3, hf3, heq1.trans (heq2.trans heq3)⟩

/-- The records that are passed over have other names. -/
theorem PassesAll.name_ne (hn : ∀ c ∈ name, c ≠ 0) {os : List ℕ} {a b : ℕ}
    (hp : PassesAll m length name a os b) :
    ∀ t ∈ os, direntInode m t ≠ 0 → direntName m t ≠ name := by
  induction os generalizing a with
  | nil => exact fun t ht => absurd ht List.not_mem_nil
  | cons o os ih =>
    obtain ⟨rfl, hpass, -, hrest⟩ := hp
    intro t ht hu
    rcases List.mem_cons.mp ht with rfl | ht'
    · exact (hpass.differs hu).ne hn
    · exact ih hrest t ht' hu

/-- A name is opened exactly if the scanner gets to its record, or over all
records. -/
theorem openLoop_of_packed (hn : ∀ c ∈ name, c ≠ 0) {recs : List ℕ}
    (hchain : Chain m 0 length recs) (hlen : length < 2 ^ 32)
    (h : OpenPacked m length recs name) :
    OpensExactly m recs name (openLoop m name (length + 1) length 0) := by
  rcases h with ⟨before, t, after, rfl, hu, hname, hp⟩ | rfl | ⟨before, t, rfl, hp, hpass, hgap⟩
  · obtain ⟨c, -, hafter⟩ := Chain.append_iff.mp hchain
    obtain ⟨rfl, hok, hle⟩ := hafter.record
    have h8 := hok.header
    obtain ⟨fuel', hf, heq⟩ := openLoop_passAll hn hp (by omega)
      (show length < 0 + (length + 1) by omega) hlen
    refine Or.inl ⟨t, by simp, hu, hname, ?_⟩
    rw [Nat.sub_zero] at heq
    rw [heq]
    cases fuel' with
    | zero => omega
    | succ fuel' =>
      rw [openLoop, if_neg (by omega), if_pos ⟨hu, firstOf_direntName hn hname⟩]
  · have h0 : 0 = length := hchain
    refine Or.inr ⟨fun t ht => absurd ht List.not_mem_nil, ?_⟩
    rw [← h0, openLoop, if_pos rfl]
  · obtain ⟨c, -, hafter⟩ := Chain.append_iff.mp hchain
    obtain ⟨rfl, hok, hend⟩ := hafter
    have hend' : t + direntSize m t = length := hend
    have hss := hpass.stride_le
    obtain ⟨f1, hf1, heq1⟩ := openLoop_passAll hn hp (by omega)
      (show length < 0 + (length + 1) by omega) hlen
    obtain ⟨f2, hf2, heq2⟩ := openLoop_pass hn hpass (by omega) hf1 hlen
    have heq3 := openLoop_zero_end name (p := t + stride m t)
      (fun x h1 h2 => hpass.zero x h1 (by omega)) (by omega) (by omega) hf2 hlen
    refine Or.inr ⟨fun x hx hu => ?_, ?_⟩
    · rcases List.mem_append.mp hx with hx' | hx'
      · exact hp.name_ne hn x hx' hu
      · rw [List.mem_singleton.mp hx'] at hu ⊢
        exact (hpass.differs hu).ne hn
    · rw [Nat.sub_zero] at heq1
      exact heq1.trans (heq2.trans heq3)

/-- Packed directories are read as the format says: the used records are listed
in order with their number, and a name opens the record with exactly this
name. -/
theorem directory_read_of_packed {blockSize : ℕ} {recs : List ℕ} (m : Mem)
    (hdir : IsDirectory m blockSize length recs) (hlen : length < 2 ^ 32) :
    (∀ us vs q, ListPacked m length recs us vs q → listDir (.none, m) length =
      (.none, usedEntries m recs, (usedEntries m recs).length)) ∧
    ∀ name : List UInt8, (∀ c ∈ name, c ≠ 0) → OpenPacked m length recs name →
      OpensExactly m recs name (openDirent (fun _ => (.none, m)) length name) :=
  ⟨fun _ _ _ h => listDir_of_packed hdir.chain hlen h,
    fun _ hn h => openLoop_of_packed hn hdir.chain hlen h⟩

end Scan

/-- The records `.` and `..` of the root directory and one file `a`, whose record
goes on to the end of the block. -/
def rootDirectory : Mem := cstring
  [2, 0, 0, 0, 12, 0, 1, 0, 46, 0, 0, 0,
    2, 0, 0, 0, 12, 0, 2, 0, 46, 46, 0, 0,
    11, 0, 0, 0, 0xE8, 3, 1, 0, 97, 0, 0, 0]

theorem rootDirectory_zero {x : ℕ} (h : 36 ≤ x) : rootDirectory x = 0 :=
  List.getD_eq_default _ _ h

theorem rootDirectory_isDirectory : IsDirectory rootDirectory 1024 1024 [0, 12, 24] where
  chain := by decide +kernel
  blocks := by decide
  within := by decide +kernel

/-- The three entries are listed, `a` is opened, and there is no `b`. -/
theorem directory_read_root :
    listDir (.none, rootDirectory) 1024 =
        (.none, usedEntries rootDirectory [0, 12, 24], (usedEntries rootDirectory [0, 12, 24]).length) ∧
      OpensExactly rootDirectory [0, 12, 24] [97]
        (openDirent (fun _ => (.none, rootDirectory)) 1024 [97]) ∧
      OpensExactly rootDirectory [0, 12, 24] [98]
        (openDirent (fun _ => (.none, rootDirectory)) 1024 [98]) := by
  obtain ⟨hlist, hopen⟩ :=
    directory_read_of_packed rootDirectory rootDirectory_isDirectory (by decide)
  have hpass : ∀ {name : List UInt8} {a : ℕ}, stride rootDirectory a = direntSize rootDirectory a →
      Differs rootDirectory 1024 (a + 8) name → Passes rootDirectory 1024 name a :=
    fun hs hd => ⟨fun _ => hd, le_of_eq hs, fun x h1 h2 => absurd h2 (by omega)⟩
  have hs0 : stride rootDirectory 0 = direntSize rootDirectory 0 := by decide
  have hs12 : stride rootDirectory 12 = direntSize rootDirectory 12 := by decide
  have hs24 : stride rootDirectory 24 = 12 := by decide
  have hdot : ∀ c, c ≠ 46 → Differs rootDirectory 1024 (0 + 8) [c] ∧
      Differs rootDirectory 1024 (12 + 8) [c] := fun c hc =>
    ⟨⟨0, by simp, by decide, fun h => hc h.symm⟩, ⟨0, by simp, by decide, fun h => hc h.symm⟩⟩
  have hbefore : ∀ c, c ≠ 46 → PassesAll rootDirectory 1024 [c] 0 [0, 12] 24 := fun c hc =>
    ⟨rfl, hpass hs0 (hdot c hc).1, by decide, rfl, hpass hs12 (hdot c hc).2, by decide, rfl⟩
  refine ⟨?_, ?_, ?_⟩
  · exact hlist [0, 12, 24] [] 36 ⟨rfl, by decide +kernel, by decide, ⟨rfl, rfl, rfl, rfl⟩,
      Or.inr ⟨by decide, by decide +kernel⟩⟩
  · apply hopen [97] (by decide +kernel)
    exact Or.inl ⟨[0, 12], 24, [], rfl, by decide +kernel, by decide +kernel, hbefore 97 (by decide)⟩
  · apply hopen [98] (by decide +kernel)
    refine Or.inr (Or.inr ⟨[0, 12], 24, rfl, hbefore 98 (by decide), ?_, by decide +kernel⟩)
    constructor
    · exact fun _ => ⟨0, by decide, by decide, by decide +kernel⟩
    · decide +kernel
    · intro x hx _
      exact rootDirectory_zero (by omega)

/-- The file `ab`, an unused record, and the file `a`. -/
def gapDirectory : Mem := cstring
  [11, 0, 0, 0, 12, 0, 2, 0, 97, 98, 0, 0,
    0, 0, 0, 0, 12, 0, 1, 0, 99, 0, 0, 0,
    12, 0, 0, 0, 0xE8, 3, 1, 0, 97, 0, 0, 0]

/-- The list ends at the unused record, and `ab` is opened for `a`. -/
theorem directory_read_fails_at_gap :
    IsDirectory gapDirectory 1024 1024 [0, 12, 24] ∧
      listDir (.none, gapDirectory) 1024 ≠
        (.none, usedEntries gapDirectory [0, 12, 24], (usedEntries gapDirectory [0, 12, 24]).length) ∧
      ¬OpensExactly gapDirectory [0, 12, 24] [97]
        (openDirent (fun _ => (.none, gapDirectory)) 1024 [97]) := by
  have hopen : openDirent (fun _ => (.none, gapDirectory)) 1024 [97] = some 11 := by decide
  refine ⟨⟨by decide +kernel, by decide, by decide +kernel⟩, by decide +kernel, ?_⟩
  rw [hopen]
  unfold OpensExactly
  decide +kernel

end VkKernel.Ext2
