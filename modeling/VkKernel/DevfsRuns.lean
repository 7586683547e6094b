import VkKernel.Devfs
import VkKernel.Lib.StoreLog

/-!
# Looking devices up

`devfs_open` and `devfs_list_dir` go over the entries up to the first one without a node. What
they find after any number of registrations, with other activity on the heap in between.
-/

namespace VkKernel.Devfs
open ByteMemory StoreLog Outcome

/-! ## The source -/

/-- `!strcmp(s1, s2)`, for the string at `a` and one that ends within the fuel. -/
def strcmpLoop (m : Mem) (a : ℕ) (s2 : Mem) : ℕ → ℕ → Bool
  | 0, _ => false
  | fuel + 1, i =>
    if m (a + i) ≠ 0 ∧ m (a + i) = s2 i then strcmpLoop m a s2 fuel (i + 1)
    else decide (m (a + i) = s2 i)

def strcmp (m : Mem) (a : ℕ) (name : Name) : Bool :=
  strcmpLoop m a (cstring name.bytes) (name.bytes.length + 1) 0

def ttyName : List UInt8 := [0x74, 0x74, 0x79]

/-- The loop of `devfs_open`. A round takes a byte of the length at least. -/
def openLoop (m : Mem) (name : Name) (stop : ℕ) : ℕ → ℕ → ℕ
  | 0, _ => 0
  | fuel + 1, dirptr =>
    if dirptr < stop then
      if loadLE m dirptr 4 = 0 then 0
      else if strcmp m (loadLE m (dirptr + 4) 4) name then loadLE m dirptr 4
      else openLoop m name stop fuel (dirptr + sizeofDevfsDirent)
    else 0

/-- `devfs_open` of the root directory, where `tty` is the terminal of the process. -/
def devfsOpen (tty : ℕ) (d : Root) (m : Mem) (name : Name) : ℕ :=
  if name.bytes = ttyName then tty
  else openLoop m name (d.deviceStruct + d.length) d.length d.deviceStruct

def sizeofDirent : ℕ := 8
def sizeofListEntry : ℕ := 8

/-- A `dirent_t`. -/
structure Dirent where
  inode : ℕ
  nameLen : ℕ
  name : List UInt8
deriving DecidableEq

/-- The loop of `devfs_list_dir`, the listed entries and the list entry that is left over. -/
def listLoop (fuel stop : ℕ) : ℕ → ℕ → ℕ → Kernel → Result (List Dirent × ℕ × Kernel)
  | 0, _, _, _ => .error .outOfFuel
  | rounds + 1, dirptr, ptr, k =>
    if dirptr < stop then
      if loadLE k.heap.mem dirptr 4 = 0 then .ok ([], ptr, k)
      else do
        let nameLen := strlen k.heap.mem (loadLE k.heap.mem (dirptr + 4) 4)
        let (_, k) ← kmalloc fuel (sizeofDirent + nameLen + 1) k
        let name := (slice k.heap.mem (loadLE k.heap.mem (dirptr + 4) 4) nameLen).takeWhile (· ≠ 0)
        let fd : Dirent := ⟨loadLE k.heap.mem dirptr 4, nameLen, name⟩
        let (next, k) ← kmalloc fuel sizeofListEntry k
        let (rest, ptr, k) ← listLoop fuel stop rounds (dirptr + sizeofDevfsDirent) next k
        .ok (fd :: rest, ptr, k)
    else .ok ([], ptr, k)

/-- `devfs_list_dir`, the list, `*size` and the heap. -/
def devfsListDir (fuel dest size : ℕ) (d : Root) (k : Kernel) :
    Result (List Dirent × ℕ × Kernel) := do
  let (entries, ptr, k) ←
    listLoop fuel (d.deviceStruct + d.length) (d.length + 1) d.deviceStruct dest k
  let k ← k.kfree ptr
  .ok (entries, u32 (size + entries.length), k)

/-! ## Lookups in a stored list -/

section Lookups
variable {d : Root} {h : Heap} {es : List Entry} {name : Name}

theorem Name.ext {a b : Name} (h : a.bytes = b.bytes) : a = b := by
  cases a
  cases b
  subst h
  rfl

/-- The comparison from the place `i` on. -/
theorem strcmpLoop_drop {m : Mem} {a : ℕ} {e : Name} (hs : HasString m a e.bytes) {fuel i : ℕ}
    (hi : i ≤ e.bytes.length) (hi' : i ≤ name.bytes.length)
    (hfuel : name.bytes.length < i + fuel) :
    strcmpLoop m a (cstring name.bytes) fuel i = true ↔ e.bytes.drop i = name.bytes.drop i := by
  induction fuel generalizing i with
  | zero => omega
  | succ fuel ih =>
    rw [strcmpLoop, hs i hi]
    by_cases hlt : i < e.bytes.length
    · have he : e.bytes.getD i 0 = e.bytes[i] := List.getD_eq_getElem _ _ hlt
      have he0 := e.ne_zero _ (List.getElem_mem hlt)
      rw [he, List.drop_eq_getElem_cons hlt]
      by_cases hlt' : i < name.bytes.length
      · have hn : cstring name.bytes i = name.bytes[i] := List.getD_eq_getElem _ _ hlt'
        rw [hn, List.drop_eq_getElem_cons hlt', List.cons.injEq]
        by_cases hsame : e.bytes[i] = name.bytes[i]
        · rw [if_pos ⟨he0, hsame⟩, ih (by omega) (by omega) (by omega), and_iff_right hsame]
        · rw [if_neg fun h => hsame h.2, decide_eq_false hsame]
          exact iff_of_false Bool.false_ne_true fun h => hsame h.1
      · have hend : name.bytes.length ≤ i := by omega
        rw [cstring_of_le hend, if_neg fun h => he0 h.2, decide_eq_false he0,
          List.drop_eq_nil_of_le hend]
        exact iff_of_false Bool.false_ne_true (List.cons_ne_nil _ _)
    · have he : e.bytes.getD i 0 = 0 := List.getD_eq_default _ _ (by omega)
      rw [he, if_neg fun h => h.1 rfl, List.drop_eq_nil_of_le (by omega), decide_eq_true_iff]
      by_cases hlt' : i < name.bytes.length
      · rw [List.drop_eq_getElem_cons hlt']
        exact iff_of_false (cstring_ne name.ne_zero hlt').symm (List.cons_ne_nil _ _).symm
      · rw [cstring_of_le (by omega), List.drop_eq_nil_of_le (by omega)]
        exact iff_of_true rfl rfl

theorem strcmp_iff {m : Mem} {a : ℕ} {e : Name} (hs : HasString m a e.bytes) :
    strcmp m a name = true ↔ e = name := by
  unfold strcmp
  rw [strcmpLoop_drop hs (Nat.zero_le _) (Nat.zero_le _) (by omega), List.drop_zero, List.drop_zero]
  exact ⟨Name.ext, congrArg Name.bytes⟩

/-- The node of the first entry with this name. -/
def lookup (es : List Entry) (name : Name) : ℕ :=
  ((es.find? fun e => decide (e.name = name)).map Entry.node).getD 0

theorem Stored.openLoop_eq (hst : Stored d h es {es.length}) {fuel j : ℕ} (hj : j ≤ es.length)
    (hfuel : d.length ≤ 8 * j + fuel) :
    openLoop h.mem name (d.deviceStruct + d.length) fuel (d.deviceStruct + 8 * j) =
      lookup (es.drop j) name := by
  have hfits := hst.fits
  have hdvd := hst.dvd
  have hnil : lookup [] name = 0 := rfl
  induction fuel generalizing j with
  | zero => rw [openLoop, List.drop_eq_nil_of_le (by omega), hnil]
  | succ fuel ih =>
    rw [openLoop]
    by_cases hlt : j < es.length
    · have hat := hst.entries j _ (List.getElem?_eq_getElem hlt)
      rw [if_pos (by omega), hat.node, if_neg hat.node_ne, hat.pointer,
        List.drop_eq_getElem_cons hlt]
      by_cases hname : es[j].name = name
      · rw [if_pos ((strcmp_iff hat.string).mpr hname)]
        unfold lookup
        rw [List.find?_cons, decide_eq_true hname]
        rfl
      · rw [if_neg fun hs => hname ((strcmp_iff hat.string).mp hs), sizeofDevfsDirent,
          Nat.add_assoc, show 8 * j + 8 = 8 * (j + 1) by omega, ih (by omega) (by omega)]
        unfold lookup
        rw [List.find?_cons, decide_eq_false hname]
    · have hend : j = es.length := by omega
      rw [List.drop_eq_nil_of_le (by omega), hnil]
      split_ifs with hstop hzero
      · rfl
      · exact absurd (hst.blank j hend (by omega)) hzero
      · exact absurd (hst.blank j hend (by omega)) hzero
      · rfl

theorem Stored.devfsOpen_eq (hst : Stored d h es {es.length}) (tty : ℕ)
    (hname : name.bytes ≠ ttyName) : devfsOpen tty d h.mem name = lookup es name := by
  have hloop := @Stored.openLoop_eq _ _ _ name hst d.length 0 (Nat.zero_le _) (by omega)
  rw [Nat.mul_zero, Nat.add_zero, List.drop_zero] at hloop
  unfold devfsOpen
  rw [if_neg hname, hloop]

/-- What is listed for an entry. -/
def Entry.dirent (e : Entry) : Dirent := ⟨e.node, e.name.bytes.length, e.name.bytes⟩

variable {k : Kernel} {fuel : ℕ}

theorem slice_eq_of_hasString {m : Mem} {a : ℕ} {bytes : List UInt8} (hs : HasString m a bytes) :
    slice m a bytes.length = bytes := by
  apply List.ext_getElem (length_slice _ _ _)
  intro i hi hi'
  rw [getElem_slice, hs i hi'.le, List.getD_eq_getElem _ _ hi']

/-- The loop lists the entries that are left. -/
theorem Stored.listLoop_holds (hs : k.heap.Sound) (hst : Stored d k.heap es {es.length})
    {rounds j ptr : ℕ} (hj : j ≤ es.length) (hrounds : d.length < 8 * j + rounds)
    (hptr : ptr ∈ k.heap.live) :
    Holds (listLoop fuel (d.deviceStruct + d.length) rounds (d.deviceStruct + 8 * j) ptr k)
      (fun r => r.1 = (es.drop j).map Entry.dirent ∧ r.2.1 ∈ r.2.2.heap.live ∧ r.2.2.heap.Sound)
      (AllocFails fuel) := by
  have hfits := hst.fits
  have hdvd := hst.dvd
  induction rounds generalizing j ptr k with
  | zero => omega
  | succ rounds ih =>
    rw [listLoop]
    by_cases hlt : j < es.length
    · have hget := List.getElem?_eq_getElem hlt
      have hat := hst.entries j _ hget
      have hbounds := hs.bounds hat.live
      have hnamefits := hat.fits
      unfold kheapBaseStart at hbounds
      have hstrlen := strlen_eq hat.string es[j].name.ne_zero (by omega)
      rw [if_pos (by omega), hat.node, if_neg hat.node_ne, hat.pointer, hstrlen, holds_bind]
      have hsmall : sizeofDirent + es[j].name.bytes.length + 1 ≤ 0xFFFFFFFC := by
        unfold sizeofDirent
        omega
      refine (hs.kmalloc_holds hsmall).mono (fun r1 h1 => ?_) fun e he => he
      obtain ⟨p1, k1⟩ := r1
      dsimp only at h1 ⊢
      have hst1 := hst.keeps_all h1.keeps
      have hat1 := hst1.entries j _ hget
      rw [hat1.pointer, hat1.node, slice_eq_of_hasString hat1.string, holds_bind]
      refine (h1.sound.kmalloc_holds (by decide)).mono (fun r2 h2 => ?_) fun e he => he
      obtain ⟨p2, k2⟩ := r2
      dsimp only at h2 ⊢
      rw [sizeofDevfsDirent, Nat.add_assoc, show 8 * j + 8 = 8 * (j + 1) by omega, holds_bind]
      refine (ih h2.sound (hst1.keeps_all h2.keeps) (by omega) (by omega) h2.live).mono
        (fun r hr => ?_) fun e he => he
      refine ⟨?_, hr.2.1, hr.2.2⟩
      have hname : es[j].name.bytes.takeWhile (· ≠ 0) = es[j].name.bytes :=
        List.takeWhile_eq_self_iff.mpr fun c hc => decide_eq_true (es[j].name.ne_zero c hc)
      dsimp only
      rw [hr.1, hname, List.drop_eq_getElem_cons hlt]
      rfl
    · have hend : j = es.length := by omega
      rw [List.drop_eq_nil_of_le (by omega)]
      split_ifs with hstop hzero
      · exact ⟨rfl, hptr, hs⟩
      · exact absurd (hst.blank j hend (by omega)) hzero
      · exact ⟨rfl, hptr, hs⟩

theorem Stored.devfsListDir_holds (hs : k.heap.Sound) (hst : Stored d k.heap es {es.length})
    {dest : ℕ} (size : ℕ) (hdest : dest ∈ k.heap.live) :
    Holds (devfsListDir fuel dest size d k)
      (fun r => r.1 = es.map Entry.dirent ∧ r.2.1 = u32 (size + es.length)) (AllocFails fuel) := by
  have hloop := @Stored.listLoop_holds _ _ _ fuel hs hst (d.length + 1) 0 dest (Nat.zero_le _)
    (by omega) hdest
  rw [Nat.mul_zero, Nat.add_zero, List.drop_zero] at hloop
  unfold devfsListDir
  rw [holds_bind]
  refine hloop.mono (fun r hr => ?_) fun e he => he
  obtain ⟨hlist, hlive, bs, hi⟩ := hr
  obtain ⟨h', hfree, -⟩ := hi.kfree_ok hlive
  dsimp only [Kernel.kfree]
  rw [hfree]
  refine ⟨hlist, ?_⟩
  dsimp only
  rw [hlist, List.length_map]

theorem lookup_of_mem (hdistinct : (es.map Entry.name).Nodup) {e : Entry} (he : e ∈ es) :
    lookup es e.name = e.node := by
  induction es with
  | nil => exact absurd he List.not_mem_nil
  | cons x es ih =>
    rw [List.map_cons, List.nodup_cons] at hdistinct
    unfold lookup
    rw [List.find?_cons]
    rcases List.mem_cons.mp he with rfl | he
    · rw [decide_eq_true rfl]
      rfl
    · have hne : x.name ≠ e.name := fun heq => hdistinct.1 (heq ▸ List.mem_map_of_mem he)
      rw [decide_eq_false hne]
      exact ih hdistinct.2 he

theorem lookup_of_forall_ne (h : ∀ e ∈ es, e.name ≠ name) : lookup es name = 0 := by
  have hnone : (es.find? fun e => decide (e.name = name)) = none := by
    apply List.find?_eq_none.mpr
    intro e he
    simp [h e he]
  unfold lookup
  rw [hnone]
  rfl

end Lookups

/-! ## Runs -/

/-- The state of the system, with the devices that were registered and their nodes. -/
structure World where
  root : Root
  kernel : Kernel
  devices : List (Name × ℕ)

/-- The blocks of the directory: the array, and the names of its entries. -/
def Owned (d : Root) (h : Heap) (q : ℕ) : Prop :=
  q = d.deviceStruct ∨ ∃ i, 8 * i < d.length ∧ loadLE h.mem (d.deviceStruct + 8 * i) 4 ≠ 0 ∧
    q = loadLE h.mem (d.deviceStruct + 8 * i + 4) 4

/-- What the rest of the kernel does to the heap leaves the blocks of the directory alone. -/
def Undisturbed (d : Root) (h h' : Heap) : Prop :=
  ∀ q, Owned d h q → q ∈ h'.live ∧ KeepsAt h h' q

/-- The states of the runs with distinct names in which every registration starts in a state that
meets `C`. Between two registrations anything can happen on the heap. -/
inductive Reached (C : Root → Kernel → Prop) : World → Prop
  | init {fuel : ℕ} {k : Kernel} {r : Root × Kernel} : HeapReachable k →
      devfsInit fuel k = .ok r → Reached C ⟨r.1, r.2, []⟩
  | register {w : World} {fuel : ℕ} {now : ℤ} {name : Name} {device deviceType deviceInfo : ℕ}
      {r : ℕ × Root × Kernel} : Reached C w → C w.root w.kernel → (∀ e ∈ w.devices, e.1 ≠ name) →
      name.bytes ≠ ttyName →
      devfsRegisterDevice fuel now name device deviceType deviceInfo w.root w.kernel = .ok r →
      Reached C ⟨r.2.1, r.2.2, w.devices ++ [(name, r.1)]⟩
  | other {w : World} {k : Kernel} : Reached C w → HeapStep w.kernel k →
      Undisturbed w.root w.kernel.heap k.heap → Reached C { w with kernel := k }

/-- The first entry whose first byte is zero has no node and neither has the one behind it. If
there is no such entry, the array that the directory moves to has no node in the second entry
behind the old ones. -/
structure Careful (d : Root) (k : Kernel) : Prop where
  free : ∀ i, (∀ j < i, k.heap.mem (d.deviceStruct + 8 * j) ≠ 0) → 8 * i < d.length →
    k.heap.mem (d.deviceStruct + 8 * i) = 0 → loadLE k.heap.mem (d.deviceStruct + 8 * i) 4 = 0 ∧
      (8 * (i + 1) < d.length → loadLE k.heap.mem (d.deviceStruct + 8 * (i + 1)) 4 = 0)
  grown : Full d k.heap → ∀ fuel node k1 spe k2 np k3,
    kmalloc fuel sizeofFsnode k = .ok (node, k1) →
    kmalloc fuel sizeofNodeSpecific k1 = .ok (spe, k2) →
    krealloc fuel d.deviceStruct (2 * d.length) k2 = .ok (np, k3) →
    d.length + 8 < 2 * d.length → loadLE k3.heap.mem (np + (d.length + 8)) 4 = 0

/-- Every call returns, or one of its allocations does not. A registration returns a node; every
name opens its node and no other name does; and all names are listed, each one once. -/
structure DevicesReachable (tty : ℕ) (w : World) : Prop where
  nodes : ∀ e ∈ w.devices, e.2 ≠ 0
  returns : ∀ fuel now name device deviceType deviceInfo,
    Holds (devfsRegisterDevice fuel now name device deviceType deviceInfo w.root w.kernel)
      (fun r => r.1 ≠ 0) (AllocFails fuel)
  opens : ∀ e ∈ w.devices, devfsOpen tty w.root w.kernel.heap.mem e.1 = e.2
  opensNothing : ∀ name : Name, name.bytes ≠ ttyName → (∀ e ∈ w.devices, e.1 ≠ name) →
    devfsOpen tty w.root w.kernel.heap.mem name = 0
  lists : ∀ fuel dest size, dest ∈ w.kernel.heap.live →
    Holds (devfsListDir fuel dest size w.root w.kernel)
      (fun r => r.1 = w.devices.map (fun e => ⟨e.2, e.1.bytes.length, e.1.bytes⟩) ∧
        r.2.1 = u32 (size + w.devices.length))
      (AllocFails fuel)

/-- The entries of the directory are the registered devices. -/
structure Registered (w : World) (es : List Entry) : Prop where
  sound : w.kernel.heap.Sound
  stored : Stored w.root w.kernel.heap es {es.length}
  devices : w.devices = es.map fun e => (e.name, e.node)
  distinct : (es.map Entry.name).Nodup
  notTty : ∀ e ∈ es, e.name.bytes ≠ ttyName

section Runs
variable {w : World} {es : List Entry}

theorem Stored.undisturbed {d : Root} {h h' : Heap} (hst : Stored d h es {es.length})
    (hu : Undisturbed d h h') : Stored d h' es {es.length} := by
  refine hst.keeps (hu _ (Or.inl rfl)) fun e he => ?_
  obtain ⟨i, hi⟩ := List.getElem?_of_mem he
  have hat := hst.entries i e hi
  have hlt := (List.getElem?_eq_some_iff.mp hi).1
  have hfits := hst.fits
  refine hu _ (Or.inr ⟨i, by omega, ?_, hat.pointer.symm⟩)
  rw [hat.node]
  exact hat.node_ne

/-- In an empty directory only the array has to be left alone. -/
theorem Stored.undisturbed_of_keeps {d : Root} {h h' : Heap} (hst : Stored d h [] Set.univ)
    (hk : Keeps h h') : Undisturbed d h h' := by
  rintro q (rfl | ⟨i, hi, hnode, -⟩)
  · exact hk _ hst.live
  · exact absurd (hst.blank i trivial hi) hnode

theorem Registered.forall_ne (hr : Registered w es) {name : Name}
    (hname : ∀ e ∈ w.devices, e.1 ≠ name) : ∀ e ∈ es, e.name ≠ name := by
  intro e he
  apply hname (e.name, e.node)
  rw [hr.devices]
  exact List.mem_map_of_mem he

/-- A new directory is careful. -/
theorem Stored.careful {d : Root} {k : Kernel} (hst : Stored d k.heap [] Set.univ) :
    Careful d k := by
  refine ⟨fun i _ hi _ => ⟨hst.blank i trivial hi, fun hi' => hst.blank (i + 1) trivial hi'⟩,
    fun hfull => ?_⟩
  have hpos := hst.pos
  have hzero := hst.blank 0 trivial hpos
  exact absurd ((firstByte_eq_zero_iff _ _).mpr (by rw [hzero])) (hfull 0 hpos)

/-- All entries of the list are passed over. -/
theorem Careful.freeIndex_eq {d : Root} {k : Kernel} (hc : Careful d k)
    (hst : Stored d k.heap es {es.length}) : freeIndex es = es.length := by
  have hle := freeIndex_le es
  have hfits := hst.fits
  by_contra hne
  have hlt : freeIndex es < es.length := by omega
  have hget := List.getElem?_eq_getElem hlt
  have hfound : es[freeIndex es].node % 256 = 0 :=
    of_decide_eq_true (List.findIdx_getElem (w := hlt))
  have hzero := hc.free (freeIndex es) (fun j hj => ?_) (by omega) ((hst.firstByte hget).mpr hfound)
  · rw [(hst.entries _ _ hget).node] at hzero
    exact (hst.entries _ _ hget).node_ne hzero.1
  · rw [ne_eq, hst.firstByte (List.getElem?_eq_getElem (by omega))]
    exact of_decide_eq_false (List.not_of_lt_findIdx hj)

/-- Behind the new entry there will be none. -/
theorem Careful.blankBehind {d : Root} {k k1 k2 : Kernel} {fuel node spe : ℕ} (hc : Careful d k)
    (hst : Stored d k.heap es {es.length}) (hs : k.heap.Sound)
    (hm1 : kmalloc fuel sizeofFsnode k = .ok (node, k1))
    (hm2 : kmalloc fuel sizeofNodeSpecific k1 = .ok (spe, k2)) :
    BlankBehind fuel d k2 es.length := by
  have hfits := hst.fits
  have hend := hc.freeIndex_eq hst
  constructor
  · intro hcap hcap'
    have hfirst := (firstByte_eq_zero_iff _ _).mpr (by rw [hst.blank es.length rfl hcap])
    have hnext := (hc.free es.length (fun j hj => ?_) hcap hfirst).2
    · have h1 := hs.kmalloc (by decide) hm1
      have h2 := h1.sound.kmalloc (by decide) hm2
      exact (((hst.insert hnext).keeps_all h1.keeps).keeps_all h2.keeps).blank _ (Or.inl rfl) hcap'
    · rw [ne_eq, hst.firstByte (List.getElem?_eq_getElem hj)]
      have hbefore := List.not_of_lt_findIdx (show j < freeIndex es by omega)
      exact of_decide_eq_false hbefore
  · intro hcap np k3 hre hlt
    obtain ⟨-, hlength, hfull⟩ := hst.full (by omega)
    have hbehind := hc.grown hfull fuel node k1 spe k2 np k3 hm1 hm2 hre (by omega)
    rw [Nat.mul_add, hlength]
    exact hbehind

/-- One registration. -/
theorem Registered.register (hr : Registered w es) (hc : Careful w.root w.kernel) {fuel : ℕ}
    {now : ℤ} {name : Name} {device deviceType deviceInfo : ℕ} {r : ℕ × Root × Kernel}
    (hname : ∀ e ∈ w.devices, e.1 ≠ name) (htty : name.bytes ≠ ttyName)
    (h : devfsRegisterDevice fuel now name device deviceType deviceInfo w.root w.kernel = .ok r) :
    ∃ es', Registered ⟨r.2.1, r.2.2, w.devices ++ [(name, r.1)]⟩ es' := by
  obtain ⟨hsound, _, hplace⟩ := (register_holds hr.sound hr.stored).of_ok h
  obtain ⟨p, hst⟩ := hplace fun _ node k1 spe k2 hm1 hm2 =>
    hc.blankBehind hr.stored hr.sound hm1 hm2
  rw [place_eq_append (hc.freeIndex_eq hr.stored)] at hst
  refine ⟨es ++ [⟨name, r.1, p⟩], hsound, hst, ?_, ?_, fun e he => ?_⟩
  · rw [hr.devices, List.map_append]
    rfl
  · rw [List.map_append, List.map_singleton]
    apply List.nodup_append.mpr
    refine ⟨hr.distinct, List.nodup_singleton _, fun a ha b hb => ?_⟩
    obtain ⟨e, he, rfl⟩ := List.mem_map.mp ha
    rw [List.mem_singleton.mp hb]
    exact hr.forall_ne hname e he
  · rcases List.mem_append.mp he with he | he
    · exact hr.notTty e he
    · rw [List.mem_singleton.mp he]
      exact htty

/-- A careful run keeps the directory and the devices together. -/
theorem Reached.registered (h : Reached Careful w) : ∃ es, Registered w es := by
  induction h with
  | init hk hinit =>
    have hsound : Heap.Sound _ := hk.inv
    obtain ⟨hs, hst⟩ := (devfsInit_holds hsound).of_ok hinit
    exact ⟨[], hs, hst.mono fun _ _ => trivial, rfl, List.nodup_nil, nofun⟩
  | register _ hc hname htty hregister ih =>
    obtain ⟨es, hr⟩ := ih
    exact hr.register hc hname htty hregister
  | other _ hstep hu ih =>
    obtain ⟨es, hr⟩ := ih
    obtain ⟨bs, hi⟩ := hr.sound
    exact ⟨es, hstep.inv hi, hr.stored.undisturbed hu, hr.devices, hr.distinct,
      hr.notTty⟩

theorem Registered.devicesReachable (hr : Registered w es) (tty : ℕ) : DevicesReachable tty w := by
  have hmem : ∀ e ∈ w.devices, ∃ x ∈ es, (x.name, x.node) = e := by
    intro e he
    rw [hr.devices] at he
    exact List.mem_map.mp he
  refine ⟨fun e he => ?_, fun fuel now name device deviceType deviceInfo => ?_, fun e he => ?_,
    fun name htty hname => ?_, fun fuel dest size hdest => ?_⟩
  · obtain ⟨x, hx, rfl⟩ := hmem e he
    obtain ⟨i, hi⟩ := List.getElem?_of_mem hx
    exact (hr.stored.entries i x hi).node_ne
  · exact (register_holds hr.sound hr.stored).mono (fun r h => h.2.1) fun e he => he
  · obtain ⟨x, hx, rfl⟩ := hmem e he
    rw [hr.stored.devfsOpen_eq tty (hr.notTty x hx)]
    exact lookup_of_mem hr.distinct hx
  · rw [hr.stored.devfsOpen_eq tty htty]
    exact lookup_of_forall_ne (hr.forall_ne hname)
  · refine (hr.stored.devfsListDir_holds hr.sound size hdest).mono (fun r h => ?_) fun e he => he
    rw [hr.devices, List.map_map, List.length_map]
    exact h

end Runs

def hda : Name := ⟨[0x68, 0x64, 0x61], by simp, by simp⟩
def hdb : Name := ⟨[0x68, 0x64, 0x62], by simp, by simp⟩

end VkKernel.Devfs
