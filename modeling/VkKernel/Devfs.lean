import VkKernel.HeapClients
import VkKernel.Strings
import VkKernel.Lib.IntervalUpdate
import VkKernel.Lib.PackedStruct

/-!
# Devices

The directory of devfs is an array of entries on the heap that grows when it is full.
`devfs_register_device` takes an entry for free when its first byte is zero, which is the low
byte of the node pointer, and `krealloc` leaves the new half of the array as it was in memory.
-/

namespace VkKernel.Devfs
open ByteMemory IntervalUpdate Outcome

/-! ## The source -/

/-- A string, for which memory can be allocated. -/
structure Name where
  bytes : List UInt8
  ne_zero : ∀ c ∈ bytes, c ≠ 0
  fits : bytes.length + 1 ≤ 0xFFFFFFFC
deriving DecidableEq

/-- A `fsnode_t` of a device and its `devfs_node_specific_t`. -/
structure DevNode where
  length : ℕ
  attributes : ℕ
  creationTime : ℤ
  lastAccessTime : ℤ
  lastModificationTime : ℤ
  specific : ℕ
  deviceStruct : ℕ
  deviceType : ℕ
  deviceInfo : ℕ

/-- The root directory, and the nodes by their addresses. -/
structure Root where
  deviceStruct : ℕ
  length : ℕ
  nodes : ℕ → Option DevNode

def sizeofFileSystem : ℕ := 28
def sizeofFsnode : ℕ := 36
def sizeofNodeSpecific : ℕ := 12
def sizeofDevfsDirent : ℕ := 8
def dirSizeDefault : ℕ := sizeofDevfsDirent * 10

/-- `devfs_init`, up to the mount. -/
def devfsInit (fuel : ℕ) (k : Kernel) : Result (Root × Kernel) := do
  let (_, k) ← kmalloc fuel sizeofFileSystem k
  let (_, k) ← kmalloc fuel sizeofFsnode k
  let (_, k) ← kmalloc fuel sizeofNodeSpecific k
  let (deviceStruct, k) ← kmalloc fuel dirSizeDefault k
  let mem := ByteMemory.fill k.heap.mem deviceStruct dirSizeDefault 0
  .ok (⟨deviceStruct, dirSizeDefault, fun _ => none⟩, { k with heap := { k.heap with mem } })

/-- `dirent->name = kmalloc(name_len+1); strcpy(dirent->name, name); dirent->node = node;` -/
def putEntry (fuel : ℕ) (name : Name) (node dirent : ℕ) (k : Kernel) : Result Kernel := do
  let (p, k) ← kmalloc fuel (name.bytes.length + 1) k
  let mem := storeLE k.heap.mem (dirent + 4) 4 p
  let mem := overwrite mem p (name.bytes.length + 1) (cstring name.bytes)
  let mem := storeLE mem dirent 4 node
  .ok { k with heap := { k.heap with mem } }

/-- The search of `devfs_register_device`: whether an entry is free, and where it stopped. -/
def slotLoop (m : Mem) (stop : ℕ) : ℕ → ℕ → Bool × ℕ
  | 0, dirptr => (false, dirptr)
  | fuel + 1, dirptr =>
    if dirptr < stop then
      if m dirptr = 0 then (true, dirptr) else slotLoop m stop fuel (dirptr + sizeofDevfsDirent)
    else (false, dirptr)

/-- The second half of `devfs_register_device`. A round of the search takes a byte of the length at
least. -/
def placeNode (fuel : ℕ) (name : Name) (node : ℕ) (d : Root) (k : Kernel) :
    Result (Root × Kernel) := do
  let (found, dirptr) := slotLoop k.heap.mem (d.deviceStruct + d.length) d.length d.deviceStruct
  if found then do
    let k ← putEntry fuel name node dirptr k
    .ok (d, k)
  else do
    let off := dirptr - d.deviceStruct
    let length := 2 * d.length % 2 ^ 64
    let (deviceStruct, k) ← krealloc fuel d.deviceStruct (u32 length) k
    let k ← putEntry fuel name node (deviceStruct + off) k
    .ok ({ d with deviceStruct, length }, k)

/-- `devfs_register_device` of the root directory at the time `now`. -/
def devfsRegisterDevice (fuel : ℕ) (now : ℤ) (name : Name) (device deviceType deviceInfo : ℕ)
    (d : Root) (k : Kernel) : Result (ℕ × Root × Kernel) := do
  let (node, k) ← kmalloc fuel sizeofFsnode k
  let (spe, k) ← kmalloc fuel sizeofNodeSpecific k
  let fields : DevNode := ⟨0, 0, now, now, now, spe, device, deviceType, deviceInfo⟩
  let nodes := Function.update d.nodes node (some fields)
  let (d, k) ← placeNode fuel name node { d with nodes } k
  .ok (node, d, k)

/-! ## The directory as a list -/

/-- An entry, with the address of its name. -/
structure Entry where
  name : Name
  node : ℕ
  nameAddr : ℕ

/-- The entry that takes place `i`, which is one of the list or the one behind it. -/
def put (es : List Entry) (i : ℕ) (e : Entry) : List Entry := es.take i ++ e :: es.drop (i + 1)

/-- The first entry that is taken for free. -/
def freeIndex (es : List Entry) : ℕ := es.findIdx fun e => decide (e.node % 256 = 0)

/-- What registering does to the list. -/
def place (es : List Entry) (e : Entry) : List Entry := put es (freeIndex es) e

section Lists
variable {es : List Entry} {e : Entry} {i j : ℕ}

theorem freeIndex_le (es : List Entry) : freeIndex es ≤ es.length := List.findIdx_le_length

theorem freeIndex_cons (he : e.node % 256 = 0) : freeIndex (e :: es) = 0 := by
  unfold freeIndex
  rw [List.findIdx_cons, decide_eq_true he]
  rfl

theorem length_put (hi : i ≤ es.length) : (put es i e).length = max es.length (i + 1) := by
  unfold put
  rw [List.length_append, List.length_cons, List.length_take, List.length_drop]
  omega

theorem getElem?_put (hi : i ≤ es.length) :
    (put es i e)[j]? = if j = i then some e else es[j]? := by
  have htake : (es.take i).length = i := by rw [List.length_take, Nat.min_eq_left hi]
  unfold put
  by_cases hlt : j < i
  · rw [if_neg (by omega), List.getElem?_append_left (by omega), List.getElem?_take_of_lt hlt]
  rw [List.getElem?_append_right (by omega), htake]
  by_cases hji : j = i
  · rw [if_pos hji, hji, Nat.sub_self]
    rfl
  · rw [if_neg hji, show j - i = j - (i + 1) + 1 by omega, List.getElem?_cons_succ,
      List.getElem?_drop, show i + 1 + (j - (i + 1)) = j by omega]

/-- If no entry is taken for free, the new one is the last. -/
theorem place_eq_append (h : freeIndex es = es.length) (e : Entry) : place es e = es ++ [e] := by
  unfold place put
  rw [h, List.take_length, List.drop_eq_nil_of_le (Nat.le_succ _)]

end Lists

/-! ## The list in memory -/

structure EntryAt (h : Heap) (ds a : ℕ) (e : Entry) : Prop where
  node : loadLE h.mem a 4 = e.node
  node_ne : e.node ≠ 0
  pointer : loadLE h.mem (a + 4) 4 = e.nameAddr
  live : e.nameAddr ∈ h.live
  ne : e.nameAddr ≠ ds
  fits : e.name.bytes.length < h.size (e.nameAddr - 8)
  string : HasString h.mem e.nameAddr e.name.bytes

/-- The directory has these entries, and there are none at the places in `B`. -/
structure Stored (d : Root) (h : Heap) (es : List Entry) (B : Set ℕ) : Prop where
  live : d.deviceStruct ∈ h.live
  room : d.length ≤ h.size (d.deviceStruct - 8)
  tight : h.size (d.deviceStruct - 8) ≤ 2 * d.length
  dvd : 8 ∣ d.length
  pos : 0 < d.length
  fits : 8 * es.length ≤ d.length
  entries : ∀ i e, es[i]? = some e → EntryAt h d.deviceStruct (d.deviceStruct + 8 * i) e
  blank : ∀ i ∈ B, 8 * i < d.length → loadLE h.mem (d.deviceStruct + 8 * i) 4 = 0

section Storage
variable {d : Root} {h h' : Heap} {es : List Entry} {B B' : Set ℕ} {i : ℕ} {e : Entry}

theorem Stored.mono (hst : Stored d h es B) (hB : ∀ i ∈ B', i ∈ B) : Stored d h es B' :=
  { hst with blank := fun i hi => hst.blank i (hB i hi) }

/-- One more place without an entry. -/
theorem Stored.insert (hst : Stored d h es B)
    (hi : 8 * i < d.length → loadLE h.mem (d.deviceStruct + 8 * i) 4 = 0) :
    Stored d h es (insert i B) := by
  refine { hst with blank := fun j hj => ?_ }
  rcases Set.mem_insert_iff.mp hj with rfl | hj
  · exact hi
  · exact hst.blank j hj

/-- Nothing else matters than the blocks of the directory. -/
theorem Stored.keeps (hst : Stored d h es B)
    (hds : d.deviceStruct ∈ h'.live ∧ KeepsAt h h' d.deviceStruct)
    (hnames : ∀ e ∈ es, e.nameAddr ∈ h'.live ∧ KeepsAt h h' e.nameAddr) : Stored d h' es B := by
  have hroom := hst.room
  have hword : ∀ x, x + 4 ≤ d.length →
      loadLE h'.mem (d.deviceStruct + x) 4 = loadLE h.mem (d.deviceStruct + x) 4 := by
    intro x hx
    apply loadLE_congr
    intro y hy hy'
    exact hds.2.payload y (by omega) (by omega)
  refine ⟨hds.1, ?_, ?_, hst.dvd, hst.pos, hst.fits, fun i e he => ?_, fun i hi hi' => ?_⟩
  · rw [hds.2.size]
    exact hroom
  · rw [hds.2.size]
    exact hst.tight
  · have hat := hst.entries i e he
    have hi := (List.getElem?_eq_some_iff.mp he).1
    have hfits := hst.fits
    obtain ⟨hlive, hkeep⟩ := hnames e (List.mem_of_getElem? he)
    refine ⟨?_, hat.node_ne, ?_, hlive, hat.ne, ?_, fun j hj => ?_⟩
    · rw [hword _ (by omega)]
      exact hat.node
    · rw [Nat.add_assoc, hword _ (by omega), ← Nat.add_assoc]
      exact hat.pointer
    · rw [hkeep.size]
      exact hat.fits
    · have hlt := hat.fits
      rw [hkeep.payload _ (by omega) (by omega)]
      exact hat.string j hj
  · have hdvd := hst.dvd
    rw [hword _ (by omega)]
    exact hst.blank i hi hi'

theorem Stored.keeps_all (hst : Stored d h es B) (hk : Keeps h h') : Stored d h' es B := by
  refine hst.keeps (hk _ hst.live) fun e he => ?_
  obtain ⟨i, hi⟩ := List.getElem?_of_mem he
  exact hk _ (hst.entries i e hi).live

end Storage

/-! ## Storing an entry -/

/-- The stores of `putEntry` for an entry at `a`, whose name is at `p`. -/
structure EntryStores (ds a p node : ℕ) (name : Name) (h h' : Heap) : Prop where
  sound : h'.Sound
  live : h'.live = h.live
  size_ds : h'.size (ds - 8) = h.size (ds - 8)
  size_name : h'.size (p - 8) = h.size (p - 8)
  others : ∀ q ∈ h.live, q ≠ ds → q ≠ p → KeepsAt h h' q
  words : ∀ x, ds ≤ x → x < ds + h.size (ds - 8) → x < a ∨ a + 8 ≤ x → h'.mem x = h.mem x
  node : loadLE h'.mem a 4 = node
  pointer : loadLE h'.mem (a + 4) 4 = p
  string : HasString h'.mem p name.bytes
  free : ∀ x s, h.FreeFrom x s → h'.FreeFrom x s

section Entering
variable {h : Heap} {ds a p node : ℕ} {name : Name}

/-- Two stores into the directory and one into the block of the name. -/
theorem entryStores (hs : h.Sound) (hds : ds ∈ h.live) (hp : p ∈ h.live) (hne : p ≠ ds)
    (ha : ds ≤ a) (ha' : a + 8 ≤ ds + h.size (ds - 8))
    (hlen : name.bytes.length + 1 ≤ h.size (p - 8)) (hnode : node < 2 ^ 32) :
    EntryStores ds a p node name h { h with
      mem := storeLE (overwrite (storeLE h.mem (a + 4) 4 p) p (name.bytes.length + 1)
        (cstring name.bytes)) a 4 node } := by
  have hapart := hs.apart hp hds hne
  have hplt := (hs.bounds hp).2
  have h1 := hs.store hds (m := storeLE h.mem (a + 4) 4 p) fun x hx =>
    storeLE_apply_of_lt (by omega)
  have hk1 := h1.others p hp hne
  have h2 := h1.sound.store (p := p) hp (m := overwrite (storeLE h.mem (a + 4) 4 p) p
      (name.bytes.length + 1) (cstring name.bytes)) fun x hx => by
    rw [hk1.size] at hx
    exact overwrite_of_notMem (by omega)
  have hk2 := h2.others ds hds hne.symm
  have h3 := h2.sound.store (p := ds) hds (m := storeLE (overwrite (storeLE h.mem (a + 4) 4 p) p
      (name.bytes.length + 1) (cstring name.bytes)) a 4 node) fun x hx => by
    rw [hk2.size, h1.size] at hx
    exact storeLE_apply_of_lt (by omega)
  have hk3 := h3.others p hp hne
  refine ⟨h3.sound, rfl, ?_, ?_, fun q hq hqds hqp => ?_, fun x hx hx' hxa => ?_, ?_, ?_,
    fun i hi => ?_, fun x s hfree => h3.free x s (h2.free x s (h1.free x s hfree))⟩
  · exact h3.size.trans (hk2.size.trans h1.size)
  · exact hk3.size.trans (h2.size.trans hk1.size)
  · exact (h1.others q hq hqds).trans ((h2.others q hq hqp).trans (h3.others q hq hqds))
  · dsimp only
    rw [storeLE_apply_of_lt (by omega), overwrite_of_notMem (by omega),
      storeLE_apply_of_lt (by omega)]
  · exact loadLE_storeLE_of_lt (by omega)
  · dsimp only
    rw [loadLE_storeLE_of_disjoint (by omega)]
    have hframe : loadLE (overwrite (storeLE h.mem (a + 4) 4 p) p (name.bytes.length + 1)
        (cstring name.bytes)) (a + 4) 4 = loadLE (storeLE h.mem (a + 4) 4 p) (a + 4) 4 := by
      apply loadLE_congr
      intro x hx hx'
      exact overwrite_of_notMem (by omega)
    rw [hframe]
    exact loadLE_storeLE_of_lt (by omega)
  · dsimp only
    rw [storeLE_apply_of_lt (by omega), overwrite_of_mem (by omega) (by omega),
      Nat.add_sub_cancel_left]
    rfl

variable {k : Kernel} {d : Root} {es : List Entry} {B : Set ℕ} {i fuel : ℕ}

/-- The entry at place `i` is the new one, and all others stay. -/
theorem Stored.put {h' : Heap} (hst : Stored d h es B) (hi : i ≤ es.length)
    (hcap : 8 * i < d.length) (hnode : node ≠ 0) (hp : p ∈ h.live)
    (hne : p ≠ d.deviceStruct) (hfresh : ∀ e ∈ es, e.nameAddr ≠ p)
    (hlen : name.bytes.length < h.size (p - 8))
    (h1 : EntryStores d.deviceStruct (d.deviceStruct + 8 * i) p node name h h') :
    Stored d h' (put es i ⟨name, node, p⟩) (B \ {i}) := by
  have hroom := hst.room
  have hdvd := hst.dvd
  have hword : ∀ x, x + 4 ≤ d.length → x + 4 ≤ 8 * i ∨ 8 * i + 8 ≤ x →
      loadLE h'.mem (d.deviceStruct + x) 4 = loadLE h.mem (d.deviceStruct + x) 4 := by
    intro x hx hxi
    apply loadLE_congr
    intro y hy hy'
    exact h1.words y (by omega) (by omega) (by omega)
  refine ⟨?_, ?_, ?_, hst.dvd, hst.pos, ?_, fun j e he => ?_, fun j hj hj' => ?_⟩
  · rw [h1.live]
    exact hst.live
  · rw [h1.size_ds]
    exact hroom
  · rw [h1.size_ds]
    exact hst.tight
  · have hfits := hst.fits
    rw [length_put hi]
    omega
  · rw [getElem?_put hi] at he
    by_cases hji : j = i
    · rw [if_pos hji, Option.some.injEq] at he
      subst he hji
      refine ⟨h1.node, hnode, h1.pointer, ?_, hne, ?_, h1.string⟩
      · rw [h1.live]
        exact hp
      · rw [h1.size_name]
        exact hlen
    · rw [if_neg hji] at he
      have hat := hst.entries j e he
      have hj := (List.getElem?_eq_some_iff.mp he).1
      have hfits := hst.fits
      have hkeep := h1.others _ hat.live hat.ne (hfresh e (List.mem_of_getElem? he))
      refine ⟨?_, hat.node_ne, ?_, ?_, hat.ne, ?_, fun x hx => ?_⟩
      · rw [hword _ (by omega) (by omega)]
        exact hat.node
      · rw [Nat.add_assoc, hword _ (by omega) (by omega), ← Nat.add_assoc]
        exact hat.pointer
      · rw [h1.live]
        exact hat.live
      · rw [hkeep.size]
        exact hat.fits
      · have hlt := hat.fits
        rw [hkeep.payload _ (by omega) (by omega)]
        exact hat.string x hx
  · have hji : j ≠ i := hj.2
    rw [hword _ (by omega) (by omega)]
    exact hst.blank j hj.1 hj'

theorem Stored.putEntry_holds (hs : k.heap.Sound) (hst : Stored d k.heap es B) (hi : i ≤ es.length)
    (hcap : 8 * i < d.length) (hnode : node ≠ 0) (hnode' : node < 2 ^ 32) :
    Holds (putEntry fuel name node (d.deviceStruct + 8 * i) k)
      (fun k' => k'.heap.Sound ∧
        ∃ p, Stored d k'.heap (Devfs.put es i ⟨name, node, p⟩) (B \ {i}))
      (AllocFails fuel) := by
  unfold putEntry
  rw [holds_bind]
  refine (hs.kmalloc_holds name.fits).mono (fun r hnew => ?_) (fun e he => he)
  have hdvd := hst.dvd
  have hst1 := hst.keeps_all hnew.keeps
  have hroom := hst1.room
  have hne : r.1 ≠ d.deviceStruct := fun heq => hnew.fresh (heq ▸ hst.live)
  have hstores := @entryStores _ _ (d.deviceStruct + 8 * i) _ _ name hnew.sound hst1.live hnew.live
    hne (Nat.le_add_right _ _) (by omega) hnew.enough hnode'
  refine ⟨hstores.sound, r.1, hst1.put hi hcap hnode hnew.live hne ?_ hnew.enough hstores⟩
  intro e he heq
  obtain ⟨j, hj⟩ := List.getElem?_of_mem he
  exact hnew.fresh (heq ▸ (hst.entries j e hj).live)

end Entering

/-! ## Finding a free entry -/

/-- No entry has zero as its first byte. -/
def Full (d : Root) (h : Heap) : Prop := ∀ i, 8 * i < d.length → h.mem (d.deviceStruct + 8 * i) ≠ 0

section Searching
variable {d : Root} {h : Heap} {es : List Entry} {B : Set ℕ} {i : ℕ} {e : Entry}

theorem firstByte_eq_zero_iff (m : Mem) (a : ℕ) : m a = 0 ↔ loadLE m a 4 % 256 = 0 := by
  have hlow : loadLE m a 4 % 256 = (m a).toNat := by
    have hbyte := (m a).toNat_lt
    rw [loadLE]
    omega
  rw [hlow, ← UInt8.toNat_inj]
  rfl

theorem Stored.firstByte (hst : Stored d h es B) (he : es[i]? = some e) :
    h.mem (d.deviceStruct + 8 * i) = 0 ↔ e.node % 256 = 0 := by
  rw [firstByte_eq_zero_iff, (hst.entries i e he).node]

/-- The search stops at the first entry that is taken for free. -/
theorem Stored.slotLoop_eq (hst : Stored d h es B) (hB : es.length ∈ B) {fuel j : ℕ}
    (hj : j ≤ freeIndex es) (hfuel : d.length ≤ 8 * j + fuel) :
    slotLoop h.mem (d.deviceStruct + d.length) fuel (d.deviceStruct + 8 * j) =
      if 8 * freeIndex es < d.length then (true, d.deviceStruct + 8 * freeIndex es)
      else (false, d.deviceStruct + d.length) := by
  have hfree := freeIndex_le es
  have hfits := hst.fits
  have hdvd := hst.dvd
  induction fuel generalizing j with
  | zero =>
    rw [slotLoop, if_neg (by omega), show 8 * j = d.length by omega]
  | succ fuel ih =>
    rw [slotLoop]
    by_cases hstop : d.deviceStruct + 8 * j < d.deviceStruct + d.length
    · rw [if_pos hstop]
      by_cases hji : j = freeIndex es
      · have hzero : h.mem (d.deviceStruct + 8 * j) = 0 := by
          by_cases hlt : j < es.length
          · have hfound : freeIndex es < es.length := hji ▸ hlt
            apply (hst.firstByte (List.getElem?_eq_getElem hlt)).mpr
            subst hji
            exact of_decide_eq_true (List.findIdx_getElem (w := hfound))
          · have hend : j = es.length := by omega
            rw [firstByte_eq_zero_iff, hst.blank j (hend ▸ hB) (by omega)]
        rw [if_pos hzero, hji, if_pos (by omega)]
      · have hlt : j < es.length := by omega
        have hne : h.mem (d.deviceStruct + 8 * j) ≠ 0 := by
          rw [ne_eq, hst.firstByte (List.getElem?_eq_getElem hlt)]
          have hbefore := List.not_of_lt_findIdx (show j < freeIndex es by omega)
          exact of_decide_eq_false hbefore
        rw [if_neg hne, sizeofDevfsDirent, Nat.add_assoc, show 8 * j + 8 = 8 * (j + 1) by omega,
          ih (by omega) (by omega)]
    · rw [if_neg hstop, if_neg (by omega), show 8 * j = d.length by omega]

/-- The whole search. -/
theorem Stored.search (hst : Stored d h es B) (hB : es.length ∈ B) :
    slotLoop h.mem (d.deviceStruct + d.length) d.length d.deviceStruct =
      if 8 * freeIndex es < d.length then (true, d.deviceStruct + 8 * freeIndex es)
      else (false, d.deviceStruct + d.length) := by
  apply hst.slotLoop_eq hB (Nat.zero_le _)
  omega

/-- If the search fails, the directory is full. -/
theorem Stored.full (hst : Stored d h es B) (hfull : ¬8 * freeIndex es < d.length) :
    freeIndex es = es.length ∧ 8 * es.length = d.length ∧ Full d h := by
  have hfree := freeIndex_le es
  have hfits := hst.fits
  have hdvd := hst.dvd
  refine ⟨by omega, by omega, fun i hi => ?_⟩
  have hlt : i < es.length := by omega
  rw [ne_eq, hst.firstByte (List.getElem?_eq_getElem hlt)]
  have hbefore := List.not_of_lt_findIdx (show i < freeIndex es by omega)
  exact of_decide_eq_false hbefore

end Searching

/-! ## Registering -/

section Registering
variable {d : Root} {k k' : Kernel} {es : List Entry} {B : Set ℕ} {np fuel node : ℕ} {name : Name}

theorem loadLE_shift {m m' : Mem} {a b o l : ℕ} (h : ∀ x < o + l, m' (b + x) = m (a + x)) :
    loadLE m' (b + o) l = loadLE m (a + o) l := by
  rw [← PackedStruct.loadLE_window, ← PackedStruct.loadLE_window]
  apply loadLE_congr
  intro x _ hx
  exact h x (by omega)

/-- The old entries are in the first half of the new array. -/
theorem Stored.grown (hst : Stored d k.heap es B) (hfull : 8 * es.length = d.length)
    (hn : alignup (2 * d.length) 4 = 2 * d.length)
    (hm : Moved d.deviceStruct (2 * d.length) np k k') :
    Stored { d with deviceStruct := np, length := 2 * d.length } k'.heap es ∅ := by
  have hroom := hst.room
  have hdvd := hst.dvd
  have hpos := hst.pos
  have hcopied := hm.moved.contents
  have hword : ∀ x, x + 4 ≤ d.length →
      loadLE k'.heap.mem (np + x) 4 = loadLE k.heap.mem (d.deviceStruct + x) 4 :=
    fun x hx => loadLE_shift fun y hy => hcopied y (by omega)
  refine ⟨hm.moved.live, ?_, ?_, ?_, ?_, ?_, fun i e he => ?_, nofun⟩
  · obtain ⟨s, hs, hle⟩ := hm.moved.enough
    unfold kheapGetSize at hs
    rw [sizeofBlockHeader] at hs
    dsimp only at hs
    split_ifs at hs
    · cases hs
    · injection hs with hs
      rw [hs]
      exact hle
  · have hmost := hm.most
    dsimp only
    omega
  · dsimp only
    omega
  · dsimp only
    omega
  · dsimp only
    omega
  · have hat := hst.entries i e he
    have hi := (List.getElem?_eq_some_iff.mp he).1
    obtain ⟨hlive, hkeep⟩ := hm.moved.others _ hat.live hat.ne
    refine ⟨?_, hat.node_ne, ?_, hlive, ?_, ?_, fun j hj => ?_⟩
    · rw [hword _ (by omega)]
      exact hat.node
    · rw [Nat.add_assoc, hword _ (by omega), ← Nat.add_assoc]
      exact hat.pointer
    · intro heq
      dsimp only at heq
      exact hm.fresh (heq ▸ hat.live)
    · rw [hkeep.size]
      exact hat.fits
    · have hlt := hat.fits
      rw [hkeep.payload _ (by omega) (by omega)]
      exact hat.string j hj

/-- The length of an array on the heap stays small when it is doubled. -/
theorem Stored.double (hs : k.heap.Sound) (hst : Stored d k.heap es B) :
    u32 (2 * d.length % 2 ^ 64) = 2 * d.length ∧ 2 * d.length % 2 ^ 64 = 2 * d.length ∧
      2 * d.length ≤ 0xFFFFFFFC ∧ alignup (2 * d.length) 4 = 2 * d.length := by
  have hbounds := hs.bounds hst.live
  have hroom := hst.room
  have hdvd := hst.dvd
  unfold kheapBaseStart at hbounds
  have hsmall : 2 * d.length % 2 ^ 64 = 2 * d.length := Nat.mod_eq_of_lt (by omega)
  refine ⟨?_, hsmall, by omega, alignup_of_dvd (by omega)⟩
  rw [hsmall]
  exact u32_of_lt (by omega)

/-- Behind place `n` there is no entry, also when the directory has to grow for place `n`. -/
structure BlankBehind (fuel : ℕ) (d : Root) (k : Kernel) (n : ℕ) : Prop where
  here : 8 * n < d.length → 8 * (n + 1) < d.length →
    loadLE k.heap.mem (d.deviceStruct + 8 * (n + 1)) 4 = 0
  grown : d.length ≤ 8 * n → ∀ np k', krealloc fuel d.deviceStruct (2 * d.length) k = .ok (np, k') →
    8 * (n + 1) < 2 * d.length → loadLE k'.heap.mem (np + 8 * (n + 1)) 4 = 0

/-- The new entry takes the first place that is taken for free. -/
theorem placeNode_holds (hs : k.heap.Sound) (hst : Stored d k.heap es {es.length})
    (hnode : node ≠ 0) (hnode' : node < 2 ^ 32) :
    Holds (placeNode fuel name node d k)
      (fun r => r.2.heap.Sound ∧ ((freeIndex es = es.length → BlankBehind fuel d k es.length) →
        ∃ p, Stored r.1 r.2.heap (place es ⟨name, node, p⟩) {(place es ⟨name, node, p⟩).length}))
      (AllocFails fuel) := by
  have hsearch := hst.search rfl
  have hfree := freeIndex_le es
  unfold placeNode
  rw [hsearch]
  by_cases hcap : 8 * freeIndex es < d.length
  · rw [if_pos hcap]
    dsimp only
    rw [if_pos rfl, holds_bind]
    by_cases hblank : freeIndex es = es.length → BlankBehind fuel d k es.length
    · -- the place behind the list after the call is known to be blank
      have hbehind : Stored d k.heap es {(place es ⟨name, node, 0⟩).length, es.length} := by
        apply hst.insert
        unfold place
        rw [length_put hfree]
        by_cases hend : freeIndex es = es.length
        · rw [hend, Nat.max_eq_right (Nat.le_succ _)]
          exact (hblank hend).here (hend ▸ hcap)
        · rw [Nat.max_eq_left (by omega)]
          exact hst.blank es.length rfl
      refine (hbehind.putEntry_holds hs hfree hcap hnode hnode').mono (fun k' hk' => ?_)
        fun e he => he
      obtain ⟨hsound, p, hput⟩ := hk'
      refine ⟨hsound, fun _ => ⟨p, hput.mono fun i hi => ?_⟩⟩
      rw [Set.mem_singleton_iff.mp hi]
      unfold place
      rw [length_put hfree, length_put hfree]
      refine ⟨Or.inl rfl, fun heq => ?_⟩
      rw [Set.mem_singleton_iff] at heq
      omega
    · refine (hst.putEntry_holds hs hfree hcap hnode hnode').mono (fun k' hk' => ?_) fun e he => he
      exact ⟨hk'.1, fun h => absurd h hblank⟩
  · obtain ⟨hlast, hlength, _⟩ := hst.full hcap
    obtain ⟨hu32, hsmall, hle, halign⟩ := hst.double hs
    rw [if_neg hcap]
    dsimp only
    rw [if_neg Bool.false_ne_true, Nat.add_sub_cancel_left, hu32, hsmall, holds_bind]
    cases hre : krealloc fuel d.deviceStruct (2 * d.length) k with
    | error e =>
      exact (hs.krealloc_holds hst.live hle hst.tight).of_error hre
    | ok r =>
      have hmoved := (hs.krealloc_holds hst.live hle hst.tight).of_ok hre
      have hgrown := hst.grown hlength halign hmoved
      have hcap' : 8 * es.length < 2 * d.length := by
        have := hst.pos
        omega
      rw [holds_ok, holds_bind]
      by_cases hblank : freeIndex es = es.length → BlankBehind fuel d k es.length
      · have hbehind := hgrown.insert (i := es.length + 1)
          ((hblank hlast).grown (by omega) r.1 r.2 hre)
        have hplace : ∀ e, place es e = put es es.length e ∧
            (put es es.length e).length = es.length + 1 := by
          intro e
          refine ⟨by rw [place, hlast], ?_⟩
          rw [length_put le_rfl, Nat.max_eq_right (Nat.le_succ _)]
        rw [← hlength] at hbehind hcap' ⊢
        refine (hbehind.putEntry_holds hmoved.sound le_rfl hcap' hnode hnode').mono
          (fun k' hk' => ?_) fun e he => he
        obtain ⟨hsound, p, hput⟩ := hk'
        refine ⟨hsound, fun _ => ⟨p, ?_⟩⟩
        rw [(hplace _).1, (hplace _).2]
        apply hput.mono
        intro i hi
        rw [Set.mem_singleton_iff.mp hi]
        exact ⟨Or.inl rfl, Nat.succ_ne_self _⟩
      · rw [← hlength]
        rw [← hlength] at hgrown hcap'
        refine (hgrown.putEntry_holds hmoved.sound le_rfl hcap' hnode hnode').mono
          (fun k' hk' => ?_) fun e he => he
        exact ⟨hk'.1, fun h => absurd h hblank⟩

theorem Stored.nodes {h : Heap} (hst : Stored d h es B) (nodes : ℕ → Option DevNode) :
    Stored { d with nodes } h es B :=
  ⟨hst.live, hst.room, hst.tight, hst.dvd, hst.pos, hst.fits, hst.entries, hst.blank⟩

variable {now : ℤ} {device deviceType deviceInfo : ℕ}

/-- Registering returns a node and puts it into the list. -/
theorem register_holds (hs : k.heap.Sound) (hst : Stored d k.heap es {es.length}) :
    Holds (devfsRegisterDevice fuel now name device deviceType deviceInfo d k)
      (fun r => r.2.2.heap.Sound ∧ r.1 ≠ 0 ∧ ((freeIndex es = es.length → ∀ node k1 spe k2,
          kmalloc fuel sizeofFsnode k = .ok (node, k1) →
          kmalloc fuel sizeofNodeSpecific k1 = .ok (spe, k2) → BlankBehind fuel d k2 es.length) →
        ∃ p, Stored r.2.1 r.2.2.heap (place es ⟨name, r.1, p⟩) {(place es ⟨name, r.1, p⟩).length}))
      (AllocFails fuel) := by
  unfold devfsRegisterDevice
  rw [holds_bind]
  cases hm : kmalloc fuel sizeofFsnode k with
  | error e => exact (hs.kmalloc_holds (by decide)).of_error hm
  | ok r =>
    have hnode := hs.kmalloc (by decide) hm
    rw [holds_ok, holds_bind]
    cases hm' : kmalloc fuel sizeofNodeSpecific r.2 with
    | error e => exact (hnode.sound.kmalloc_holds (by decide)).of_error hm'
    | ok r' =>
      have hspe := hnode.sound.kmalloc (by decide) hm'
      have hst' := (hst.keeps_all hnode.keeps).keeps_all hspe.keeps
      rw [holds_ok, holds_bind]
      refine (placeNode_holds hspe.sound (hst'.nodes _) hnode.pos.ne' hnode.lt).mono
        (fun q hq => ?_) fun e he => he
      refine ⟨hq.1, hnode.pos.ne', fun hblank => hq.2 fun hend => ?_⟩
      obtain ⟨hhere, hgrown⟩ := hblank hend r.1 r.2 r'.1 r'.2 rfl hm'
      exact ⟨hhere, hgrown⟩

/-- A new directory has no entries. -/
theorem devfsInit_holds (hs : k.heap.Sound) : Holds (devfsInit fuel k)
    (fun r => r.2.heap.Sound ∧ Stored r.1 r.2.heap [] Set.univ) (AllocFails fuel) := by
  unfold devfsInit
  rw [holds_bind]
  refine (hs.kmalloc_holds (by decide)).mono (fun r1 h1 => ?_) fun e he => he
  rw [holds_bind]
  refine (h1.sound.kmalloc_holds (by decide)).mono (fun r2 h2 => ?_) fun e he => he
  rw [holds_bind]
  refine (h2.sound.kmalloc_holds (by decide)).mono (fun r3 h3 => ?_) fun e he => he
  rw [holds_bind]
  refine (h3.sound.kmalloc_holds (by decide)).mono (fun r4 h4 => ?_) fun e he => he
  have henough := h4.enough
  have hmost := h4.most
  have halign : alignup dirSizeDefault 4 = 80 := by decide
  rw [halign] at hmost
  have hsize : dirSizeDefault = 80 := rfl
  rw [hsize] at henough
  have hfill := h4.sound.store h4.live
    (m := ByteMemory.fill r4.2.heap.mem r4.1 dirSizeDefault 0) fun x hx => if_neg (by omega)
  have hsame := hfill.size
  have hdvd : 8 ∣ dirSizeDefault := by decide
  have hpos : 0 < dirSizeDefault := by decide
  refine ⟨hfill.sound, h4.live, ?_, ?_, hdvd, hpos, Nat.zero_le _, nofun, fun i _ hi => ?_⟩
  · dsimp only at hsame ⊢
    omega
  · dsimp only at hsame ⊢
    omega
  · dsimp only at hi ⊢
    have hzero : loadLE (ByteMemory.fill r4.2.heap.mem r4.1 dirSizeDefault 0) (r4.1 + 8 * i) 4 =
        0 % 256 ^ 4 := by
      apply loadLE_of_bytes
      intro j hj
      rw [Nat.zero_div]
      exact if_pos (by omega)
    exact hzero

end Registering

/-! ## Registering where the end of the heap is free -/

section Returning
variable {d : Root} {k : Kernel} {es : List Entry} {B : Set ℕ} {fuel node i a s : ℕ} {name : Name}
  {now : ℤ} {device deviceType deviceInfo : ℕ}

theorem Stored.putEntry_returns (hfree : k.heap.FreeFrom a s) (hst : Stored d k.heap es B)
    (hcap : 8 * i < d.length) (hnode : node < 2 ^ 32)
    (hroom : alignup (name.bytes.length + 1) 4 + 8 < s) :
    ∃ k', putEntry (fuel + 1) name node (d.deviceStruct + 8 * i) k = .ok k' ∧
      k'.heap.FreeFrom (a + 8 + alignup (name.bytes.length + 1) 4)
        (s - alignup (name.bytes.length + 1) 4 - 8) := by
  obtain ⟨k1, hm, hfree1⟩ := hfree.kmalloc name.fits hroom fuel
  have hnew := hfree.sound.kmalloc name.fits hm
  have hst1 := hst.keeps_all hnew.keeps
  have hdvd := hst.dvd
  have hroom1 := hst1.room
  have hne : a + 8 ≠ d.deviceStruct := fun heq => hnew.fresh (heq ▸ hst.live)
  have hstores := @entryStores _ _ (d.deviceStruct + 8 * i) _ _ name hnew.sound hst1.live hnew.live
    hne (Nat.le_add_right _ _) (by omega) hnew.enough hnode
  refine ⟨{ k1 with heap := { k1.heap with mem := _ } }, ?_, hstores.free _ _ hfree1⟩
  unfold putEntry
  rw [hm]
  rfl

/-- Until the directory is full, registering returns the next block as the node. -/
theorem Stored.register_returns (hfree : k.heap.FreeFrom a s) (hst : Stored d k.heap es {es.length})
    (hcap : 8 * freeIndex es < d.length)
    (hroom : 72 + alignup (name.bytes.length + 1) 4 < s) :
    ∃ d' k', devfsRegisterDevice (fuel + 1) now name device deviceType deviceInfo d k =
        .ok (a + 8, d', k') ∧
      k'.heap.FreeFrom (a + 72 + alignup (name.bytes.length + 1) 4)
        (s - 72 - alignup (name.bytes.length + 1) 4) := by
  have hfsnode : alignup sizeofFsnode 4 = 36 := by decide
  have hspecific : alignup sizeofNodeSpecific 4 = 12 := by decide
  obtain ⟨k1, hm1, hfree1⟩ := hfree.kmalloc (n := sizeofFsnode) (by decide) (by omega) fuel
  have hnew := hfree.sound.kmalloc (by decide) hm1
  obtain ⟨k2, hm2, hfree2⟩ := hfree1.kmalloc (n := sizeofNodeSpecific) (by decide) (by omega) fuel
  have hspe := hfree1.sound.kmalloc (by decide) hm2
  have hst2 := (hst.keeps_all hnew.keeps).keeps_all hspe.keeps
  obtain ⟨k3, hput, hfree3⟩ := @Stored.putEntry_returns _ _ _ _ fuel _ _ _ _ name hfree2 hst2 hcap
    hnew.lt (by omega)
  have hsearch := hst2.search rfl
  rw [if_pos hcap] at hsearch
  refine ⟨{ d with nodes := Function.update d.nodes (a + 8) (some ⟨0, 0, now, now, now,
    a + 8 + alignup sizeofFsnode 4 + 8, device, deviceType, deviceInfo⟩) }, k3, ?_, ?_⟩
  · unfold devfsRegisterDevice placeNode
    rw [hm1, ok_bind]
    dsimp only
    rw [hm2, ok_bind]
    dsimp only
    rw [hsearch]
    dsimp only
    rw [if_pos rfl, hput]
    rfl
  · rw [hfsnode, hspecific] at hfree3
    have haddr : a + 8 + 36 + 8 + 12 + 8 + alignup (name.bytes.length + 1) 4 =
        a + 72 + alignup (name.bytes.length + 1) 4 := by omega
    have hsize : s - 36 - 8 - 12 - 8 - alignup (name.bytes.length + 1) 4 - 8 =
        s - 72 - alignup (name.bytes.length + 1) 4 := by omega
    rw [haddr, hsize] at hfree3
    exact hfree3

theorem devfsInit_returns (hfree : k.heap.FreeFrom a s) (hroom : 188 < s) :
    ∃ d k', devfsInit (fuel + 1) k = .ok (d, k') ∧ k'.heap.FreeFrom (a + 188) (s - 188) := by
  have hfileSystem : alignup sizeofFileSystem 4 = 28 := by decide
  have hfsnode : alignup sizeofFsnode 4 = 36 := by decide
  have hspecific : alignup sizeofNodeSpecific 4 = 12 := by decide
  have hdirSize : alignup dirSizeDefault 4 = 80 := by decide
  have hlength : dirSizeDefault = 80 := rfl
  obtain ⟨k1, hm1, hfree1⟩ := hfree.kmalloc (n := sizeofFileSystem) (by decide) (by omega) fuel
  obtain ⟨k2, hm2, hfree2⟩ := hfree1.kmalloc (n := sizeofFsnode) (by decide) (by omega) fuel
  obtain ⟨k3, hm3, hfree3⟩ := hfree2.kmalloc (n := sizeofNodeSpecific) (by decide) (by omega) fuel
  obtain ⟨k4, hm4, hfree4⟩ := hfree3.kmalloc (n := dirSizeDefault) (by decide) (by omega) fuel
  have hnew := hfree3.sound.kmalloc (by decide) hm4
  have henough := hnew.enough
  rw [hlength] at henough
  have hfill := hfree4.store (m := ByteMemory.fill k4.heap.mem (a + 8 + alignup sizeofFileSystem 4 +
    8 + alignup sizeofFsnode 4 + 8 + alignup sizeofNodeSpecific 4 + 8) dirSizeDefault 0) hnew.live
    fun x hx => if_neg (by omega)
  have hrun : ∃ d, devfsInit (fuel + 1) k = .ok (d, { k4 with heap := { k4.heap with
      mem := ByteMemory.fill k4.heap.mem (a + 8 + alignup sizeofFileSystem 4 + 8 +
        alignup sizeofFsnode 4 + 8 + alignup sizeofNodeSpecific 4 + 8) dirSizeDefault 0 } }) := by
    unfold devfsInit
    rw [hm1, ok_bind]
    dsimp only
    rw [hm2, ok_bind]
    dsimp only
    rw [hm3, ok_bind]
    dsimp only
    rw [hm4]
    exact ⟨_, rfl⟩
  obtain ⟨d, hrun⟩ := hrun
  refine ⟨d, _, hrun, ?_⟩
  have haddr : a + 8 + 28 + 8 + 36 + 8 + 12 + 8 + 80 = a + 188 := by omega
  have hsize : s - 28 - 8 - 36 - 8 - 12 - 8 - 80 - 8 = s - 188 := by omega
  rw [hfileSystem, hfsnode, hspecific, hdirSize, haddr, hsize] at hfill
  rw [hfileSystem, hfsnode, hspecific]
  exact hfill
end Returning
end VkKernel.Devfs
