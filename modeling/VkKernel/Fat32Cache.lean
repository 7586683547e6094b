import VkKernel.Lib.Trace
import VkKernel.Fat32

/-!
# The node cache of FAT32

Nodes of opened and created files are kept in a list that is found by the first
cluster of a file. The list has no end mark, only a length. `fat32_unlink` takes a
node out of the list and leaves the length as it is, and entries of empty files all
have the first cluster 0.
-/

namespace VkKernel.Fat32
open Trace

/-- A live directory entry: the first cluster of its directory, its own first cluster,
and whether it has a long name. -/
structure Dirent where
  dir : ℕ
  cluster : ℕ
  long : Bool
deriving DecidableEq

/-- The list has entries with `next` and `element`, and nodes with their cluster; what
is not allocated has any content. `listed` is ghost state: the entries that were put
into the list and not taken out of it. -/
structure CacheState where
  next : ℕ → ℕ
  element : ℕ → ℕ
  cluster : ℕ → ℕ
  inodeCache : ℕ
  inodeCacheSize : ℕ
  cells : Finset ℕ
  nodes : Finset ℕ
  listed : List ℕ
  dirents : List Dirent
  fat : Fat

namespace CacheState

/-- The loop of `fat32_dirent_normalize_cache` over the cache. -/
def lookup (s : CacheState) (c : ℕ) : ℕ → ℕ → Option ℕ
  | 0, _ => none
  | isize + 1, iptr =>
    if iptr = 0 then none
    else if s.cluster (s.element iptr) = c then some (s.element iptr)
    else s.lookup c isize (s.next iptr)

/-- The node that an entry with this first cluster resolves to. -/
def resolve (s : CacheState) (c : ℕ) : Option ℕ := s.lookup c s.inodeCacheSize s.inodeCache

/-- The loop to the last entry of the cache. -/
def lastEntry (next : ℕ → ℕ) : ℕ → ℕ → ℕ → ℕ
  | 0, _, last => last
  | size + 1, ptr, last => if ptr = 0 then last else lastEntry next size (next ptr) ptr

/-- Cache a new node in a new entry, whose `next` is not set. -/
def cacheNode (s : CacheState) (cell node c : ℕ) : CacheState :=
  { s with
    next := if s.inodeCache = 0 then s.next
      else Function.update s.next (lastEntry s.next s.inodeCacheSize s.inodeCache 0) cell
    element := Function.update s.element cell node
    cluster := Function.update s.cluster node c
    inodeCache := if s.inodeCache = 0 then cell else s.inodeCache
    inodeCacheSize := s.inodeCacheSize + 1
    cells := insert cell s.cells
    nodes := insert node s.nodes
    listed := s.listed ++ [cell] }

/-- `fat32_dirent_normalize_cache`, with memory for a new node if there has to be one. -/
def normalizeCache (s : CacheState) (c cell node : ℕ) : CacheState :=
  if (s.resolve c).isSome then s else s.cacheNode cell node c

/-- `fat32_create_file` in the directory `dir`. `grow` is the last cluster of the
directory if it has to be extended, and `created` says whether there is an entry in the
end. -/
def createFile (s : CacheState) (dir cell node : ℕ) (grow : Option ℕ) (created : Bool) :
    Option CacheState :=
  match s.fat.gmFreeClusters 1 with
  | none => none
  | some (c, fat) =>
    let t := { s.cacheNode cell node c with
      fat := fat
      dirents := if created then s.dirents ++ [⟨dir, c, true⟩] else s.dirents }
    match grow with
    | none => some t
    | some last => (fat.gmFreeClusters 1).map fun (f, fat) => { t with fat := fat.set last f }

/-- `fat32fs_free_cluster_chain` inside the table. -/
def freeClusterChain (fat : Fat) (c : ℕ) : Option Fat :=
  (fat.getClusterChain c).map (List.foldl (fun fat d => fat.set d 0) fat)

/-- The loop of `fat32_unlink` over the cache. It goes on from an entry that it has
freed, and there is no result if it writes through a null pointer. -/
def uncache (c : ℕ) : ℕ → ℕ → ℕ → CacheState → Option CacheState
  | 0, _, _, s => some s
  | isize + 1, iptr, last, s =>
    if iptr = 0 then some s
    else if s.cluster (s.element iptr) = c then
      if last = 0 then none
      else
        uncache c isize (s.next iptr) iptr { s with
          next := Function.update s.next last (s.next iptr)
          cells := s.cells.erase iptr
          nodes := s.nodes.erase (s.element iptr)
          listed := s.listed.erase iptr }
    else uncache c isize (s.next iptr) iptr s

/-- The entry that `fat32fs_delete_dirent` deletes: the first one with a long name and
this first cluster in the directory. -/
def findDirent (s : CacheState) (dir c : ℕ) : Option ℕ :=
  s.dirents.findIdx? fun d => d.dir = dir ∧ d.cluster = c ∧ d.long = true

/-- `fat32_unlink` of the file of entry `d`. -/
def unlink (s : CacheState) (d : Dirent) (cell node : ℕ) : Option CacheState :=
  let s := s.normalizeCache d.cluster cell node
  match s.findDirent d.dir d.cluster with
  | none => some s
  | some i =>
    (freeClusterChain s.fat d.cluster).bind fun fat =>
      uncache d.cluster s.inodeCacheSize s.inodeCache 0
        { s with dirents := s.dirents.eraseIdx i, fat := fat }

end CacheState

/-- The steps; `i` is the place of the entry that a name stands for. -/
inductive CacheAction
  | openFile (i cell node : ℕ)
  | createFile (dir cell node : ℕ) (grow : Option ℕ) (created : Bool)
  | unlink (i cell node : ℕ)

namespace CacheState

/-- Memory that is allocated is new. -/
def New (s : CacheState) (cell node : ℕ) : Prop := cell ≠ 0 ∧ cell ∉ s.cells ∧ node ∉ s.nodes

instance (s : CacheState) (cell node : ℕ) : Decidable (s.New cell node) :=
  inferInstanceAs (Decidable (_ ∧ _ ∧ _))

def step (s : CacheState) : CacheAction → Option CacheState
  | .openFile i cell node =>
    if s.New cell node then (s.dirents[i]?).map fun d => s.normalizeCache d.cluster cell node
    else none
  | .createFile dir cell node grow created =>
    if s.New cell node then s.createFile dir cell node grow created else none
  | .unlink i cell node =>
    if s.New cell node then (s.dirents[i]?).bind fun d => s.unlink d cell node else none

/-- The entries `l` are met from `p` on. -/
def Linked (next : ℕ → ℕ) : ℕ → List ℕ → Prop
  | _, [] => True
  | p, a :: l => p = a ∧ a ≠ 0 ∧ Linked next (next a) l

/-- The length is right, no node of the list is freed, and no two entries of
directories resolve to one node. -/
structure Consistent (s : CacheState) : Prop where
  linked : Linked s.next s.inodeCache s.listed
  size : s.inodeCacheSize = s.listed.length
  alive : ∀ a ∈ s.listed, a ∈ s.cells ∧ s.element a ∈ s.nodes
  unshared : ∀ i j (hi : i < s.dirents.length) (hj : j < s.dirents.length) node,
    s.resolve s.dirents[i].cluster = some node → s.resolve s.dirents[j].cluster = some node → i = j

/-- No other entry has the first cluster of this one. -/
def Alone (s : CacheState) (i : ℕ) : Prop :=
  ∀ d, s.dirents[i]? = some d → ∀ j (hj : j < s.dirents.length), s.dirents[j].cluster = d.cluster → j = i

/-- Files are opened by entries that share their first cluster with no other one, and a
file with a long name is not unlinked. -/
def Careful (s : CacheState) : CacheAction → Prop
  | .openFile i _ _ => s.Alone i
  | .createFile .. => True
  | .unlink i _ _ => s.Alone i ∧ ∀ d, s.dirents[i]? = some d → s.findDirent d.dir d.cluster = none

/-- The invariant of careful runs. First clusters are 0 or in use, so that a cluster that
is allocated is new, and a node in the cache belongs to at most one entry. -/
structure Inv (s : CacheState) : Prop where
  linked : Linked s.next s.inodeCache s.listed
  listed_ne : s.listed ≠ []
  nodup : s.listed.Nodup
  size : s.inodeCacheSize = s.listed.length
  alive : ∀ a ∈ s.listed, a ∈ s.cells ∧ s.element a ∈ s.nodes
  fat_size : s.fat.size < 0x0FFFFFF7
  link_zero : s.fat.link 0 ≠ 0
  dirents_used : ∀ d ∈ s.dirents, d.cluster = 0 ∨ s.fat.link d.cluster ≠ 0
  cached_used : ∀ a ∈ s.listed, s.cluster (s.element a) = 0 ∨ s.fat.link (s.cluster (s.element a)) ≠ 0
  sole : ∀ a ∈ s.listed, ∀ i j (hi : i < s.dirents.length) (hj : j < s.dirents.length),
    s.dirents[i].cluster = s.cluster (s.element a) →
      s.dirents[j].cluster = s.cluster (s.element a) → i = j

variable {s s' : CacheState} {c cell node : ℕ} {l : List ℕ}

/-! ## The list -/

theorem lookup_eq_some {p n : ℕ} (h : Linked s.next p l) (hl : s.lookup c l.length p = some n) :
    ∃ a ∈ l, s.element a = n ∧ s.cluster n = c := by
  induction l generalizing p with
  | nil => cases hl
  | cons a l ih =>
    obtain ⟨rfl, hp, hlinked⟩ := h
    rw [List.length_cons, lookup, if_neg hp] at hl
    split at hl
    · rename_i hc
      rw [Option.some.injEq] at hl
      exact ⟨p, List.mem_cons_self, hl, hl ▸ hc⟩
    · obtain ⟨a, ha, hn⟩ := ih hlinked hl
      exact ⟨a, List.mem_cons_of_mem _ ha, hn⟩

theorem lastEntry_eq {next : ℕ → ℕ} {p last : ℕ} (h : Linked next p l) :
    lastEntry next l.length p last = l.getLastD last := by
  induction l generalizing p last with
  | nil => rfl
  | cons a l ih =>
    obtain ⟨rfl, hp, hlinked⟩ := h
    rw [List.length_cons, lastEntry, if_neg hp, ih hlinked, List.getLastD_cons]

theorem Linked.congr {next next' : ℕ → ℕ} {p : ℕ} (h : Linked next p l)
    (heq : ∀ a ∈ l, next' a = next a) : Linked next' p l := by
  induction l generalizing p with
  | nil => trivial
  | cons a l ih =>
    obtain ⟨hp, ha, hlinked⟩ := h
    refine ⟨hp, ha, ?_⟩
    rw [heq a List.mem_cons_self]
    exact ih hlinked fun b hb => heq b (List.mem_cons_of_mem _ hb)

/-- An entry is put behind the last one. -/
theorem Linked.append {next : ℕ → ℕ} {p q : ℕ} (h : Linked next p (l ++ [q])) (hd : (l ++ [q]).Nodup)
    (hcell : cell ≠ 0) (hnew : cell ∉ l ++ [q]) :
    Linked (Function.update next q cell) p (l ++ [q] ++ [cell]) := by
  induction l generalizing p with
  | nil =>
    obtain ⟨hp, hq, -⟩ := h
    exact ⟨hp, hq, Function.update_self .., hcell, trivial⟩
  | cons a l ih =>
    obtain ⟨hp, ha, hlinked⟩ := h
    have haq : a ≠ q := by
      intro haq
      apply (List.nodup_cons.mp hd).1
      rw [haq]
      exact List.mem_append_right l (List.mem_singleton_self q)
    refine ⟨hp, ha, ?_⟩
    rw [Function.update_of_ne haq]
    exact ih hlinked (List.nodup_cons.mp hd).2 fun hmem => hnew (List.mem_cons_of_mem a hmem)

theorem Inv.resolve_eq_some (h : s.Inv) {n : ℕ} (hn : s.resolve c = some n) :
    ∃ a ∈ s.listed, s.element a = n ∧ s.cluster n = c := by
  unfold resolve at hn
  rw [h.size] at hn
  exact lookup_eq_some h.linked hn

theorem Inv.consistent (h : s.Inv) : s.Consistent := by
  refine ⟨h.linked, h.size, h.alive, fun i j hi hj n hin hjn => ?_⟩
  obtain ⟨a, ha, hae, hai⟩ := h.resolve_eq_some hin
  obtain ⟨-, -, -, hbj⟩ := h.resolve_eq_some hjn
  rw [← hae] at hai hbj
  exact h.sole a ha i j hi hj hai.symm hbj.symm

/-! ## Steps -/

theorem Inv.cacheNode (h : s.Inv) (hnew : s.New cell node) (hc : c = 0 ∨ s.fat.link c ≠ 0)
    (hsole : ∀ i j (hi : i < s.dirents.length) (hj : j < s.dirents.length),
      s.dirents[i].cluster = c → s.dirents[j].cluster = c → i = j) :
    (s.cacheNode cell node c).Inv := by
  obtain ⟨hcell, hcells, hnode⟩ := hnew
  have hout : cell ∉ s.listed := fun hmem => hcells (h.alive cell hmem).1
  -- the old entries keep their nodes, and these their clusters
  have helement : ∀ a ∈ s.listed, Function.update s.element cell node a = s.element a := by
    intro a ha
    have hne : a ≠ cell := fun hac => hout (hac ▸ ha)
    exact Function.update_of_ne hne ..
  have hcluster : ∀ a ∈ s.listed, Function.update s.cluster node c
      (Function.update s.element cell node a) = s.cluster (s.element a) := by
    intro a ha
    have hne : s.element a ≠ node := fun han => hnode (han ▸ (h.alive a ha).2)
    rw [helement a ha, Function.update_of_ne hne]
  have hself : Function.update s.cluster node c (Function.update s.element cell node cell) = c := by
    rw [Function.update_self, Function.update_self]
  obtain ⟨l, q, hl⟩ := (List.eq_nil_or_concat s.listed).resolve_left h.listed_ne
  rw [List.concat_eq_append] at hl
  have hhead : s.inodeCache ≠ 0 := by
    have hlinked := h.linked
    cases hlisted : s.listed with
    | nil => exact absurd hlisted h.listed_ne
    | cons a l =>
      rw [hlisted] at hlinked
      rw [hlinked.1]
      exact hlinked.2.1
  have hlast : lastEntry s.next s.inodeCacheSize s.inodeCache 0 = q := by
    rw [h.size, lastEntry_eq h.linked, hl, List.getLastD_concat]
  refine ⟨?_, ?_, ?_, ?_, fun a ha => ?_, h.fat_size, h.link_zero, h.dirents_used, fun a ha => ?_,
    fun a ha => ?_⟩
  · change Linked (if s.inodeCache = 0 then s.next else Function.update s.next
      (lastEntry s.next s.inodeCacheSize s.inodeCache 0) cell)
      (if s.inodeCache = 0 then cell else s.inodeCache) (s.listed ++ [cell])
    have hlinked := h.linked
    have hd := h.nodup
    rw [hl] at hlinked hd hout ⊢
    rw [if_neg hhead, if_neg hhead, hlast]
    exact hlinked.append hd hcell hout
  · exact List.append_ne_nil_of_right_ne_nil _ (List.cons_ne_nil _ _)
  · refine List.nodup_append.mpr ⟨h.nodup, List.nodup_singleton cell, fun a ha b hb hab => hout ?_⟩
    rw [← List.mem_singleton.mp hb, ← hab]
    exact ha
  · change s.inodeCacheSize + 1 = (s.listed ++ [cell]).length
    rw [List.length_append, List.length_singleton, h.size]
  · change a ∈ s.listed ++ [cell] at ha
    change a ∈ insert cell s.cells ∧ Function.update s.element cell node a ∈ insert node s.nodes
    rw [List.mem_append, List.mem_singleton] at ha
    cases ha with
    | inl ha =>
      rw [helement a ha]
      exact ⟨Finset.mem_insert_of_mem (h.alive a ha).1, Finset.mem_insert_of_mem (h.alive a ha).2⟩
    | inr ha =>
      rw [ha, Function.update_self]
      exact ⟨Finset.mem_insert_self .., Finset.mem_insert_self ..⟩
  · change a ∈ s.listed ++ [cell] at ha
    change Function.update s.cluster node c (Function.update s.element cell node a) = 0 ∨
      s.fat.link (Function.update s.cluster node c (Function.update s.element cell node a)) ≠ 0
    rw [List.mem_append, List.mem_singleton] at ha
    cases ha with
    | inl ha =>
      rw [hcluster a ha]
      exact h.cached_used a ha
    | inr ha =>
      rw [ha, hself]
      exact hc
  · change a ∈ s.listed ++ [cell] at ha
    change ∀ i j (hi : i < s.dirents.length) (hj : j < s.dirents.length),
      s.dirents[i].cluster = Function.update s.cluster node c (Function.update s.element cell node a) →
      s.dirents[j].cluster = Function.update s.cluster node c (Function.update s.element cell node a) →
      i = j
    rw [List.mem_append, List.mem_singleton] at ha
    cases ha with
    | inl ha =>
      rw [hcluster a ha]
      exact h.sole a ha
    | inr ha =>
      rw [ha, hself]
      exact hsole

/-- The table and the directories change, and the cache does not. -/
theorem Inv.setVolume (h : s.Inv) {fat : Fat} {dirents : List Dirent}
    (hsize : fat.size = s.fat.size) (hmono : ∀ x, s.fat.link x ≠ 0 → fat.link x ≠ 0)
    (hused : ∀ d ∈ dirents, d.cluster = 0 ∨ fat.link d.cluster ≠ 0)
    (hsole : ∀ a ∈ s.listed, ∀ i j (hi : i < dirents.length) (hj : j < dirents.length),
      dirents[i].cluster = s.cluster (s.element a) →
        dirents[j].cluster = s.cluster (s.element a) → i = j) :
    { s with fat := fat, dirents := dirents }.Inv :=
  ⟨h.linked, h.listed_ne, h.nodup, h.size, h.alive, hsize ▸ h.fat_size, hmono 0 h.link_zero, hused,
    fun a ha => (h.cached_used a ha).imp id (hmono _), hsole⟩

theorem Inv.setFat (h : s.Inv) {fat : Fat} (hsize : fat.size = s.fat.size)
    (hmono : ∀ x, s.fat.link x ≠ 0 → fat.link x ≠ 0) : { s with fat := fat }.Inv :=
  h.setVolume hsize hmono (fun d hd => (h.dirents_used d hd).imp id (hmono _)) h.sole

theorem Inv.normalizeCache (h : s.Inv) (hnew : s.New cell node) {i : ℕ} {d : Dirent}
    (hd : s.dirents[i]? = some d) (halone : s.Alone i) : (s.normalizeCache d.cluster cell node).Inv := by
  unfold CacheState.normalizeCache
  split
  · exact h
  · have hmem : d ∈ s.dirents := List.mem_of_getElem? hd
    apply h.cacheNode hnew (h.dirents_used d hmem)
    intro j k hj hk hjd hkd
    exact (halone d hd j hj hjd).trans (halone d hd k hk hkd).symm

/-- One cluster is allocated. -/
theorem gmFreeClusters_one {fat fat' : Fat} (h : fat.gmFreeClusters 1 = some (c, fat')) :
    c < fat.size ∧ fat.link c = 0 ∧ fat' = fat.set c 0x0FFFFFFF := by
  unfold Fat.gmFreeClusters at h
  rw [Fat.markFree] at h
  split at h
  · cases h
  · rename_i d hfind
    rw [if_pos rfl, Fat.markFree, Option.some.injEq, Prod.mk.injEq] at h
    obtain ⟨rfl, rfl⟩ := h
    unfold Fat.findFree at hfind
    have hfree := List.find?_some hfind
    have hmem := List.mem_range'_1.mp (List.mem_of_find?_eq_some hfind)
    exact ⟨by omega, of_decide_eq_true hfree, rfl⟩

/-- An entry of the table gets a link. -/
theorem link_ne_zero_set {fat : Fat} {v x : ℕ} (hv : v < 2 ^ 28) (hv0 : v ≠ 0)
    (h : x = c ∨ fat.link x ≠ 0) : (fat.set c v).link x ≠ 0 := by
  by_cases hx : x = c
  · rw [hx, Fat.link_set_self fat c hv]
    exact hv0
  · rw [Fat.link_set_of_ne fat v hx]
    exact h.resolve_left hx

/-- A free cluster is the first one of no file and of no node. -/
theorem ne_of_free (h0 : s.fat.link 0 ≠ 0) (hfree : s.fat.link c = 0) {x : ℕ}
    (hx : x = 0 ∨ s.fat.link x ≠ 0) : x ≠ c := by
  intro hxc
  cases hx with
  | inl hx =>
    rw [← hxc, hx] at hfree
    exact h0 hfree
  | inr hx =>
    rw [hxc] at hx
    exact hx hfree

theorem Inv.createFile (h : s.Inv) (hnew : s.New cell node) {dir : ℕ} {grow : Option ℕ}
    {created : Bool} (hcreate : s.createFile dir cell node grow created = some s') : s'.Inv := by
  unfold CacheState.createFile at hcreate
  split at hcreate
  · cases hcreate
  rename_i c fat hgm
  obtain ⟨hc, hfree, rfl⟩ := gmFreeClusters_one hgm
  have hsize := h.fat_size
  have hmono : ∀ x, x = c ∨ s.fat.link x ≠ 0 → (s.fat.set c 0x0FFFFFFF).link x ≠ 0 := fun x hx =>
    link_ne_zero_set (by omega) (by omega) hx
  -- no entry had the cluster before
  have hnone : ∀ i (hi : i < s.dirents.length), s.dirents[i].cluster ≠ c := fun i hi =>
    ne_of_free h.link_zero hfree (h.dirents_used _ (List.getElem_mem hi))
  generalize hds : (if created then s.dirents ++ [⟨dir, c, true⟩] else s.dirents) = ds at hcreate
  have hplace : ∀ i (hi : i < ds.length), (∃ hi' : i < s.dirents.length, ds[i] = s.dirents[i]) ∨
      i = s.dirents.length ∧ ds[i] = ⟨dir, c, true⟩ := by
    intro i hi
    cases created with
    | false =>
      subst hds
      exact Or.inl ⟨hi, rfl⟩
    | true =>
      subst hds
      by_cases hi' : i < s.dirents.length
      · exact Or.inl ⟨hi', List.getElem_append_left hi'⟩
      · have hlen : i < (s.dirents ++ [(⟨dir, c, true⟩ : Dirent)]).length := hi
        rw [List.length_append, List.length_singleton] at hlen
        have hlast : i = s.dirents.length := by omega
        subst hlast
        exact Or.inr ⟨rfl, List.getElem_concat_length rfl _⟩
  have hvolume : { s with fat := s.fat.set c 0x0FFFFFFF, dirents := ds }.Inv := by
    refine h.setVolume rfl (fun x hx => hmono x (Or.inr hx)) (fun d hd => ?_) fun a ha i j hi hj => ?_
    · obtain ⟨i, hi, rfl⟩ := List.getElem_of_mem hd
      cases hplace i hi with
      | inl hold =>
        obtain ⟨hi', heq⟩ := hold
        rw [heq]
        exact (h.dirents_used _ (List.getElem_mem hi')).imp id fun hx => hmono _ (Or.inr hx)
      | inr hlast =>
        rw [hlast.2]
        exact Or.inr (hmono c (Or.inl rfl))
    · have hac := ne_of_free h.link_zero hfree (h.cached_used a ha)
      intro hia hja
      cases hplace i hi with
      | inl hold =>
        obtain ⟨hi', heq⟩ := hold
        cases hplace j hj with
        | inl hold' =>
          obtain ⟨hj', heq'⟩ := hold'
          exact h.sole a ha i j hi' hj' (heq ▸ hia) (heq' ▸ hja)
        | inr hlast =>
          rw [hlast.2] at hja
          exact absurd hja.symm hac
      | inr hlast =>
        rw [hlast.2] at hia
        exact absurd hia.symm hac
  have hcached : ({ s with fat := s.fat.set c 0x0FFFFFFF, dirents := ds }.cacheNode cell node c).Inv := by
    refine hvolume.cacheNode hnew (Or.inr (hmono c (Or.inl rfl))) fun i j hi hj hic hjc => ?_
    have hend : ∀ k (hk : k < ds.length), ds[k].cluster = c → k = s.dirents.length := by
      intro k hk hkc
      cases hplace k hk with
      | inl hold =>
        obtain ⟨hk', heq⟩ := hold
        rw [heq] at hkc
        exact absurd hkc (hnone k hk')
      | inr hlast => exact hlast.1
    exact (hend i hi hic).trans (hend j hj hjc).symm
  cases grow with
  | none =>
    rw [← Option.some.inj hcreate]
    exact hcached
  | some last =>
    -- the directory is extended
    rw [Option.map_eq_some_iff] at hcreate
    obtain ⟨⟨f, fat⟩, hgm', rfl⟩ := hcreate
    obtain ⟨hf, hffree, rfl⟩ := gmFreeClusters_one hgm'
    have hf0 : f ≠ 0 := by
      intro hf0
      rw [hf0] at hffree
      exact hvolume.link_zero hffree
    have hf' : f < s.fat.size := hf
    have hmono' : ∀ x, (s.fat.set c 0x0FFFFFFF).link x ≠ 0 →
        (((s.fat.set c 0x0FFFFFFF).set f 0x0FFFFFFF).set last f).link x ≠ 0 := fun x hx =>
      link_ne_zero_set (by omega) hf0 (Or.inr (link_ne_zero_set (by omega) (by omega) (Or.inr hx)))
    exact hcached.setFat rfl hmono'

theorem Inv.step (h : s.Inv) {a : CacheAction} (hc : s.Careful a) (hstep : s.step a = some s') :
    s'.Inv := by
  cases a with
  | openFile i cell node =>
    change (if s.New cell node then (s.dirents[i]?).map fun d => s.normalizeCache d.cluster cell node
      else none) = some s' at hstep
    split at hstep
    · rename_i hnew
      obtain ⟨d, hd, rfl⟩ := Option.map_eq_some_iff.mp hstep
      exact h.normalizeCache hnew hd hc
    · cases hstep
  | createFile dir cell node grow created =>
    change (if s.New cell node then s.createFile dir cell node grow created else none) = some s'
      at hstep
    split at hstep
    · rename_i hnew
      exact h.createFile hnew hstep
    · cases hstep
  | unlink i cell node =>
    change (if s.New cell node then (s.dirents[i]?).bind fun d => s.unlink d cell node
      else none) = some s' at hstep
    split at hstep
    · rename_i hnew
      obtain ⟨d, hd, hunlink⟩ := Option.bind_eq_some_iff.mp hstep
      obtain ⟨halone, hnone⟩ := hc
      have hsame : (s.normalizeCache d.cluster cell node).dirents = s.dirents := by
        unfold CacheState.normalizeCache
        split <;> rfl
      have hfind : (s.normalizeCache d.cluster cell node).findDirent d.dir d.cluster = none := by
        unfold findDirent at hnone ⊢
        rw [hsame]
        exact hnone d hd
      unfold CacheState.unlink at hunlink
      dsimp only at hunlink
      rw [hfind] at hunlink
      rw [← Option.some.inj hunlink]
      exact h.normalizeCache hnew hd halone
    · cases hstep

end CacheState

/-- The root directory is the only node in the cache of a file system that has just been
set up. First clusters of entries are 0 or in use, and none of them is the root
directory's. -/
structure Mounted (s : CacheState) (cell : ℕ) : Prop where
  listed : s.listed = [cell]
  head : s.inodeCache = cell
  cell_ne : cell ≠ 0
  size : s.inodeCacheSize = 1
  alive : cell ∈ s.cells ∧ s.element cell ∈ s.nodes
  fat_size : s.fat.size < 0x0FFFFFF7
  link_zero : s.fat.link 0 ≠ 0
  dirents_used : ∀ d ∈ s.dirents, d.cluster = 0 ∨ s.fat.link d.cluster ≠ 0
  root_used : s.fat.link (s.cluster (s.element cell)) ≠ 0
  root_apart : ∀ d ∈ s.dirents, d.cluster ≠ s.cluster (s.element cell)

theorem Mounted.inv {s : CacheState} {cell : ℕ} (h : Mounted s cell) : s.Inv := by
  have hmem : ∀ a, a ∈ s.listed → a = cell := by
    intro a ha
    rw [h.listed] at ha
    exact List.mem_singleton.mp ha
  refine ⟨?_, ?_, ?_, ?_, fun a ha => ?_, h.fat_size, h.link_zero, h.dirents_used, fun a ha => ?_,
    fun a ha i j hi hj hia _ => ?_⟩
  · rw [h.listed]
    exact ⟨h.head, h.cell_ne, trivial⟩
  · rw [h.listed]
    exact List.cons_ne_nil _ _
  · rw [h.listed]
    exact List.nodup_singleton cell
  · rw [h.listed, h.size]
    rfl
  · rw [hmem a ha]
    exact h.alive
  · rw [hmem a ha]
    exact Or.inr h.root_used
  · rw [hmem a ha] at hia
    exact absurd hia (h.root_apart _ (List.getElem_mem hi))

/-- The root directory at cluster 3, with these entries. -/
def rootOnly (dirents : List Dirent) : CacheState where
  next _ := 0
  element _ := 100
  cluster _ := 3
  inodeCache := 16
  inodeCacheSize := 1
  cells := [16].toFinset
  nodes := [100].toFinset
  listed := [16]
  dirents := dirents
  fat := smallFat

theorem rootOnly_mounted {dirents : List Dirent} (h : ∀ d ∈ dirents, d.cluster = 0 ∨ d.cluster = 5) :
    Mounted (rootOnly dirents) 16 := by
  have hsize : smallFat.size < 0x0FFFFFF7 := by decide
  have hlink : smallFat.link 0 ≠ 0 ∧ smallFat.link 3 ≠ 0 ∧ smallFat.link 5 ≠ 0 := by decide
  have halive : 16 ∈ [16].toFinset ∧ 100 ∈ [100].toFinset := by decide
  refine ⟨rfl, rfl, by decide, rfl, halive, hsize, hlink.1, fun d hd => ?_, hlink.2.1, fun d hd => ?_⟩
  · refine (h d hd).imp id fun h5 => ?_
    rw [h5]
    exact hlink.2.2
  · change d.cluster ≠ 3
    have := h d hd
    omega

end VkKernel.Fat32
