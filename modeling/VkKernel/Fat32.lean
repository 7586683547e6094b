import VkKernel.Lib.Chains
import VkKernel.System

/-!
# The file allocation table

The table in memory, the chains of its clusters and the allocation of clusters. An
entry has 32 bits, of which the low 28 are the link to the next cluster.
-/

namespace VkKernel.Fat32
open Chains

structure Fat where
  size : ℕ
  table : ℕ → ℕ

namespace Fat

/-- `fat_table[c] & 0x0FFFFFFF` -/
def link (fat : Fat) (c : ℕ) : ℕ := fat.table c % 2 ^ 28

def set (fat : Fat) (c v : ℕ) : Fat := { fat with table := Function.update fat.table c v }

/-- The loop of `fat32fs_get_cluster_chain`; outside the table there is no result. -/
def chainFrom (fat : Fat) : ℕ → ℕ → Option (List ℕ)
  | 0, _ => none
  | fuel + 1, cluster =>
    if cluster < fat.size then
      let cchain := fat.link cluster
      if cchain ≠ 0 ∧ ¬cchain ≥ 0x0FFFFFF8 then (fat.chainFrom fuel cchain).map (cluster :: ·)
      else some [cluster]
    else none

/-- `fat32fs_get_cluster_chain`. A chain that ends has at most as many clusters as the
table. -/
def getClusterChain (fat : Fat) (fcluster : ℕ) : Option (List ℕ) := fat.chainFrom fat.size fcluster

/-- The first free cluster of the table from `active` on. -/
def findFree (fat : Fat) (active : ℕ) : Option ℕ :=
  (List.range' active (fat.size - active)).find? fun c => fat.link c = 0

/-- The loop of `fat32fs_gm_free_clusters`. -/
def markFree (fat : Fat) : ℕ → ℕ → ℕ → Option (ℕ × Fat)
  | 0, _, lastFreeCluster => some (lastFreeCluster, fat)
  | nbr + 1, activeCluster, lastFreeCluster =>
    match fat.findFree activeCluster with
    | none => none
    | some c =>
      (fat.set c (if lastFreeCluster = 0 then 0x0FFFFFFF else lastFreeCluster)).markFree nbr (c + 1) c

/-- `fat32fs_gm_free_clusters` -/
def gmFreeClusters (fat : Fat) (nbr : ℕ) : Option (ℕ × Fat) := fat.markFree nbr 0 0

/-! ## Well-formed tables -/

/-- Where a cluster goes on. A free cluster and one outside the table are in no
chain. -/
def next (fat : Fat) (c : ℕ) : Option (Option ℕ) :=
  if c < fat.size ∧ fat.link c ≠ 0 then
    some (if fat.link c < 0x0FFFFFF8 then some (fat.link c) else none)
  else none

/-- The clusters of the table that are in use. -/
def Used (fat : Fat) (c : ℕ) : Prop := 2 ≤ c ∧ c < fat.size ∧ fat.link c ≠ 0

/-- The chains of the used clusters end in the table, and are disjoint but for common
parts of one chain. -/
structure WellFormed (fat : Fat) : Prop where
  size_lt : fat.size < 0x0FFFFFF7
  link_zero : fat.link 0 ≠ 0
  link_one : fat.link 1 ≠ 0
  tidy : Tidy fat.next fat.Used

/-- The number of free clusters. -/
def freeCount (fat : Fat) : ℕ := (List.range fat.size).countP fun c => fat.link c = 0

variable {fat fat' : Fat} {c : ℕ} {l : List ℕ}

theorem set_self (fat : Fat) (c v : ℕ) : (fat.set c v).table c = v := Function.update_self ..

theorem set_of_ne (fat : Fat) (v : ℕ) {c d : ℕ} (h : d ≠ c) : (fat.set c v).table d = fat.table d :=
  Function.update_of_ne h ..

theorem next_congr (hsize : fat'.size = fat.size) (htable : fat'.table c = fat.table c) :
    fat'.next c = fat.next c := by
  unfold next link
  rw [hsize, htable]

theorem next_of_free (h : fat.link c = 0) : fat.next c = none := if_neg fun hc => hc.2 h

theorem isChain_lt (h : IsChain fat.next c l) {d : ℕ} (hd : d ∈ l) : d < fat.size := by
  by_contra hlt
  exact h.next_ne_none hd (if_neg fun hc => hlt hc.1)

theorem chainFrom_of_isChain (h : IsChain fat.next c l) {fuel : ℕ} (hfuel : l.length ≤ fuel) :
    fat.chainFrom fuel c = some l := by
  induction h generalizing fuel with
  | @last c hc =>
    obtain ⟨fuel, rfl⟩ := Nat.exists_eq_succ_of_ne_zero (Nat.ne_zero_of_lt hfuel)
    unfold next at hc
    split at hc
    · rename_i hin
      rw [Option.some.injEq] at hc
      split at hc
      · cases hc
      · rename_i hend
        rw [chainFrom, if_pos hin.1]
        dsimp only
        rw [if_neg (by omega)]
    · cases hc
  | @cons c d l hc _ ih =>
    obtain ⟨fuel, rfl⟩ := Nat.exists_eq_succ_of_ne_zero (Nat.ne_zero_of_lt hfuel)
    unfold next at hc
    split at hc
    · rename_i hin
      rw [Option.some.injEq] at hc
      split at hc
      · rename_i hlink
        rw [Option.some.injEq] at hc
        rw [chainFrom, if_pos hin.1]
        dsimp only
        rw [if_pos ⟨hin.2, by omega⟩, hc, ih (Nat.le_of_succ_le_succ hfuel), Option.map_some]
      · cases hc
    · cases hc

/-- The code finds the chains of a table. -/
theorem getClusterChain_of_isChain (h : IsChain fat.next c l) : fat.getClusterChain c = some l := by
  apply chainFrom_of_isChain h
  have hsub : l ⊆ List.range fat.size := fun d hd => List.mem_range.mpr (isChain_lt h hd)
  have hlen := (List.subperm_of_subset h.nodup hsub).length_le
  rwa [List.length_range] at hlen

/-! ## Allocation -/

theorem link_set_of_ne (fat : Fat) (v : ℕ) {c d : ℕ} (h : d ≠ c) :
    (fat.set c v).link d = fat.link d := by
  unfold link
  rw [set_of_ne fat v h]

theorem link_set_self (fat : Fat) (c : ℕ) {v : ℕ} (h : v < 2 ^ 28) : (fat.set c v).link c = v := by
  unfold link
  rw [set_self, Nat.mod_eq_of_lt h]

/-- The search finds a free cluster as long as there is one, and leaves the others
behind it. -/
theorem findFree_spec {n a : ℕ}
    (h : n + 1 ≤ (List.range' a (fat.size - a)).countP fun c => fat.link c = 0) :
    ∃ c, fat.findFree a = some c ∧ c < fat.size ∧ fat.link c = 0 ∧
      n ≤ (List.range' (c + 1) (fat.size - (c + 1))).countP fun c => fat.link c = 0 := by
  have hsome : ∃ c, fat.findFree a = some c := by
    rw [← Option.isSome_iff_exists]
    unfold findFree
    rw [List.find?_isSome]
    obtain ⟨c, hc, hfree⟩ := List.countP_pos_iff.mp (Nat.lt_of_lt_of_le n.succ_pos h)
    exact ⟨c, hc, hfree⟩
  obtain ⟨c, hc⟩ := hsome
  obtain ⟨hfree, before, behind, hsplit, hbefore⟩ := List.find?_eq_some_iff_append.mp hc
  obtain ⟨k, hk, -, htail⟩ := List.range'_eq_append_iff.mp hsplit
  obtain ⟨hstart, hlen, hbehind⟩ := List.range'_eq_cons_iff.mp htail.symm
  rw [Nat.mul_one] at hstart
  have hcount : (before.countP fun c => decide (fat.link c = 0)) = 0 := by
    rw [List.countP_eq_zero]
    intro d hd
    have hd' := hbefore d hd
    rw [Bool.not_eq_true'] at hd'
    rw [hd']
    exact Bool.false_ne_true
  have hfirst : ((c :: behind).countP fun c => decide (fat.link c = 0)) =
      (behind.countP fun c => decide (fat.link c = 0)) + 1 := List.countP_cons_of_pos hfree
  rw [hsplit, List.countP_append, hcount, hfirst, hbehind] at h
  refine ⟨c, hc, by omega, of_decide_eq_true hfree, ?_⟩
  rw [show fat.size - (c + 1) = fat.size - a - k - 1 by omega]
  omega

/-- A free cluster is marked as the first one of a chain. -/
theorem isChain_mark {last v : ℕ} {old : List ℕ} (hc : c < fat.size) (hfree : fat.link c = 0)
    (hv : v = if last = 0 then 0x0FFFFFFF else last) (hsize : fat.size < 0x0FFFFFF7)
    (hold : last = 0 ∧ old = [] ∨ last ≠ 0 ∧ IsChain fat.next last old) :
    IsChain (fat.set c v).next c (c :: old) := by
  have hnext : v ≠ 0 → v < 2 ^ 28 →
      (fat.set c v).next c = some (if v < 0x0FFFFFF8 then some v else none) := by
    intro hv0 hv28
    unfold next
    rw [link_set_self fat c hv28]
    exact if_pos ⟨hc, hv0⟩
  cases hold with
  | inl hold =>
    rw [hold.1, if_pos rfl] at hv
    rw [hold.2]
    apply IsChain.last
    rw [hnext (by omega) (by omega), if_neg (by omega)]
  | inr hold =>
    rw [if_neg hold.1] at hv
    have hlt := isChain_lt hold.2 hold.2.mem_self
    apply IsChain.cons (b := last)
    · rw [hnext (by omega) (by omega), if_pos (by omega), hv]
    · apply hold.2.congr
      intro d hd
      have hdc : d ≠ c := by
        intro hdc
        apply hold.2.next_ne_none hd
        rw [hdc, next_of_free hfree]
      exact next_congr rfl (set_of_ne fat v hdc)

/-- The loop marks free clusters in front of the chain that it has built so far. -/
theorem markFree_spec {n a last : ℕ} {old : List ℕ} (hreserved : ∀ d, fat.link d = 0 → d ≠ 0)
    (hsize : fat.size < 0x0FFFFFF7)
    (hold : last = 0 ∧ old = [] ∨ last ≠ 0 ∧ IsChain fat.next last old)
    (hfree : n ≤ (List.range' a (fat.size - a)).countP fun c => fat.link c = 0) :
    ∃ f fat' new, fat.markFree n a last = some (f, fat') ∧ fat'.size = fat.size ∧
      new.length = n ∧ (∀ d ∈ new, d < fat.size ∧ fat.link d = 0) ∧
      (∀ d, d ∉ new → fat'.table d = fat.table d) ∧
      (f = 0 ∧ new ++ old = [] ∨ f ≠ 0 ∧ IsChain fat'.next f (new ++ old)) := by
  induction n generalizing fat a last old with
  | zero =>
    exact ⟨last, fat, [], rfl, rfl, rfl, fun d hd => absurd hd List.not_mem_nil, fun _ _ => rfl, hold⟩
  | succ n ih =>
    obtain ⟨c, hfind, hc, hlink, hrest⟩ := findFree_spec hfree
    have hchain := isChain_mark hc hlink rfl hsize hold
    rw [markFree, hfind]
    dsimp only
    generalize (if last = 0 then 0x0FFFFFFF else last) = v at hchain ⊢
    -- the cluster is no longer free, the other ones are as before
    have hmarked : (fat.set c v).link c ≠ 0 := by
      intro hzero
      exact hchain.next_ne_none hchain.mem_self (next_of_free hzero)
    have hsame : ∀ d, (fat.set c v).link d = 0 → d ≠ c ∧ fat.link d = 0 := by
      intro d hd
      have hdc : d ≠ c := fun hdc => hmarked (hdc ▸ hd)
      rw [link_set_of_ne fat v hdc] at hd
      exact ⟨hdc, hd⟩
    have hcount : n ≤ (List.range' (c + 1) ((fat.set c v).size - (c + 1))).countP
        fun d => (fat.set c v).link d = 0 := by
      refine hrest.trans (le_of_eq (List.countP_congr fun d hd => ?_))
      have hdc : d ≠ c := by
        have := (List.mem_range'_1.mp hd).1
        omega
      rw [link_set_of_ne fat v hdc]
    obtain ⟨f, fat', new, hmark, hsize', hlen, hnew, htable, hf⟩ :=
      ih (fun d hd => hreserved d (hsame d hd).2) hsize (Or.inr ⟨hreserved c hlink, hchain⟩) hcount
    refine ⟨f, fat', new ++ [c], hmark, hsize', ?_, fun d hd => ?_, fun d hd => ?_, ?_⟩
    · rw [List.length_append, hlen, List.length_singleton]
    · rw [List.mem_append, List.mem_singleton] at hd
      cases hd with
      | inl hd => exact ⟨(hnew d hd).1, (hsame d (hnew d hd).2).2⟩
      | inr hd =>
        rw [hd]
        exact ⟨hc, hlink⟩
    · rw [List.mem_append, List.mem_singleton, not_or] at hd
      rw [htable d hd.1, set_of_ne fat v hd.2]
    · rwa [List.append_assoc, List.singleton_append]

/-- What `fat32fs_gm_free_clusters` does to a table: a chain of free clusters is
marked. -/
structure Allocates (fat : Fat) (nbr f : ℕ) (fat' : Fat) (new : List ℕ) : Prop where
  chain : IsChain fat'.next f new
  length : new.length = nbr
  free : ∀ d ∈ new, d < fat.size ∧ fat.link d = 0
  others : ∀ d, d ∉ new → fat'.table d = fat.table d
  size : fat'.size = fat.size

theorem WellFormed.two_le_of_free (h : fat.WellFormed) {d : ℕ} (hd : fat.link d = 0) : 2 ≤ d := by
  by_contra hlt
  have h01 : d = 0 ∨ d = 1 := by omega
  cases h01 with
  | inl h0 => exact h.link_zero (h0 ▸ hd)
  | inr h1 => exact h.link_one (h1 ▸ hd)

theorem WellFormed.gmFreeClusters (h : fat.WellFormed) {nbr : ℕ} (hn : 1 ≤ nbr)
    (hfree : nbr ≤ fat.freeCount) :
    ∃ f fat' new, fat.gmFreeClusters nbr = some (f, fat') ∧ fat.Allocates nbr f fat' new := by
  have hreserved : ∀ d, fat.link d = 0 → d ≠ 0 := by
    intro d hd
    have := h.two_le_of_free hd
    omega
  unfold freeCount at hfree
  rw [List.range_eq_range'] at hfree
  obtain ⟨f, fat', new, hmark, hsize, hlen, hnew, htable, hf⟩ :=
    markFree_spec hreserved h.size_lt (Or.inl ⟨rfl, rfl⟩) hfree
  rw [List.append_nil] at hf
  have hne : new ≠ [] := by
    rw [← List.length_pos_iff, hlen]
    omega
  have hchain := (hf.resolve_left fun hf => hne hf.2).2
  exact ⟨f, fat', new, hmark, hchain, hlen, hnew, htable, hsize⟩

section Allocated
variable {nbr f : ℕ} {new : List ℕ}

theorem Allocates.two_le (h : fat.WellFormed) (ha : fat.Allocates nbr f fat' new) : 2 ≤ f :=
  h.two_le_of_free (ha.free f ha.chain.mem_self).2

theorem Allocates.next_free (ha : fat.Allocates nbr f fat' new) : ∀ d ∈ new, fat.next d = none :=
  fun d hd => next_of_free (ha.free d hd).2

theorem Allocates.next_eq (ha : fat.Allocates nbr f fat' new) :
    ∀ d, d ∉ new → fat'.next d = fat.next d := fun d hd => next_congr ha.size (ha.others d hd)

theorem Allocates.used (ha : fat.Allocates nbr f fat' new) (d : ℕ) (hd : fat'.Used d) :
    fat.Used d ∨ d ∈ new := by
  by_cases hmem : d ∈ new
  · exact Or.inr hmem
  · refine Or.inl ⟨hd.1, ha.size ▸ hd.2.1, ?_⟩
    have hlink := hd.2.2
    unfold link at hlink ⊢
    rwa [ha.others d hmem] at hlink

theorem Allocates.wellFormed (h : fat.WellFormed) (ha : fat.Allocates nbr f fat' new) :
    fat'.WellFormed := by
  have hlink : ∀ d, d < 2 → fat'.link d = fat.link d := by
    intro d hd
    have hmem : d ∉ new := by
      intro hmem
      have := h.two_le_of_free (ha.free d hmem).2
      omega
    unfold link
    rw [ha.others d hmem]
  refine ⟨ha.size ▸ h.size_lt, ?_, ?_, h.tidy.adjoin ha.chain ha.next_free ha.next_eq ha.used⟩
  · rw [hlink 0 (by omega)]
    exact h.link_zero
  · rw [hlink 1 (by omega)]
    exact h.link_one

/-- The end of an old chain. -/
theorem Allocates.end_of_chain (ha : fat.Allocates nbr f fat' new) {e : ℕ}
    (hl : IsChain fat.next c l) (he : l.getLast? = some e) :
    e ∈ l ∧ fat'.next e = some none ∧ e ∉ new := by
  obtain ⟨d, hd, hend⟩ := hl.exists_end
  have hde : d = e := by
    have hlast := hl.getLast?_eq hend hd
    rw [he, Option.some.injEq] at hlast
    exact hlast.symm
  rw [hde] at hd hend
  have hout : e ∉ new := (hl.congr_of_free ha.next_free ha.next_eq).2 hd
  exact ⟨hd, (ha.next_eq e hout).trans hend, hout⟩

/-- The new chain is stored in the entry of the end of an old one. -/
theorem Allocates.next_set (h : fat.WellFormed) (ha : fat.Allocates nbr f fat' new) {e : ℕ}
    (he : fat'.next e = some none) :
    (fat'.set e f).next = Function.update fat'.next e (some (some f)) := by
  funext d
  by_cases hd : d = e
  · rw [hd, Function.update_self]
    have hlt : e < fat'.size := by
      by_contra hlt
      unfold next at he
      rw [if_neg fun hc => hlt hc.1] at he
      cases he
    have hf := ha.two_le h
    have hf' : f < fat.size := (ha.free f ha.chain.mem_self).1
    have hsize := h.size_lt
    have hlink : f < 0x0FFFFFF8 := by omega
    unfold next
    rw [link_set_self fat' e (by omega), if_pos hlink]
    exact if_pos ⟨hlt, by omega⟩
  · rw [Function.update_of_ne hd]
    exact next_congr rfl (set_of_ne fat' f hd)

theorem Allocates.wellFormed_set (h : fat.WellFormed) (ha : fat.Allocates nbr f fat' new) {e : ℕ}
    (he : fat'.next e = some none) (hout : e ∉ new) : (fat'.set e f).WellFormed := by
  have hwf := ha.wellFormed h
  have hf := ha.two_le h
  have hf' : f < fat.size := (ha.free f ha.chain.mem_self).1
  have hsize := h.size_lt
  have hlink : ∀ d, d ≠ e → (fat'.set e f).link d = fat'.link d := fun d hd =>
    link_set_of_ne fat' f hd
  have hlink_e : (fat'.set e f).link e = f := link_set_self fat' e (by omega)
  have hne : ∀ d, fat'.link d ≠ 0 → (fat'.set e f).link d ≠ 0 := by
    intro d hd
    by_cases hde : d = e
    · rw [hde, hlink_e]
      omega
    · rw [hlink d hde]
      exact hd
  have hused : ∀ d, (fat'.set e f).Used d → fat'.Used d := by
    intro d hd
    refine ⟨hd.1, hd.2.1, fun hzero => ?_⟩
    by_cases hde : d = e
    · rw [hde] at hzero
      rw [next_of_free hzero] at he
      cases he
    · exact hd.2.2 ((hlink d hde).trans hzero)
  have htidy : Tidy (fat'.set e f).next fat'.Used := by
    rw [ha.next_set h he]
    refine hwf.tidy.join he ha.chain hout fun d l hd hl => ?_
    exact (h.tidy.old_or_new ha.chain ha.next_free ha.next_eq (ha.used d hd) hl).imp
      (fun hold => hold.2.2) id
  exact ⟨hwf.size_lt, hne 0 hwf.link_zero, hne 1 hwf.link_one,
    fun d hd => htidy.chain d (hused d hd),
    fun d d' l l' hd hd' => htidy.separate d d' l l' (hused d hd) (hused d' hd')⟩

end Allocated

end Fat

/-- Clusters are allocated as a chain of their own, and behind a chain they make it
longer and change no other one. -/
theorem gmFreeClusters_extends {fat : Fat} {nbr : ℕ} (h : fat.WellFormed) (hn : 1 ≤ nbr)
    (hfree : nbr ≤ fat.freeCount) :
    ∃ f fat' new, fat.gmFreeClusters nbr = some (f, fat') ∧ 2 ≤ f ∧
      fat'.getClusterChain f = some new ∧ new.length = nbr ∧ new.Nodup ∧
      (∀ d ∈ new, d < fat.size ∧ fat.link d = 0) ∧
      (∀ d, d ∉ new → fat'.table d = fat.table d) ∧ fat'.WellFormed ∧
      ∀ c l e, IsChain fat.next c l → l.getLast? = some e →
        (fat'.set e f).getClusterChain c = some (l ++ new) ∧
        (∀ d k, IsChain fat.next d k → e ∉ k → (fat'.set e f).getClusterChain d = some k) ∧
        (fat'.set e f).WellFormed := by
  obtain ⟨f, fat', new, halloc, ha⟩ := h.gmFreeClusters hn hfree
  refine ⟨f, fat', new, halloc, ha.two_le h, Fat.getClusterChain_of_isChain ha.chain, ha.length,
    ha.chain.nodup, ha.free, ha.others, ha.wellFormed h, fun c l e hl hlast => ?_⟩
  obtain ⟨hmem, hend, hout⟩ := ha.end_of_chain hl hlast
  have hkeep : ∀ d k, IsChain fat.next d k →
      IsChain (fat'.set e f).next d (if e ∈ k then k ++ new else k) := by
    intro d k hk
    rw [ha.next_set h hend]
    exact (hk.congr_of_free ha.next_free ha.next_eq).1.join hend ha.chain hout
  refine ⟨?_, fun d k hk hek => ?_, ha.wellFormed_set h hend hout⟩
  · have hchain := hkeep c l hl
    rw [if_pos hmem] at hchain
    exact Fat.getClusterChain_of_isChain hchain
  · have hchain := hkeep d k hk
    rw [if_neg hek] at hchain
    exact Fat.getClusterChain_of_isChain hchain

/-- A table of eight entries with the chain 3, 5. -/
def smallFat : Fat where
  size := 8
  table c := if c ≤ 1 then 0x0FFFFFFF else if c = 3 then 5 else if c = 5 then 0x0FFFFFF8 else 0

theorem smallFat_used {c : ℕ} (h : smallFat.Used c) : c = 3 ∨ c = 5 := by
  obtain ⟨h2, h8, hlink⟩ := h
  have hlt : c < 8 := h8
  interval_cases c
  all_goals first
    | exact Or.inl rfl
    | exact Or.inr rfl
    | exact absurd rfl hlink

theorem smallFat_chain : IsChain smallFat.next 3 [3, 5] :=
  IsChain.cons (by decide) (IsChain.last (by decide))

theorem smallFat_wellFormed : smallFat.WellFormed := by
  have hlast : IsChain smallFat.next 5 [5] := IsChain.last (by decide)
  have hchain : ∀ c, smallFat.Used c → ∃ l, IsChain smallFat.next c l ∧ l <:+ [3, 5] := by
    intro c hc
    cases smallFat_used hc with
    | inl h3 => exact ⟨[3, 5], h3 ▸ smallFat_chain, List.suffix_refl _⟩
    | inr h5 => exact ⟨[5], h5 ▸ hlast, List.suffix_cons 3 [5]⟩
  refine ⟨by decide, by decide, by decide, fun c hc => ?_, fun a b l l' ha hb hl hl' => ?_⟩
  · obtain ⟨l, hl, -⟩ := hchain c hc
    exact ⟨l, hl⟩
  · obtain ⟨k, hk, hsuf⟩ := hchain a ha
    obtain ⟨k', hk', hsuf'⟩ := hchain b hb
    rw [hl.unique hk, hl'.unique hk']
    exact Or.inr (List.suffix_or_suffix_of_suffix hsuf hsuf')

theorem gmFreeClusters_extends_small :
    2 ≤ smallFat.freeCount ∧ ∃ f fat' new, smallFat.gmFreeClusters 2 = some (f, fat') ∧
      fat'.getClusterChain f = some new ∧ new.length = 2 ∧
      (fat'.set 5 f).getClusterChain 3 = some ([3, 5] ++ new) := by
  have hfree : 2 ≤ smallFat.freeCount := by decide
  obtain ⟨f, fat', new, halloc, -, hnew, hlen, -, -, -, -, hext⟩ :=
    gmFreeClusters_extends smallFat_wellFormed (by decide) hfree
  exact ⟨hfree, f, fat', new, halloc, hnew, hlen, (hext 3 [3, 5] 5 smallFat_chain rfl).1⟩

end VkKernel.Fat32
