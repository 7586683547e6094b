import VkKernel.Fat32

/-!
# Freeing clusters

`fat32fs_free_cluster_chain` follows the links that it clears. It clears the entries of a
chain, and behind its loop once more the entry with the number that ended the loop, which is
the end mark and lies far outside the table.
-/

namespace VkKernel.Fat32
open Chains

namespace Fat

/-- The loop of `fat32fs_free_cluster_chain`: the entries that it reads and clears, the table
behind it, and the last value of `cluster`. Behind the table is what the memory holds. -/
def freeFrom (fat : Fat) : ℕ → ℕ → Option (List ℕ × Fat × ℕ)
  | 0, _ => none
  | fuel + 1, cluster =>
    let cchain := fat.link cluster
    let fat' := fat.set cluster 0
    if cchain ≠ 0 ∧ ¬cchain ≥ 0x0FFFFFF8 then
      (fat'.freeFrom fuel cchain).map fun r => (cluster :: r.1, r.2)
    else some ([cluster], fat', cchain)

/-- `fat32fs_free_cluster_chain`: the entries that it accesses, and the table behind it. -/
def freeClusterChain (fat : Fat) (fcluster fuel : ℕ) : Option (List ℕ × Fat) :=
  (fat.freeFrom fuel fcluster).map fun r => (r.1 ++ [r.2.2], r.2.1.set r.2.2 0)

/-- The table with these entries cleared. -/
def clear (fat : Fat) (l : List ℕ) : Fat :=
  { fat with table := fun c => if c ∈ l then 0 else fat.table c }

/-- Freeing the chain clears its entries, and accesses only the table. -/
def FreesChain (fat : Fat) (c : ℕ) (l : List ℕ) : Prop :=
  ∃ fuel places fat', fat.freeClusterChain c fuel = some (places, fat') ∧
    (∀ d, fat'.table d = (fat.clear l).table d) ∧ ∀ d ∈ places, d < fat.size

/-- Freeing what has been allocated gives the table back, and both access only the table. The
search for free clusters has no result outside of it. -/
def FreesAllocated (fat : Fat) (nbr : ℕ) : Prop :=
  ∃ f fat', fat.gmFreeClusters nbr = some (f, fat') ∧
    ∃ fuel places fat'', fat'.freeClusterChain f fuel = some (places, fat'') ∧
      (∀ c < fat.size, fat''.table c = fat.table c) ∧ ∀ c ∈ places, c < fat.size

variable {fat fat' : Fat} {c : ℕ} {l : List ℕ}

theorem clear_cons (fat : Fat) (c : ℕ) (l : List ℕ) : (fat.set c 0).clear l = fat.clear (c :: l) := by
  unfold clear
  congr 1
  funext d
  by_cases hd : d ∈ l
  · rw [if_pos hd, if_pos (List.mem_cons_of_mem _ hd)]
  · rw [if_neg hd]
    by_cases hdc : d = c
    · rw [hdc, set_self, if_pos List.mem_cons_self]
    · rw [set_of_ne fat 0 hdc, if_neg]
      simp [hdc, hd]

/-- The link of a cluster that goes on, and the mark of one that ends its chain. -/
theorem next_eq_some {v : Option ℕ} (h : fat.next c = some v) :
    c < fat.size ∧ fat.link c ≠ 0 ∧
      v = if fat.link c < 0x0FFFFFF8 then some (fat.link c) else none := by
  unfold next at h
  split_ifs at h with hin hlt
  · rw [Option.some.injEq] at h
    rw [if_pos hlt]
    exact ⟨hin.1, hin.2, h.symm⟩
  · rw [Option.some.injEq] at h
    rw [if_neg hlt]
    exact ⟨hin.1, hin.2, h.symm⟩

/-- The loop clears the entries of a chain one by one, and stops with the mark of its end. -/
theorem freeFrom_of_isChain (h : IsChain fat.next c l) :
    ∃ m, 0x0FFFFFF8 ≤ m ∧ ∀ fuel, fat.freeFrom fuel c =
      if l.length ≤ fuel then some (l, fat.clear l, m) else none := by
  induction l generalizing fat c with
  | nil => cases h
  | cons a rest ih =>
    have hclear : (fat.set a 0).clear [] = fat.clear [a] := clear_cons fat a []
    cases h with
    | last hend =>
      obtain ⟨-, hlink, hmark⟩ := next_eq_some hend
      have hge : 0x0FFFFFF8 ≤ fat.link a := by
        by_contra hlt
        rw [if_pos (not_le.mp hlt)] at hmark
        cases hmark
      refine ⟨fat.link a, hge, ?_⟩
      intro fuel
      cases fuel with
      | zero => rfl
      | succ fuel =>
        rw [freeFrom, if_neg (by omega), if_pos (by simp), ← hclear]
        simp [clear]
    | @cons _ b _ hgo hrest =>
      obtain ⟨-, hlink, hmark⟩ := next_eq_some hgo
      have hlt : fat.link a < 0x0FFFFFF8 := by
        by_contra hge
        rw [if_neg hge] at hmark
        cases hmark
      rw [if_pos hlt, Option.some.injEq] at hmark
      -- the rest of the chain does not come back to the cleared entry
      have hnodup := (hrest.cons hgo).nodup
      have hkeep : IsChain (fat.set a 0).next b rest := by
        apply hrest.congr
        intro d hd
        have hda : d ≠ a := by
          intro heq
          exact (List.nodup_cons.mp hnodup).1 (heq ▸ hd)
        exact next_congr rfl (set_of_ne fat 0 hda)
      obtain ⟨m, hm, hrun⟩ := ih hkeep
      refine ⟨m, hm, ?_⟩
      intro fuel
      cases fuel with
      | zero => rfl
      | succ fuel =>
        rw [freeFrom, if_pos ⟨hlink, by omega⟩, ← hmark, hrun fuel, clear_cons]
        simp only [List.length_cons, Nat.add_le_add_iff_right]
        split_ifs <;> rfl

/-- Every call for a chain accesses the entries of the chain and one with the number of an end
mark. -/
theorem freeClusterChain_of_isChain (h : IsChain fat.next c l) :
    ∃ m, 0x0FFFFFF8 ≤ m ∧ ∀ fuel, fat.freeClusterChain c fuel =
      if l.length ≤ fuel then some (l ++ [m], (fat.clear l).set m 0) else none := by
  obtain ⟨m, hm, hrun⟩ := freeFrom_of_isChain h
  refine ⟨m, hm, ?_⟩
  intro fuel
  rw [freeClusterChain, hrun]
  split_ifs <;> rfl

/-- Inside the table exactly the entries of the chain are cleared. -/
theorem WellFormed.freeClusterChain (hwf : fat.WellFormed) (h : IsChain fat.next c l) :
    ∃ m fat', fat.freeClusterChain c l.length = some (l ++ [m], fat') ∧ fat.size < m ∧
      ∀ d < fat.size, fat'.table d = (fat.clear l).table d := by
  obtain ⟨m, hm, hrun⟩ := freeClusterChain_of_isChain h
  have hsize := hwf.size_lt
  refine ⟨m, (fat.clear l).set m 0, ?_, by omega, ?_⟩
  · rw [hrun, if_pos le_rfl]
  · intro d hd
    exact set_of_ne _ 0 (by omega)

/-- Inside the table what has been allocated is free again. -/
theorem Allocates.clear_table {nbr f : ℕ} {new : List ℕ} (ha : fat.Allocates nbr f fat' new)
    (hfree : ∀ d < fat.size, fat.link d = 0 → fat.table d = 0) (d : ℕ) :
    (fat'.clear new).table d = fat.table d := by
  change (if d ∈ new then 0 else fat'.table d) = fat.table d
  by_cases hd : d ∈ new
  · obtain ⟨hlt, hlink⟩ := ha.free d hd
    rw [if_pos hd, hfree d hlt hlink]
  · rw [if_neg hd, ha.others d hd]

/-- No call for a chain stays in the table. -/
theorem not_freesChain (hwf : fat.WellFormed) (h : IsChain fat.next c l) {fuel : ℕ} {places : List ℕ}
    (hrun : fat.freeClusterChain c fuel = some (places, fat')) : ¬∀ d ∈ places, d < fat.size := by
  obtain ⟨m, hm, hall⟩ := freeClusterChain_of_isChain h
  have hsize := hwf.size_lt
  rw [hall] at hrun
  split_ifs at hrun
  rw [Option.some.injEq, Prod.mk.injEq] at hrun
  intro hin
  have := hin m (by rw [← hrun.1]; simp)
  omega

end Fat

/-- In no well-formed table the freeing of a chain, or of clusters that have just been
allocated, stays inside the table. Inside of it, exactly the entries of the chain are
cleared, and the entries that had been allocated are as before. -/
theorem freeClusterChain_leaves_table {fat : Fat} (h : fat.WellFormed) :
    (∀ c l, IsChain fat.next c l → ¬fat.FreesChain c l ∧
      ∃ fuel m fat', fat.freeClusterChain c fuel = some (l ++ [m], fat') ∧ fat.size < m ∧
        ∀ d < fat.size, fat'.table d = (fat.clear l).table d) ∧
    ∀ nbr, 1 ≤ nbr → nbr ≤ fat.freeCount →
      (∀ d < fat.size, fat.link d = 0 → fat.table d = 0) → ¬fat.FreesAllocated nbr ∧
        ∃ f fat', fat.gmFreeClusters nbr = some (f, fat') ∧
          ∃ fuel l m fat'', fat'.freeClusterChain f fuel = some (l ++ [m], fat'') ∧
            (∀ d ∈ l, d < fat.size) ∧ fat.size < m ∧ ∀ d < fat.size, fat''.table d = fat.table d := by
  constructor
  · intro c l hl
    constructor
    · intro hfrees
      obtain ⟨fuel, places, fat', hrun, -, hin⟩ := hfrees
      exact Fat.not_freesChain h hl hrun hin
    · obtain ⟨m, fat', hrun, hm, htable⟩ := h.freeClusterChain hl
      exact ⟨l.length, m, fat', hrun, hm, htable⟩
  · intro nbr hn hcount hfree
    obtain ⟨f, fat', new, halloc, ha⟩ := h.gmFreeClusters hn hcount
    have hwf := ha.wellFormed h
    constructor
    · intro hfrees
      obtain ⟨f₁, fat₁, halloc₁, fuel, places, fat'', hrun, -, hin⟩ := hfrees
      rw [halloc, Option.some.injEq, Prod.mk.injEq] at halloc₁
      rw [← halloc₁.1, ← halloc₁.2] at hrun
      apply Fat.not_freesChain hwf ha.chain hrun
      rwa [ha.size]
    · obtain ⟨m, fat'', hrun, hm, htable⟩ := hwf.freeClusterChain ha.chain
      rw [ha.size] at hm htable
      refine ⟨f, fat', halloc, new.length, new, m, fat'', hrun, fun d hd => (ha.free d hd).1, hm, ?_⟩
      intro d hd
      rw [htable d hd, ha.clear_table hfree]

/-- Two free clusters of a table of eight entries are allocated and freed. -/
theorem freeClusterChain_leaves_table_small :
    ¬smallFat.FreesChain 3 [3, 5] ∧ ¬smallFat.FreesAllocated 2 := by
  obtain ⟨hchain, hallocated⟩ := freeClusterChain_leaves_table smallFat_wellFormed
  refine ⟨(hchain 3 [3, 5] smallFat_chain).1, (hallocated 2 (by decide) (by decide) ?_).1⟩
  decide

/-- The chain 3, 5 is freed in a table of eight entries: the last entry that is cleared is
the one with the number of the end mark. -/
theorem freeClusterChain_end_mark :
    smallFat.WellFormed ∧ IsChain smallFat.next 3 [3, 5] ∧ smallFat.size = 8 ∧
      (smallFat.freeClusterChain 3 2).map Prod.fst = some [3, 5, 0x0FFFFFF8] ∧
      ¬smallFat.FreesChain 3 [3, 5] := by
  refine ⟨smallFat_wellFormed, smallFat_chain, rfl, by decide, ?_⟩
  intro hfrees
  obtain ⟨fuel, places, fat', hrun, -, hin⟩ := hfrees
  exact Fat.not_freesChain smallFat_wellFormed smallFat_chain hrun hin

end VkKernel.Fat32
