import VkKernel.Fat32

/-!
# Walks along a table of any content

`fat32fs_get_cluster_chain` goes on with whatever an entry holds, unless it is 0 or an end
mark. The table comes from the disk and is not checked.
-/

namespace VkKernel.Fat32
open Relation

namespace Fat

/-- The walk goes on from one entry to the other one. The marks of reserved and of bad
clusters are links like any other. -/
def LinksTo (fat : Fat) (c d : ℕ) : Prop :=
  fat.link c ≠ 0 ∧ ¬fat.link c ≥ 0x0FFFFFF8 ∧ fat.link c = d

/-- The walk comes to an end, with entries of the table only. -/
def WalkEnds (fat : Fat) (c : ℕ) : Prop := ∃ fuel l, fat.chainFrom fuel c = some l

/-- No link that can be followed from the entry leads outside the table, or back to where it
comes from. -/
structure Sound (fat : Fat) (c : ℕ) : Prop where
  inside : ∀ d, ReflTransGen fat.LinksTo c d → d < fat.size
  acyclic : ∀ d, ReflTransGen fat.LinksTo c d → ¬TransGen fat.LinksTo d d

variable {fat : Fat} {c d : ℕ}

theorem chainFrom_succ (fat : Fat) (fuel c : ℕ) :
    fat.chainFrom (fuel + 1) c =
      if c < fat.size then
        if fat.link c ≠ 0 ∧ ¬fat.link c ≥ 0x0FFFFFF8 then
          (fat.chainFrom fuel (fat.link c)).map (c :: ·)
        else some [c]
      else none := rfl

/-- What can be reached over at least one link is reached over the first one. -/
theorem LinksTo.first (h : TransGen fat.LinksTo c d) :
    fat.LinksTo c (fat.link c) ∧ ReflTransGen fat.LinksTo (fat.link c) d := by
  obtain ⟨b, hcb, hbd⟩ := TransGen.head'_iff.mp h
  have heq := hcb.2.2
  rw [heq]
  exact ⟨hcb, hbd⟩

/-- A walk that ends has seen everything that can be reached. -/
theorem sound_of_chainFrom {fuel : ℕ} {l : List ℕ} (h : fat.chainFrom fuel c = some l) :
    fat.Sound c := by
  induction fuel generalizing c l with
  | zero => cases h
  | succ fuel ih =>
    rw [chainFrom_succ] at h
    split_ifs at h with hlt hgo
    · -- the walk goes on
      rw [Option.map_eq_some_iff] at h
      obtain ⟨rest, hrest, -⟩ := h
      have hs := ih hrest
      have hsplit : ∀ d, ReflTransGen fat.LinksTo c d →
          d = c ∨ ReflTransGen fat.LinksTo (fat.link c) d := by
        intro d hd
        rcases reflTransGen_iff_eq_or_transGen.mp hd with heq | htrans
        · exact Or.inl heq
        · exact Or.inr (LinksTo.first htrans).2
      constructor
      · intro d hd
        rcases hsplit d hd with heq | hd'
        · rwa [heq]
        · exact hs.inside d hd'
      · intro d hd
        rcases hsplit d hd with heq | hd'
        · rw [heq]
          intro hcycle
          exact hs.acyclic c (LinksTo.first hcycle).2 hcycle
        · exact hs.acyclic d hd'
    · -- the walk stops
      have hstop : ∀ d, ¬TransGen fat.LinksTo c d := by
        intro d hd
        have hlink := (LinksTo.first hd).1
        exact hgo ⟨hlink.1, hlink.2.1⟩
      have hself : ∀ d, ReflTransGen fat.LinksTo c d → d = c := by
        intro d hd
        rcases reflTransGen_iff_eq_or_transGen.mp hd with heq | htrans
        · exact heq
        · exact absurd htrans (hstop d)
      constructor
      · intro d hd
        rwa [hself d hd]
      · intro d hd
        rw [hself d hd]
        exact hstop c

/-- The entries that can be reached, each one in front of those that follow it. -/
theorem Sound.wellFounded (h : fat.Sound c) :
    WellFounded fun x y : {d // ReflTransGen fat.LinksTo c d} => TransGen fat.LinksTo y.1 x.1 := by
  have hfinite : Finite {d // ReflTransGen fat.LinksTo c d} := by
    apply Finite.of_injective fun d : {d // ReflTransGen fat.LinksTo c d} =>
      (⟨d.1, h.inside d.1 d.2⟩ : Fin fat.size)
    intro x y hxy
    apply Subtype.ext
    exact congrArg Fin.val hxy
  have htrans : IsTrans {d // ReflTransGen fat.LinksTo c d}
      fun x y => TransGen fat.LinksTo y.1 x.1 := ⟨fun _ _ _ hxy hyz => hyz.trans hxy⟩
  have hirrefl : Std.Irrefl fun x y : {d // ReflTransGen fat.LinksTo c d} =>
      TransGen fat.LinksTo y.1 x.1 := ⟨fun x => h.acyclic x.1 x.2⟩
  exact Finite.wellFounded_of_trans_of_irrefl _

/-- From every entry that can be reached, the walk ends. -/
theorem Sound.walkEnds (h : fat.Sound c) : fat.WalkEnds c := by
  suffices hall : ∀ x : {d // ReflTransGen fat.LinksTo c d}, fat.WalkEnds x.1 from
    hall ⟨c, ReflTransGen.refl⟩
  intro x
  induction x using h.wellFounded.induction with
  | _ x ih =>
    have hlt := h.inside x.1 x.2
    by_cases hgo : fat.link x.1 ≠ 0 ∧ ¬fat.link x.1 ≥ 0x0FFFFFF8
    · have hlink : fat.LinksTo x.1 (fat.link x.1) := ⟨hgo.1, hgo.2, rfl⟩
      obtain ⟨fuel, l, hrest⟩ := ih ⟨fat.link x.1, x.2.tail hlink⟩ (TransGen.single hlink)
      refine ⟨fuel + 1, x.1 :: l, ?_⟩
      rw [chainFrom_succ, if_pos hlt, if_pos hgo, hrest]
      rfl
    · refine ⟨1, [x.1], ?_⟩
      rw [chainFrom_succ, if_pos hlt, if_neg hgo]

end Fat

/-- The walk from an entry of any table ends inside the table exactly if the links from the
entry on neither leave the table nor come back. -/
theorem walkEnds_iff_sound (fat : Fat) (c : ℕ) : fat.WalkEnds c ↔ fat.Sound c := by
  constructor
  · intro h
    obtain ⟨fuel, l, hrun⟩ := h
    exact Fat.sound_of_chainFrom hrun
  · exact Fat.Sound.walkEnds

/-- Entry 3 links to itself, and entry 4 has the mark of a bad cluster. -/
def corruptFat : Fat where
  size := 8
  table c := if c = 3 then 3 else if c = 4 then 0x0FFFFFF7 else 0x0FFFFFFF

/-- The walk from entry 3 has no end, and the one from entry 4 leaves the table. -/
theorem walk_fails_corrupt :
    3 < corruptFat.size ∧ ¬corruptFat.WalkEnds 3 ∧ 4 < corruptFat.size ∧ ¬corruptFat.WalkEnds 4 := by
  refine ⟨by decide, ?_, by decide, ?_⟩
  · rw [walkEnds_iff_sound]
    intro h
    have hself : corruptFat.LinksTo 3 3 := ⟨by decide, by decide, by decide⟩
    exact h.acyclic 3 Relation.ReflTransGen.refl (Relation.TransGen.single hself)
  · rw [walkEnds_iff_sound]
    intro h
    have hbad : corruptFat.LinksTo 4 0x0FFFFFF7 := ⟨by decide, by decide, by decide⟩
    exact absurd (h.inside _ (Relation.ReflTransGen.single hbad)) (by decide)

end VkKernel.Fat32
