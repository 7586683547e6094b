import VkKernel.Lib.Trace

/-!
# Runs that reach a goal

A natural number that no step increases and that some steps decrease bounds how many of these
steps a run can take before it has been at the goal.
-/

namespace Trace
variable {σ α : Type} {step : σ → α → Option σ} {G : σ → Prop} {s t : σ} {l : List α}

/-- Some state of the run satisfies `G`. -/
def Visits (step : σ → α → Option σ) (G : σ → Prop) : σ → List α → Prop
  | s, [] => G s
  | s, a :: as => G s ∨ ∃ t, step s a = some t ∧ Visits step G t as

theorem Visits.of_start (h : G s) (l : List α) : Visits step G s l := by
  cases l with
  | nil => exact h
  | cons a as => exact Or.inl h

/-- A run that has been at the goal begins with one that ends there. -/
theorem Visits.exists_run (h : Visits step G s l) :
    ∃ l' t, l' <+: l ∧ run step s l' = some t ∧ G t := by
  induction l generalizing s with
  | nil => exact ⟨[], s, List.prefix_rfl, rfl, h⟩
  | cons a as ih =>
    rcases h with h | ⟨t, ht, h⟩
    · exact ⟨[], s, List.nil_prefix, rfl, h⟩
    · obtain ⟨l', u, hl', hu, hG⟩ := ih h
      refine ⟨a :: l', u, List.cons_prefix_cons.mpr ⟨rfl, hl'⟩, ?_, hG⟩
      rw [run, ht, Option.bind_some]
      exact hu

/-- A rank that no step increases, until the goal, and that the steps of the labels in `D`
decrease. -/
structure IsRanking (step : σ → α → Option σ) (J G : σ → Prop) (P D : α → Bool) (rank : σ → ℕ) :
    Prop where
  keeps : ∀ {s a t}, J s → ¬G s → P a → step s a = some t → G t ∨ J t ∧ rank t ≤ rank s
  drops : ∀ {s a t}, J s → ¬G s → P a → step s a = some t → D a → G t ∨ rank t < rank s

/-- A run with more of these labels than its rank has been at the goal. -/
theorem IsRanking.visits {J : σ → Prop} {P D : α → Bool} {rank : σ → ℕ}
    (hrank : IsRanking step J G P D rank) (hs : J s) (hrun : run step s l = some t)
    (hP : ∀ a ∈ l, P a) (hcount : rank s < l.countP D) : Visits step G s l := by
  induction l generalizing s with
  | nil => simp at hcount
  | cons a as ih =>
    by_cases hG : G s
    · exact Or.inl hG
    rw [run, Option.bind_eq_some_iff] at hrun
    obtain ⟨u, hu, hrun⟩ := hrun
    have hPa := hP a List.mem_cons_self
    refine Or.inr ⟨u, hu, ?_⟩
    by_cases hGu : G u
    · exact Visits.of_start hGu as
    obtain ⟨hJ, hle⟩ := (hrank.keeps hs hG hPa hu).resolve_left hGu
    apply ih hJ hrun fun b hb => hP b (List.mem_cons_of_mem _ hb)
    by_cases hD : D a = true
    · have hlt := (hrank.drops hs hG hPa hu hD).resolve_left hGu
      rw [List.countP_cons_of_pos hD] at hcount
      omega
    · rw [List.countP_cons_of_neg hD] at hcount
      omega

end Trace
