import VkKernel.Lib.Trace

/-!
# Simulation by a function

A system that keeps an invariant is simulated by a specification when every step, seen through an
abstraction of its states, is the step of the specification.
-/

namespace Trace

variable {σ τ α : Type} {step : σ → α → Option σ} {P : σ → α → Prop}

/-- A run can be checked step by step. -/
instance AllSteps.decidable [∀ s a, Decidable (P s a)] : ∀ s l, Decidable (AllSteps step P s l)
  | _, [] => .isTrue trivial
  | s, a :: l =>
    match hstep : step s a with
    | none => .isTrue fun _ ht => absurd (hstep.symm.trans ht) nofun
    | some t =>
      have := AllSteps.decidable t l
      decidable_of_iff (P s a ∧ AllSteps step P t l)
        ⟨fun h _ hu => Option.some.inj (hstep.symm.trans hu) ▸ h, fun h => h t hstep⟩

/-- Under the invariant, one step is one step of `spec` on the abstract states. -/
structure Simulates (step : σ → α → Option σ) (P : σ → α → Prop) (J : σ → Prop) (abs : σ → τ)
    (spec : τ → α → τ) : Prop where
  keep : ∀ s a t, J s → P s a → step s a = some t → J t
  commute : ∀ s a t, J s → P s a → step s a = some t → abs t = spec (abs s) a

/-- A whole run is a run of the specification. -/
theorem Simulates.run {J : σ → Prop} {abs : σ → τ} {spec : τ → α → τ}
    (h : Simulates step P J abs spec) {s t : σ} {l : List α} (hs : J s)
    (hall : AllSteps step P s l) (hrun : Trace.run step s l = some t) :
    J t ∧ abs t = l.foldl spec (abs s) := by
  induction l generalizing s with
  | nil =>
    rw [Trace.run, Option.some.injEq] at hrun
    subst hrun
    exact ⟨hs, rfl⟩
  | cons a l ih =>
    rw [Trace.run, Option.bind_eq_some_iff] at hrun
    obtain ⟨u, hu, hrun⟩ := hrun
    obtain ⟨hP, hrest⟩ := hall u hu
    have hcommute := h.commute s a u hs hP hu
    obtain ⟨hJ, habs⟩ := ih (h.keep s a u hs hP hu) hrest hrun
    rw [List.foldl_cons, ← hcommute]
    exact ⟨hJ, habs⟩

end Trace
