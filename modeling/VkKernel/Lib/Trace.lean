import Mathlib

/-!
# Runs of a transition system

A system takes labelled steps, some of which are impossible in some states. A
trace is a run in which every step meets a condition on the state before it
and the label.
-/

namespace Trace

variable {σ α : Type}

/-- Execute the labels one after the other. -/
def run (step : σ → α → Option σ) : σ → List α → Option σ
  | s, [] => some s
  | s, a :: as => (step s a).bind fun t => run step t as

/-- The states that runs from `s` reach when all their steps meet `P`. -/
inductive Reach (step : σ → α → Option σ) (P : σ → α → Prop) (s : σ) : σ → Prop
  | start : Reach step P s s
  | next {t u : σ} {a : α} : Reach step P s t → P t a → step t a = some u → Reach step P s u

variable {step : σ → α → Option σ} {P : σ → α → Prop}

theorem Reach.invariant {I : σ → Prop}
    (hstep : ∀ t a u, I t → P t a → step t a = some u → I u) {s t : σ} (hs : I s)
    (h : Reach step P s t) : I t := by
  induction h with
  | start => exact hs
  | next _ hp hu ih => exact hstep _ _ _ ih hp hu

/-- A run of labels that meet the condition in every state. -/
theorem Reach.of_run {s t u : σ} {l : List α} (hs : Reach step P s t)
    (hP : ∀ a ∈ l, ∀ v, P v a) (h : run step t l = some u) : Reach step P s u := by
  induction l generalizing t with
  | nil =>
    rw [run, Option.some.injEq] at h
    exact h ▸ hs
  | cons a l ih =>
    rw [run, Option.bind_eq_some_iff] at h
    obtain ⟨v, hv, hrun⟩ := h
    exact ih (hs.next (hP a (List.mem_cons_self ..) t) hv)
      (fun b hb => hP b (List.mem_cons_of_mem _ hb)) hrun

/-- Every state of the run satisfies `I`. -/
def Always (step : σ → α → Option σ) (I : σ → Prop) : σ → List α → Prop
  | s, [] => I s
  | s, a :: as => I s ∧ ∀ t, step s a = some t → Always step I t as

/-- Every step of the run satisfies `P`. -/
def AllSteps (step : σ → α → Option σ) (P : σ → α → Prop) : σ → List α → Prop
  | _, [] => True
  | s, a :: as => ∀ t, step s a = some t → P s a ∧ AllSteps step P t as

theorem AllSteps.cons {s t : σ} {a : α} {as : List α} (ht : step s a = some t) (hP : P s a)
    (h : AllSteps step P t as) : AllSteps step P s (a :: as) := by
  intro u hu
  rw [ht, Option.some.injEq] at hu
  exact ⟨hP, hu ▸ h⟩

theorem AllSteps.reach {r s t : σ} {l : List α} (h : AllSteps step P s l)
    (hr : Reach step P r s) (ht : run step s l = some t) : Reach step P r t := by
  induction l generalizing s with
  | nil =>
    rw [run, Option.some.injEq] at ht
    exact ht ▸ hr
  | cons a as ih =>
    rw [run, Option.bind_eq_some_iff] at ht
    obtain ⟨u, hu, ht⟩ := ht
    obtain ⟨hP, has⟩ := h u hu
    exact ih has (hr.next hP hu) ht

theorem Always.head {I : σ → Prop} {s : σ} {l : List α} (h : Always step I s l) : I s := by
  cases l with
  | nil => exact h
  | cons a as => exact h.1

/-- A condition on steps is exact for `I` if it keeps an invariant that implies `I`, and
every other step leads to a state without `I`. -/
theorem always_iff_allSteps {J I : σ → Prop} (hI : ∀ s, J s → I s)
    (hkeep : ∀ s a t, J s → P s a → step s a = some t → J t)
    (hbreak : ∀ s a t, J s → ¬P s a → step s a = some t → ¬I t) {s : σ} (hs : J s) (l : List α) :
    Always step I s l ↔ AllSteps step P s l := by
  induction l generalizing s with
  | nil => exact iff_of_true (hI s hs) trivial
  | cons a as ih =>
    constructor
    · intro h t ht
      have hP : P s a := by
        by_contra hP
        exact hbreak s a t hs hP ht (h.2 t ht).head
      exact ⟨hP, (ih (hkeep s a t hs hP ht)).mp (h.2 t ht)⟩
    · intro h
      refine ⟨hI s hs, fun t ht => ?_⟩
      obtain ⟨hP, hrest⟩ := h t ht
      exact (ih (hkeep s a t hs hP ht)).mpr hrest

end Trace
