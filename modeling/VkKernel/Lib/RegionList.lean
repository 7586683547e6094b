import Mathlib

/-!
# Ascending lists of regions

A region is a range of addresses with a tag; its key says where the record of
the region is kept. Lists of regions are cut, fused and replaced locally, and
what matters is that they stay ascending and keep their total size.
-/

namespace RegionList

structure Region (κ τ : Type) where
  key : κ
  base : ℕ
  size : ℕ
  tag : τ
deriving DecidableEq

variable {κ τ : Type}

def Region.stop (r : Region κ τ) : ℕ := r.base + r.size

def Region.Covers (r : Region κ τ) (x : ℕ) : Prop := r.base ≤ x ∧ x < r.stop

/-- Each region ends before every later one starts. -/
def Ascending (rs : List (Region κ τ)) : Prop := rs.Pairwise fun r s => r.stop ≤ s.base

def total (rs : List (Region κ τ)) : ℕ := (rs.map Region.size).sum

/-- The first `n` bytes of a region. -/
@[simps] def Region.cut (r : Region κ τ) (n : ℕ) (t : τ) : Region κ τ := { r with size := n, tag := t }

/-- What is left of a region after its first `n` bytes. -/
@[simps] def Region.rest (r : Region κ τ) (n : ℕ) (key : κ) (t : τ) : Region κ τ :=
  ⟨key, r.base + n, r.size - n, t⟩

/-- A region that takes over the size of the one after it. -/
@[simps] def Region.fuse (r s : Region κ τ) : Region κ τ := { r with size := r.size + s.size }

/-- It is enough to compare neighbours. -/
theorem ascending_of_isChain {rs : List (Region κ τ)}
    (h : rs.IsChain fun r s => r.stop ≤ s.base) : Ascending rs := by
  have : IsTrans (Region κ τ) fun r s => r.stop ≤ s.base :=
    ⟨fun r s t hrs hst => hrs.trans ((Nat.le_add_right _ _).trans hst)⟩
  exact List.isChain_iff_pairwise.mp h

/-- Replacing a part of the list by regions that stay within it. -/
theorem Ascending.replace {xs ms ys : List (Region κ τ)} (h : Ascending (xs ++ ms ++ ys))
    (zs : List (Region κ τ)) (hz : Ascending zs) (hlo : ∀ z ∈ zs, ∃ m ∈ ms, m.base ≤ z.base)
    (hhi : ∀ z ∈ zs, ∃ m ∈ ms, z.stop ≤ m.stop) : Ascending (xs ++ zs ++ ys) := by
  unfold Ascending at *
  rw [List.pairwise_append, List.pairwise_append] at h ⊢
  obtain ⟨⟨hx, -, hxm⟩, hy, hxy⟩ := h
  refine ⟨⟨hx, hz, ?_⟩, hy, ?_⟩
  · intro x hx z hz
    obtain ⟨m, hm, hle⟩ := hlo z hz
    exact (hxm x hx m hm).trans hle
  · intro a ha y hy
    rcases List.mem_append.mp ha with ha | ha
    · exact hxy a (List.mem_append_left _ ha) y hy
    · obtain ⟨m, hm, hle⟩ := hhi a ha
      exact hle.trans (hxy m (List.mem_append_right _ hm) y hy)

/-- What holds of every region still holds after a local replacement. -/
theorem forall_replace (P : Region κ τ → Prop) (xs ms zs ys : List (Region κ τ))
    (h : ∀ r ∈ xs ++ ms ++ ys, P r) (hz : ∀ z ∈ zs, P z) : ∀ r ∈ xs ++ zs ++ ys, P r := by
  intro r hr
  simp only [List.mem_append] at h hr
  rcases hr with (hr | hr) | hr
  · exact h r (.inl (.inl hr))
  · exact hz r hr
  · exact h r (.inr hr)

theorem total_append (xs ys : List (Region κ τ)) : total (xs ++ ys) = total xs + total ys := by
  simp [total]

@[simp] theorem total_cons (r : Region κ τ) (rs : List (Region κ τ)) :
    total (r :: rs) = r.size + total rs := by simp [total]

/-- Two different regions of an ascending list do not overlap. -/
theorem Ascending.apart {rs : List (Region κ τ)} (h : Ascending rs) {r s : Region κ τ}
    (hr : r ∈ rs) (hs : s ∈ rs) (hne : r ≠ s) : r.stop ≤ s.base ∨ s.stop ≤ r.base := by
  induction rs with
  | nil => cases hr
  | cons t ts ih =>
    obtain ⟨ht, hts⟩ := List.pairwise_cons.mp h
    rcases List.mem_cons.mp hr with rfl | hr' <;> rcases List.mem_cons.mp hs with rfl | hs'
    · exact absurd rfl hne
    · exact .inl (ht s hs')
    · exact .inr (ht r hr')
    · exact ih hts hr' hs'

theorem total_cut {xs ys : List (Region κ τ)} {r : Region κ τ} {n : ℕ} {t t' : τ} {key : κ}
    (hn : n ≤ r.size) : total (xs ++ r.cut n t :: r.rest n key t' :: ys) = total (xs ++ r :: ys) := by
  simp only [total_append, total_cons, Region.cut, Region.rest]
  omega

end RegionList
