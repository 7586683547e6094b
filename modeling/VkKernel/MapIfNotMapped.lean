import VkKernel.CopyAdressSpace

/-!
# Ranges that are mapped in part

`map_memory_if_not_mapped` reserves one block for the whole range and skips the pages that are
mapped already, so a page that is new shows its part of the block, and one that is not keeps its
frame.
-/

namespace VkKernel
open Outcome IntervalUpdate

/-- The loop over the pages. -/
theorem Spaces.mapIfNotMapped {keep : ℕ → Prop} {ds : List ℕ} {g g' : Paging} {d size virt phys : ℕ}
    (h : Spaces False keep ds g) (hd : d ∈ ds) (hu : UserRange size virt)
    (hr : stepLoop 4096 (fun add g => if isMapped (u32 (virt + add)) d g then .ok g
      else VkKernel.mapPage (u32 (phys + add)) (u32 (virt + add)) d g) (pageCount size) 0 g = .ok g') :
    (∀ i < pageCount size, g.pageEntry d (virt / 4096 + i) = 0 → u32 (phys + i * 4096) % 4096 = 0) ∧
      Spaces False keep ds g' ∧ PagingFrame keep g g' ∧
      SetsPages ds d (virt / 4096) (pageCount size) (fun i =>
        if g.pageEntry d (virt / 4096 + i) = 0 then u32 (phys + i * 4096) + g.pageFlags d
        else g.pageEntry d (virt / 4096 + i)) g g' := by
  let v : ℕ → ℕ := fun i => if g.pageEntry d (virt / 4096 + i) = 0
    then u32 (phys + i * 4096) + g.pageFlags d else g.pageEntry d (virt / 4096 + i)
  let A : ℕ → Prop := fun i => g.pageEntry d (virt / 4096 + i) = 0 → u32 (phys + i * 4096) % 4096 = 0
  let P : ℕ → Paging → Prop := fun m g₁ => (∀ i < m, A i) ∧ Spaces False keep ds g₁ ∧
    PagingFrame keep g g₁ ∧ SetsPages ds d (virt / 4096) m v g g₁
  refine (stepLoop_rule (E := fun _ => True) P (fun i hi g₁ hP => ?_)
    ⟨by simp, h, .refl _ _, .refl _ _ _ _ _⟩).of_ok hr
  obtain ⟨hA, h₁, hf₁, hs₁⟩ := hP
  obtain ⟨hlt, hv⟩ := hu.lt hi
  have hpage : (virt + i * 4096) / 4096 = virt / 4096 + i := by
    have := hu.aligned
    omega
  have hin : virt / 4096 + i < userPages := by
    rw [← hpage]
    exact page_lt hlt
  -- the pages before have not changed this one
  have hentry : g₁.pageEntry d (virt / 4096 + i) = g.pageEntry d (virt / 4096 + i) := by
    rw [hs₁ d hd _ hin, if_pos rfl, overwrite_of_notMem (by omega)]
  rw [Nat.zero_add, hv, h₁.isMapped_eq hd hlt, hpage, hentry]
  have hsucc : ∀ {g₂}, A i → Spaces False keep ds g₂ → PagingFrame keep g₁ g₂ →
      SetsPages ds d (virt / 4096 + i) 1 (fun _ => v i) g₁ g₂ → P (i + 1) g₂ := by
    intro g₂ hAi h₂ hf₂ hs₂
    refine ⟨fun j hj => ?_, h₂, hf₁.trans hf₂, hs₁.succ hs₂⟩
    rcases Nat.lt_succ_iff_lt_or_eq.mp hj with hj | rfl
    · exact hA j hj
    · exact hAi
  by_cases hz : g.pageEntry d (virt / 4096 + i) = 0
  · rw [if_neg (by simp [hz])]
    cases hmap : VkKernel.mapPage (u32 (phys + i * 4096)) (virt + i * 4096) d g₁ with
    | error e => trivial
    | ok g₂ =>
      obtain ⟨halign, h₂, hf₂, hs₂⟩ := h₁.mapPage hd hlt hmap
      rw [hpage, hf₁.pageFlags] at hs₂
      have hvi : v i = u32 (phys + i * 4096) + g.pageFlags d := if_pos hz
      exact hsucc (fun _ => halign) h₂ hf₂ (hvi ▸ hs₂)
  · rw [if_pos (by simp [hz])]
    have hvi : v i = g.pageEntry d (virt / 4096 + i) := if_neg hz
    refine hsucc (fun hz' => absurd hz' hz) h₁ (.refl _ _) fun c hc x hx => ?_
    split_ifs with hcd
    · subst hcd
      by_cases hxp : x = virt / 4096 + i
      · subst hxp
        rw [overwrite_of_mem le_rfl (by omega), hvi, hentry]
      · rw [overwrite_of_notMem (by omega)]
    · rfl

/-- The frames behind: those that were there, else those of the new block. -/
def Translations.fill (σ : Translations) (d size virt a : ℕ) : Translations :=
  σ.set d size virt fun i => some ((σ d (virt / 4096 + i)).getD (a + i * 4096))

section Frames
variable {k k' : Kernel} {ds : List ℕ} {σ : Translations} {rv : List (ℕ × ℕ)} {n size virt d : ℕ}

theorem PrivateFrames.mapMemoryIfNotMapped (h : PrivateFrames k ds σ rv) (hd : d ∈ ds)
    (hu : UserRange size virt) (h0 : 0 < size)
    (hr : mapMemoryIfNotMapped (kmalloc n) size virt d k = .ok k') :
    ∃ a k₁, reserveBlock (kmalloc n) (alignup size 4096) (blockTypeFor d k.paging) k = .ok (a, k₁) ∧
      NewReservation a (alignup size 4096) k k₁ rv ∧
      PrivateFrames k' ds (σ.fill d size virt a) ((a, alignup size 4096) :: rv) ∧
      k' = { k₁ with paging := k'.paging } := by
  obtain ⟨⟨a, k₁⟩, hres, hr'⟩ := bind_eq_ok.mp hr
  have hsize := hu.small
  rw [hu.rangeSize_eq] at hres
  have hpages := hu.alignup_eq
  have hround : alignup (alignup size 4096) 4096 = alignup size 4096 :=
    alignup_of_dvd ⟨pageCount size, by rw [hpages.1, Nat.mul_comm]⟩
  obtain ⟨hnew, h₁⟩ := h.reserve (alignup_page_pos h0 (by omega)) (by omega)
    (reservedType_blockTypeFor _ _) hres
  rw [hround] at hnew h₁
  obtain ⟨g, hloop, hk'⟩ := bind_eq_ok.mp hr'
  injection hk' with hk'
  rw [hu.rangeSize_eq, hu.aligndown_eq, hu.forRange_eq, hnew.paging] at hloop
  obtain ⟨halign, hs, hf, hset⟩ := h.spaces.spaces.mapIfNotMapped hd hu hloop
  -- the entries are those of the frames
  have hbelow : ∀ i < pageCount size, virt / 4096 + i < userPages := by
    intro i hi
    have := hu.aligned
    have hlt := page_lt (hu.lt hi).1
    omega
  have hentry : ∀ i < pageCount size, (if k.paging.pageEntry d (virt / 4096 + i) = 0 then
      u32 (a + i * 4096) + k.paging.pageFlags d else k.paging.pageEntry d (virt / 4096 + i)) =
      entryOf (k.paging.pageFlags d) (some ((σ d (virt / 4096 + i)).getD (a + i * 4096))) := by
    intro i hi
    have hlt := hnew.lt
    rw [h.spaces.entries d hd _ (hbelow i hi)]
    cases hσ : σ d (virt / 4096 + i) with
    | none =>
      rw [entryOf, if_pos rfl, u32_of_lt (by omega)]
      rfl
    | some f =>
      have hne := (entryOf_ne_zero_iff (pageFlags_pos k.paging d) (some f)).mpr rfl
      rw [if_neg hne]
      rfl
  have hspaces : Represents k' ds (σ.fill d size virt a) := by
    refine h.spaces.setRange ?_ ?_ ?_ (fun i hi f hfi => ?_) fun c hc x hx => ?_
    · rw [← hk']
      exact h₁.sound
    · rw [← hk']
      exact hs
    · rw [← hk']
      exact hf
    · injection hfi with hfi
      rw [← hfi]
      cases hσ : σ d (virt / 4096 + i) with
      | none =>
        have hlt := hnew.lt
        have hzero := h.spaces.entries d hd _ (hbelow i hi)
        rw [hσ] at hzero
        have hmod := halign i hi hzero
        rwa [u32_of_lt (by omega)] at hmod
      | some f => exact h.spaces.aligned d hd _ f hσ
    · rw [← hk', hset c hc x hx]
      split_ifs with hcd
      · subst hcd
        by_cases hin : virt / 4096 ≤ x ∧ x < virt / 4096 + pageCount size
        · rw [overwrite_of_mem hin.1 hin.2, overwrite_of_mem hin.1 hin.2, hentry _ (by omega)]
        · rw [overwrite_of_notMem (by omega), overwrite_of_notMem (by omega)]
      · rfl
  refine ⟨a, k₁, hres, hnew, h.showBlock hnew hspaces ?_ (d := d) (s := virt / 4096) ?_, ?_⟩
  · obtain ⟨rs, hi⟩ := h₁.blocks
    subst hk'
    exact ⟨rs, hi.congr h₁.sound rfl fun r hr => hi.phys.live r (by simpa using hr)⟩
  · intro e p f hp
    unfold Translations.fill Translations.set at hp
    by_cases hed : e = d
    · subst hed
      rw [Function.update_self] at hp
      by_cases hin : virt / 4096 ≤ p ∧ p < virt / 4096 + pageCount size
      · rw [overwrite_of_mem hin.1 hin.2, Option.some.injEq, Nat.add_sub_cancel' hin.1] at hp
        cases hσ : σ e p with
        | none =>
          rw [hσ] at hp
          exact .inr ⟨rfl, p - virt / 4096, by omega, by omega, hp.symm⟩
        | some f' =>
          rw [hσ] at hp
          exact .inl (congrArg some hp)
      · rw [overwrite_of_notMem (by omega)] at hp
        exact .inl hp
    · rw [Function.update_of_ne hed] at hp
      exact .inl hp
  · rw [← hk']

end Frames

end VkKernel
