import Mathlib

/-!
# Chains of successors

A map gives for each node that it goes on with another node, that it is an end, or
nothing. The chain of a node follows the map up to an end. Chains are tidy when
any two of them are disjoint or one of them is the rest of the other.
-/

namespace Chains

variable {α : Type}

/-- The nodes from `a` on are `l`. -/
inductive IsChain (next : α → Option (Option α)) : α → List α → Prop
  | last {a : α} : next a = some none → IsChain next a [a]
  | cons {a b : α} {l : List α} : next a = some (some b) → IsChain next b l →
      IsChain next a (a :: l)

variable {next next' : α → Option (Option α)} {a b c : α} {l l' : List α}

theorem IsChain.mem_self (h : IsChain next a l) : a ∈ l := by
  cases h with
  | last _ => exact List.mem_singleton_self a
  | cons _ _ => exact List.mem_cons_self

theorem IsChain.unique (h : IsChain next a l) (h' : IsChain next a l') : l = l' := by
  induction h generalizing l' with
  | last ha =>
    cases h' with
    | last _ => rfl
    | cons hb _ =>
      rw [ha] at hb
      cases hb
  | cons ha _ ih =>
    cases h' with
    | last hb =>
      rw [ha] at hb
      cases hb
    | cons hb hl =>
      rw [ha, Option.some.injEq, Option.some.injEq] at hb
      rw [ih (hb ▸ hl)]

/-- The rest of a chain is the chain of its first node. -/
theorem IsChain.of_mem (h : IsChain next a l) (hc : c ∈ l) : ∃ s, s <:+ l ∧ IsChain next c s := by
  induction h with
  | last ha =>
    rw [List.mem_singleton] at hc
    rw [← hc] at ha ⊢
    exact ⟨_, List.suffix_refl _, IsChain.last ha⟩
  | cons ha hl ih =>
    cases hc with
    | head => exact ⟨_, List.suffix_refl _, hl.cons ha⟩
    | tail _ hc =>
      obtain ⟨s, hs, hchain⟩ := ih hc
      exact ⟨s, hs.trans (List.suffix_cons _ _), hchain⟩

theorem IsChain.nodup (h : IsChain next a l) : l.Nodup := by
  induction h with
  | last _ => exact List.nodup_singleton _
  | cons ha hl ih =>
    refine List.nodup_cons.mpr ⟨fun hmem => ?_, ih⟩
    -- a chain that comes back is its own proper part
    obtain ⟨s, hs, hchain⟩ := hl.of_mem hmem
    have hlen := hs.length_le
    rw [hchain.unique (hl.cons ha), List.length_cons] at hlen
    omega

theorem IsChain.next_ne_none (h : IsChain next a l) (hc : c ∈ l) : next c ≠ none := by
  obtain ⟨s, -, hs⟩ := h.of_mem hc
  intro hnone
  cases hs with
  | last hn =>
    rw [hnone] at hn
    cases hn
  | cons hn _ =>
    rw [hnone] at hn
    cases hn

/-- A chain depends on the successors of its own nodes. -/
theorem IsChain.congr (h : IsChain next a l) (heq : ∀ c ∈ l, next' c = next c) :
    IsChain next' a l := by
  induction h with
  | last ha =>
    apply IsChain.last
    rw [heq _ (List.mem_singleton_self _), ha]
  | cons ha _ ih =>
    apply IsChain.cons
    · rw [heq _ List.mem_cons_self, ha]
    · exact ih fun c hc => heq c (List.mem_cons_of_mem _ hc)

/-- Chains stay as they are when only nodes without a successor are changed. -/
theorem IsChain.congr_of_free {new : List α} (h : IsChain next a l)
    (hfree : ∀ c ∈ new, next c = none) (heq : ∀ c, c ∉ new → next' c = next c) :
    IsChain next' a l ∧ l.Disjoint new := by
  have hdisj : l.Disjoint new := fun c hc hcn => h.next_ne_none hc (hfree c hcn)
  exact ⟨h.congr fun c hc => heq c fun hcn => hdisj hc hcn, hdisj⟩

/-- A chain ends with its only end. -/
theorem IsChain.getLast?_eq (h : IsChain next a l) (hc : next c = some none) (hmem : c ∈ l) :
    l.getLast? = some c := by
  induction h with
  | last _ =>
    rw [List.mem_singleton.mp hmem]
    rfl
  | cons ha hl ih =>
    cases hmem with
    | head =>
      rw [hc] at ha
      cases ha
    | tail _ hmem => rw [List.getLast?_cons, ih hmem, Option.getD_some]

theorem IsChain.exists_end (h : IsChain next a l) : ∃ c ∈ l, next c = some none := by
  induction h with
  | last ha => exact ⟨_, List.mem_singleton_self _, ha⟩
  | cons _ _ ih =>
    obtain ⟨c, hc, hend⟩ := ih
    exact ⟨c, List.mem_cons_of_mem _ hc, hend⟩

/-- A chain that is a part of another one has its end. -/
theorem IsChain.end_mem (h : IsChain next a l) (h' : IsChain next b l') (hsub : l' ⊆ l)
    (hc : next c = some none) (hmem : c ∈ l) : c ∈ l' := by
  obtain ⟨d, hd, hend⟩ := h'.exists_end
  have heq := h.getLast?_eq hc hmem
  rw [h.getLast?_eq hend (hsub hd), Option.some.injEq] at heq
  exact heq ▸ hd

variable [DecidableEq α]

/-- A chain whose end goes on with another chain. -/
theorem IsChain.extend {e f : α} {new : List α} (h : IsChain next a l) (he : next e = some none)
    (hmem : e ∈ l) (hnew : IsChain next f new) (hout : e ∉ new) :
    IsChain (Function.update next e (some (some f))) a (l ++ new) := by
  have hcongr : ∀ c, c ≠ e → Function.update next e (some (some f)) c = next c :=
    fun c hc => Function.update_of_ne hc ..
  induction h with
  | last ha =>
    rw [List.mem_singleton] at hmem
    rw [← hmem]
    apply IsChain.cons (Function.update_self ..)
    exact hnew.congr fun c hc => hcongr c fun hce => hout (hce ▸ hc)
  | @cons b _ l ha hl ih =>
    cases hmem with
    | head =>
      rw [he] at ha
      cases ha
    | tail _ hmem =>
      have hbe : b ≠ e := fun hbe => (List.nodup_cons.mp (hl.cons ha).nodup).1 (hbe ▸ hmem)
      apply IsChain.cons
      · rw [hcongr b hbe, ha]
      · exact ih hmem

/-- Every node in use has a chain, and two chains that meet are one chain from there
on. -/
structure Tidy (next : α → Option (Option α)) (used : α → Prop) : Prop where
  chain : ∀ a, used a → ∃ l, IsChain next a l
  separate : ∀ a b l l', used a → used b → IsChain next a l → IsChain next b l' →
    l.Disjoint l' ∨ l <:+ l' ∨ l' <:+ l

variable {used used' : α → Prop} {f : α} {new : List α}

omit [DecidableEq α] in
/-- Beside a new chain of nodes that were in no chain, a chain is an old one or a part
of the new one. -/
theorem Tidy.old_or_new (h : Tidy next used) (hnew : IsChain next' f new)
    (hfree : ∀ c ∈ new, next c = none) (heq : ∀ c, c ∉ new → next' c = next c)
    (hc : used c ∨ c ∈ new) (hl : IsChain next' c l) :
    (used c ∧ IsChain next c l ∧ l.Disjoint new) ∨ l <:+ new := by
  cases hc with
  | inl hc =>
    obtain ⟨k, hk⟩ := h.chain c hc
    obtain ⟨hk', hdisj⟩ := hk.congr_of_free hfree heq
    rw [hl.unique hk']
    exact Or.inl ⟨hc, hk, hdisj⟩
  | inr hc =>
    obtain ⟨s, hs, hchain⟩ := hnew.of_mem hc
    rw [hl.unique hchain]
    exact Or.inr hs

omit [DecidableEq α] in
theorem Tidy.adjoin (h : Tidy next used) (hnew : IsChain next' f new)
    (hfree : ∀ c ∈ new, next c = none) (heq : ∀ c, c ∉ new → next' c = next c)
    (hused : ∀ c, used' c → used c ∨ c ∈ new) : Tidy next' used' := by
  have hkind : ∀ a l, used' a → IsChain next' a l →
      (used a ∧ IsChain next a l ∧ l.Disjoint new) ∨ l <:+ new := fun a l ha hl =>
    h.old_or_new hnew hfree heq (hused a ha) hl
  refine ⟨fun a ha => ?_, fun a b l l' ha hb hl hl' => ?_⟩
  · cases hused a ha with
    | inl ha =>
      obtain ⟨l, hl⟩ := h.chain a ha
      exact ⟨l, (hl.congr_of_free hfree heq).1⟩
    | inr ha =>
      obtain ⟨s, -, hchain⟩ := hnew.of_mem ha
      exact ⟨s, hchain⟩
  · cases hkind a l ha hl with
    | inl hold =>
      cases hkind b l' hb hl' with
      | inl hold' => exact h.separate a b l l' hold.1 hold'.1 hold.2.1 hold'.2.1
      | inr hnew' => exact Or.inl fun c hc hc' => hold.2.2 hc (hnew'.subset hc')
    | inr hnew' =>
      cases hkind b l' hb hl' with
      | inl hold => exact Or.inl fun c hc hc' => hold.2.2 hc' (hnew'.subset hc)
      | inr hnew'' => exact Or.inr (List.suffix_or_suffix_of_suffix hnew' hnew'')

/-- The chains after a chain has been put behind the end `e`. -/
theorem IsChain.join {e : α} (h : IsChain next a l) (he : next e = some none)
    (hnew : IsChain next f new) (hout : e ∉ new) :
    IsChain (Function.update next e (some (some f))) a (if e ∈ l then l ++ new else l) := by
  split
  · rename_i hmem
    exact h.extend he hmem hnew hout
  · rename_i hmem
    apply h.congr
    intro c hc
    have hce : c ≠ e := fun hce => hmem (hce ▸ hc)
    exact Function.update_of_ne hce ..

theorem Tidy.join (h : Tidy next used) {e : α} (he : next e = some none)
    (hnew : IsChain next f new) (hout : e ∉ new)
    (hhead : ∀ c l, used c → IsChain next c l → l.Disjoint new ∨ l <:+ new) :
    Tidy (Function.update next e (some (some f))) used := by
  refine ⟨fun a ha => ?_, fun a b l l' ha hb hl hl' => ?_⟩
  · obtain ⟨l, hl⟩ := h.chain a ha
    exact ⟨_, hl.join he hnew hout⟩
  obtain ⟨k, hk⟩ := h.chain a ha
  obtain ⟨k', hk'⟩ := h.chain b hb
  rw [hl.unique (hk.join he hnew hout), hl'.unique (hk'.join he hnew hout)]
  have hsep := h.separate a b k k' ha hb hk hk'
  -- a chain that goes on with `new`, and one that does not
  have hone : ∀ x y c d, used d → IsChain next c x → IsChain next d y → e ∈ x → e ∉ y →
      x.Disjoint y ∨ x <:+ y ∨ y <:+ x → (x ++ new).Disjoint y ∨ y <:+ x ++ new := by
    intro x y c d hd hx hy hex hey hxy
    have hdisj : x.Disjoint y := by
      refine hxy.resolve_right fun hsuf => ?_
      cases hsuf with
      | inl hsuf => exact hey (hsuf.subset hex)
      | inr hsuf => exact hey (hx.end_mem hy hsuf.subset he hex)
    refine (hhead d y hd hy).imp (fun hyn => ?_) fun hyn => hyn.trans (List.suffix_append x new)
    intro z hz hzy
    cases List.mem_append.mp hz with
    | inl hz => exact hdisj hz hzy
    | inr hz => exact hyn hzy hz
  by_cases hek : e ∈ k
  · by_cases hek' : e ∈ k'
    · rw [if_pos hek, if_pos hek']
      refine Or.inr ((hsep.resolve_left fun hd => hd hek hek').imp ?_ ?_)
      · intro ⟨t, ht⟩
        exact ⟨t, by rw [← ht, List.append_assoc]⟩
      · intro ⟨t, ht⟩
        exact ⟨t, by rw [← ht, List.append_assoc]⟩
    · rw [if_pos hek, if_neg hek']
      exact (hone k k' a b hb hk hk' hek hek' hsep).imp id Or.inr
  · by_cases hek' : e ∈ k'
    · rw [if_neg hek, if_pos hek']
      have hsep' : k'.Disjoint k ∨ k' <:+ k ∨ k <:+ k' := hsep.imp List.Disjoint.symm Or.symm
      exact (hone k' k b a ha hk' hk hek' hek hsep').imp List.Disjoint.symm Or.inl
    · rw [if_neg hek, if_neg hek']
      exact hsep

end Chains
