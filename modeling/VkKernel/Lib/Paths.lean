import Mathlib

/-!
# Bounded paths

A recursion over the successors of a node ends if the paths from the node are bounded. When only
finitely many nodes can be reached, this is so exactly if none of them is on a cycle.
-/

namespace Paths
open Relation

variable {α : Type} {r : α → α → Prop} {a b : α}

/-- Every path from the node has fewer than `n` steps. -/
def Within (r : α → α → Prop) : ℕ → α → Prop
  | 0, _ => False
  | n + 1, a => ∀ b, r a b → Within r n b

theorem Within.succ {n : ℕ} (h : Within r n a) : Within r (n + 1) a := by
  induction n generalizing a with
  | zero => exact h.elim
  | succ n ih =>
    intro b hb
    apply ih
    exact h b hb

theorem Within.mono {m n : ℕ} (hmn : m ≤ n) (h : Within r m a) : Within r n a := by
  induction hmn with
  | refl => exact h
  | step _ ih => exact ih.succ

theorem Within.acc {n : ℕ} (h : Within r n a) : Acc (Function.swap r) a := by
  induction n generalizing a with
  | zero => exact h.elim
  | succ n ih =>
    constructor
    intro b hb
    apply ih
    exact h b hb

theorem not_self_of_acc {s : α → α → Prop} (h : Acc s a) : ¬s a a := by
  induction h with
  | intro a _ ih => exact fun ha => ih a ha ha

/-- No node on a cycle can be reached. -/
theorem not_transGen_of_acc (h : Acc (Function.swap r) a) (hb : ReflTransGen r a b) :
    ¬TransGen r b b := by
  have hreach : Acc (Function.swap r) b := by
    induction hb with
    | refl => exact h
    | tail _ hbc ih => exact ih.inv hbc
  intro hcycle
  have hself : TransGen (Function.swap r) b b := transGen_swap.mpr hcycle
  exact not_self_of_acc hreach.transGen hself

/-- The bounds of finitely many successors have a maximum. -/
theorem exists_within_of_acc (hfin : ∀ a, {b | r a b}.Finite) (h : Acc (Function.swap r) a) :
    ∃ n, Within r n a := by
  induction h with
  | intro a _ ih =>
    choose f hf using ih
    classical
    obtain ⟨n, hn⟩ : ∃ n, ∀ b (hb : r a b), f b hb ≤ n := by
      have hbound : ((fun b => if hb : r a b then f b hb else 0) '' {b | r a b}).Finite :=
        (hfin a).image _
      obtain ⟨n, hn⟩ := hbound.bddAbove
      refine ⟨n, fun b hb => ?_⟩
      have hle := hn ⟨b, hb, rfl⟩
      simpa only [dif_pos hb] using hle
    exact ⟨n + 1, fun b hb => (hf b hb).mono (hn b hb)⟩

/-- Without a cycle, finitely many nodes have no endless path. -/
theorem acc_of_not_transGen (hfin : {b | ReflTransGen r a b}.Finite)
    (h : ∀ b, ReflTransGen r a b → ¬TransGen r b b) : Acc (Function.swap r) a := by
  let reached : Type := {b // ReflTransGen r a b}
  have : Finite reached := hfin.to_subtype
  let path : reached → reached → Prop := fun x y => TransGen r y.1 x.1
  have htrans : IsTrans reached path := ⟨fun x y z hxy hyz => hyz.trans hxy⟩
  have hirrefl : Std.Irrefl path := ⟨fun x => h x.1 x.2⟩
  have hwf : WellFounded path := Finite.wellFounded_of_trans_of_irrefl path
  have hacc : ∀ x : reached, Acc (Function.swap r) x.1 := by
    intro x
    induction x using hwf.induction with
    | _ x ih =>
      constructor
      intro b hb
      exact ih ⟨b, x.2.tail hb⟩ (TransGen.single hb)
  exact hacc ⟨a, ReflTransGen.refl⟩

theorem exists_within_iff (hsucc : ∀ a, {b | r a b}.Finite)
    (hfin : {b | ReflTransGen r a b}.Finite) :
    (∃ n, Within r n a) ↔ ¬∃ b, ReflTransGen r a b ∧ TransGen r b b := by
  constructor
  · rintro ⟨n, hn⟩ ⟨b, hb, hcycle⟩
    exact not_transGen_of_acc hn.acc hb hcycle
  · intro h
    apply exists_within_of_acc hsucc
    apply acc_of_not_transGen hfin
    exact fun b hb hcycle => h ⟨b, hb, hcycle⟩

/-- Where every node has one predecessor, of two nodes before a third one leads to the other. -/
theorem comparable {s t z : α} (huniq : ∀ {x y z}, ReflTransGen r a x → ReflTransGen r a y →
      r x z → r y z → x = y) (hs : ReflTransGen r a s) (ht : ReflTransGen r a t)
    (hsz : ReflTransGen r s z) (htz : ReflTransGen r t z) :
    ReflTransGen r s t ∨ ReflTransGen r t s := by
  induction hsz with
  | refl => exact Or.inr htz
  | tail hsy hyz ih =>
    rcases htz.cases_tail with rfl | ⟨y', hty, hy'z⟩
    · exact Or.inl (hsy.tail hyz)
    · obtain rfl := huniq (hs.trans hsy) (ht.trans hty) hyz hy'z
      exact ih hty

end Paths
