import Mathlib

/-!
# Doubly linked lists

A doubly linked list lives in two maps from nodes to nodes. `Seg` says that a
list of nodes is threaded by the maps between two given ends; inserting and
removing a node after another one keep a threaded list threaded. Some nodes may
have a back link that is out of date, as long as it is one of the links marked
`stale`.
-/

namespace LinkedList

variable {α : Type}

structure Links (α : Type) where
  next : α → α
  prev : α → α

/-- The nodes `xs` are met from `a` on, `p` being the node before `a`. Past the
last of them, the node before is `q` and the next one is `b`. -/
def Seg (null : α) (stale : α → Prop) (l : Links α) : α → α → List α → α → α → Prop
  | p, a, [], q, b => p = q ∧ a = b
  | p, a, x :: xs, q, b => a = x ∧ x ≠ null ∧ (l.prev x = p ∨ stale (l.prev x)) ∧
      Seg null stale l x (l.next x) xs q b

variable {null : α} {stale : α → Prop} {l l' : Links α}

theorem seg_append {p a q b : α} {xs ys : List α} :
    Seg null stale l p a (xs ++ ys) q b ↔ ∃ c d, Seg null stale l p a xs c d ∧ Seg null stale l c d ys q b := by
  induction xs generalizing p a with
  | nil =>
    constructor
    · intro h
      exact ⟨p, a, ⟨rfl, rfl⟩, h⟩
    · rintro ⟨c, d, ⟨rfl, rfl⟩, h⟩
      exact h
  | cons x xs ih =>
    simp only [List.cons_append, Seg, ih]
    constructor
    · rintro ⟨ha, hx, hp, c, d, h, h'⟩
      exact ⟨c, d, ⟨ha, hx, hp, h⟩, h'⟩
    · rintro ⟨c, d, ⟨ha, hx, hp, h⟩, h'⟩
      exact ⟨ha, hx, hp, c, d, h, h'⟩

/-- A list stays threaded when the links of its own nodes are not touched. -/
theorem Seg.congr {p a q b : α} {xs : List α} (h : Seg null stale l p a xs q b)
    (hn : ∀ x ∈ xs, l'.next x = l.next x) (hp : ∀ x ∈ xs, l'.prev x = l.prev x) :
    Seg null stale l' p a xs q b := by
  induction xs generalizing p a with
  | nil => exact h
  | cons x xs ih =>
    obtain ⟨ha, hx, hpx, h⟩ := h
    refine ⟨ha, hx, by rw [hp x List.mem_cons_self]; exact hpx, ?_⟩
    rw [hn x List.mem_cons_self]
    exact ih h (fun y hy => hn y (List.mem_cons_of_mem _ hy))
      (fun y hy => hp y (List.mem_cons_of_mem _ hy))

/-- More back links may be marked stale. -/
theorem Seg.mono {stale' : α → Prop} {p a q b : α} {xs : List α} (h : Seg null stale l p a xs q b)
    (hs : ∀ x, stale x → stale' x) : Seg null stale' l p a xs q b := by
  induction xs generalizing p a with
  | nil => exact h
  | cons x xs ih =>
    obtain ⟨ha, hx, hp, h⟩ := h
    exact ⟨ha, hx, hp.imp id (hs _), ih h⟩

/-- The links determine the list. -/
theorem Seg.unique {p p' a q q' : α} {xs ys : List α} (h : Seg null stale l p a xs q null)
    (h' : Seg null stale l p' a ys q' null) : xs = ys := by
  induction xs generalizing p p' a ys with
  | nil =>
    cases ys with
    | nil => rfl
    | cons y ys => exact absurd (h'.1.symm.trans h.2) h'.2.1
  | cons x xs ih =>
    cases ys with
    | nil => exact absurd (h.1.symm.trans h'.2) h.2.1
    | cons y ys =>
      obtain ⟨rfl, -, -, hx⟩ := h
      obtain ⟨rfl, -, -, hy⟩ := h'
      rw [ih hx hy]

theorem Seg.ne_null {p a q b : α} {xs : List α} (h : Seg null stale l p a xs q b) :
    ∀ x ∈ xs, x ≠ null := by
  induction xs generalizing p a with
  | nil => simp
  | cons y ys ih =>
    obtain ⟨-, hy, -, h⟩ := h
    intro x hx
    rcases List.mem_cons.mp hx with rfl | hx
    · exact hy
    · exact ih h x hx

/-- The links at one node inside a threaded list. -/
theorem Seg.links_at {p a q b x : α} {xs ys : List α} (h : Seg null stale l p a (xs ++ x :: ys) q b) :
    (l.prev x = xs.getLastD p ∨ stale (l.prev x)) ∧ l.next x = ys.headD b := by
  obtain ⟨c, d, hx, -, -, hp, hy⟩ := seg_append.mp h
  refine ⟨hp.imp (fun hp => ?_) id, ?_⟩
  · rw [hp]
    clear h hp hy
    induction xs generalizing p a with
    | nil => exact hx.1.symm
    | cons z zs ih =>
      rw [List.getLastD_cons]
      exact ih hx.2.2.2
  · cases ys with
    | nil => exact hy.2
    | cons y ys => exact hy.1

/-- In a list without stale links, `next` and `prev` are inverse to each other. -/
theorem Seg.inverse {a q x : α} {xs : List α} (h : Seg null (fun _ => False) l null a xs q null)
    (hx : x ∈ xs) : (l.next x ≠ null → l.prev (l.next x) = x) ∧
      (l.prev x ≠ null → l.next (l.prev x) = x) := by
  obtain ⟨ys, zs, rfl⟩ := List.append_of_mem hx
  obtain ⟨hprev, hnext⟩ := h.links_at
  have hprev := hprev.resolve_right id
  constructor
  · intro hne
    cases zs with
    | nil => exact absurd hnext hne
    | cons z zs =>
      rw [List.append_cons] at h
      have hz := h.links_at.1.resolve_right id
      rw [List.getLastD_concat] at hz
      rw [hnext]
      exact hz
  · intro hne
    rcases List.eq_nil_or_concat ys with rfl | ⟨ws, w, rfl⟩
    · exact absurd hprev hne
    · rw [List.concat_eq_append, List.append_assoc] at h
      have hw := h.links_at.2
      rw [List.concat_eq_append, List.getLastD_concat] at hprev
      rw [hprev]
      exact hw

/-! ## Singly linked lists -/

/-- The nodes `xs` are met from `a` on, and the next one is `b`. -/
def Path (null : α) (next : α → α) : α → List α → α → Prop
  | a, [], b => a = b
  | a, x :: xs, b => a = x ∧ x ≠ null ∧ Path null next (next x) xs b

variable {next next' : α → α}

theorem path_append {a b : α} {xs ys : List α} :
    Path null next a (xs ++ ys) b ↔ ∃ c, Path null next a xs c ∧ Path null next c ys b := by
  induction xs generalizing a with
  | nil =>
    constructor
    · intro h
      exact ⟨a, rfl, h⟩
    · rintro ⟨c, rfl, h⟩
      exact h
  | cons x xs ih =>
    simp only [List.cons_append, Path, ih]
    constructor
    · rintro ⟨ha, hx, c, h, h'⟩
      exact ⟨c, ⟨ha, hx, h⟩, h'⟩
    · rintro ⟨c, ⟨ha, hx, h⟩, h'⟩
      exact ⟨ha, hx, c, h, h'⟩

theorem Path.congr {a b : α} {xs : List α} (h : Path null next a xs b)
    (heq : ∀ x ∈ xs, next' x = next x) : Path null next' a xs b := by
  induction xs generalizing a with
  | nil => exact h
  | cons x xs ih =>
    obtain ⟨ha, hx, h⟩ := h
    refine ⟨ha, hx, ?_⟩
    rw [heq x List.mem_cons_self]
    exact ih h fun y hy => heq y (List.mem_cons_of_mem _ hy)

theorem Path.ne_null {a b x : α} {xs : List α} (h : Path null next a xs b) (hx : x ∈ xs) :
    x ≠ null := by
  induction xs generalizing a with
  | nil => cases hx
  | cons y ys ih =>
    cases hx with
    | head => exact h.2.1
    | tail _ hx => exact ih h.2.2 hx

/-! ## Insertion and removal -/

variable [DecidableEq α]

/-- Thread the node `n` between `c` and its successor. -/
def Links.insertAfter (null : α) (l : Links α) (c n : α) : Links α where
  next := Function.update (Function.update l.next n (l.next c)) c n
  prev := if l.next c = null then Function.update l.prev n c
    else Function.update (Function.update l.prev n c) (l.next c) n

/-- As `insertAfter`, without the back link of the old successor. -/
def Links.insertLazily (l : Links α) (c n : α) : Links α where
  next := Function.update (Function.update l.next n (l.next c)) c n
  prev := Function.update l.prev n c

/-- Let `c` and the successor of `d` point to each other. -/
def Links.bypass (null : α) (l : Links α) (c d : α) : Links α where
  next := Function.update l.next c (l.next d)
  prev := if l.next d = null then l.prev else Function.update l.prev (l.next d) c

theorem Seg.insertAfter {p a q c n : α} {xs ys : List α}
    (h : Seg null stale l p a (xs ++ c :: ys) q null) (hd : (xs ++ c :: ys).Nodup)
    (hn : n ≠ null) (hnew : n ∉ xs ++ c :: ys) :
    ∃ q', Seg null stale (l.insertAfter null c n) p a (xs ++ c :: n :: ys) q' null := by
  have hnext := h.links_at.2
  have hne := h.ne_null
  obtain ⟨p', a', hx, ha, hc, hp, hy⟩ := seg_append.mp h
  simp only [List.mem_append, List.mem_cons, not_or] at hnew
  obtain ⟨hnx, hnc, hny⟩ := hnew
  rw [List.nodup_append] at hd
  obtain ⟨-, hd2, hd3⟩ := hd
  rw [List.nodup_cons] at hd2
  -- the nodes before `c` keep their links
  have hkeep : ∀ x ∈ xs, x ≠ n ∧ x ≠ c ∧ x ∉ ys := fun x hx =>
    ⟨fun h => hnx (h ▸ hx), hd3 x hx c List.mem_cons_self,
      fun hy => hd3 x hx x (List.mem_cons_of_mem _ hy) rfl⟩
  cases ys with
  | nil =>
    have hnull : l.next c = null := hnext
    refine ⟨n, seg_append.mpr ⟨p', a', hx.congr ?_ ?_, ha, hc, ?_, ?_, hn, ?_, ?_⟩⟩
    · intro x hx
      simp [Links.insertAfter, (hkeep x hx).1, (hkeep x hx).2.1]
    · intro x hx
      simp [Links.insertAfter, hnull, (hkeep x hx).1]
    · simp [Links.insertAfter, hnull, Ne.symm hnc, hp]
    · simp [Links.insertAfter]
    · simp [Links.insertAfter, hnull]
    · simp [Seg, Links.insertAfter, hnc, hnull]
  | cons y ys =>
    have hy' : l.next c = y := hnext
    have hyn : y ≠ null := hne y (by simp)
    simp only [List.mem_cons, not_or] at hny
    have hcy : c ≠ y := fun h => hd2.1 (h ▸ List.mem_cons_self)
    have hd4 := List.nodup_cons.mp hd2.2
    refine ⟨q, seg_append.mpr ⟨p', a', hx.congr ?_ ?_, ha, hc, ?_, ?_, hn, ?_, ?_, ?_, ?_, ?_⟩⟩
    · intro x hx
      simp [Links.insertAfter, (hkeep x hx).1, (hkeep x hx).2.1]
    · intro x hx
      have hxy : x ≠ y := fun h => (hkeep x hx).2.2 (h ▸ List.mem_cons_self)
      simp [Links.insertAfter, hy', hyn, hxy, (hkeep x hx).1]
    · simp [Links.insertAfter, hy', hyn, hcy, Ne.symm hnc, hp]
    · simp [Links.insertAfter]
    · simp [Links.insertAfter, hy', hyn, hny.1]
    · simp [Links.insertAfter, hnc, hy']
    · exact hyn
    · simp [Links.insertAfter, hy', hyn]
    · have hnexty : (l.insertAfter null c n).next y = l.next y := by
        simp [Links.insertAfter, Ne.symm hcy, Ne.symm hny.1]
      rw [hnexty]
      refine hy.2.2.2.congr ?_ ?_
      · intro x hx
        have hxn : x ≠ n := fun h => hny.2 (h ▸ hx)
        have hxc : x ≠ c := fun h => hd2.1 (h ▸ List.mem_cons_of_mem _ hx)
        simp [Links.insertAfter, hxn, hxc]
      · intro x hx
        have hxn : x ≠ n := fun h => hny.2 (h ▸ hx)
        have hxy : x ≠ y := fun h => hd4.1 (h ▸ hx)
        simp [Links.insertAfter, hy', hyn, hxn, hxy]

/-- The old successor keeps its back link to `c`, which is stale from then on. -/
theorem Seg.insertLazily {p a q c n : α} {xs ys : List α}
    (h : Seg null stale l p a (xs ++ c :: ys) q null) (hd : (xs ++ c :: ys).Nodup)
    (hn : n ≠ null) (hnew : n ∉ xs ++ c :: ys) (hc : stale c) :
    ∃ q', Seg null stale (l.insertLazily c n) p a (xs ++ c :: n :: ys) q' null := by
  have hnext := h.links_at.2
  obtain ⟨p', a', hx, ha, hc0, hp, hy⟩ := seg_append.mp h
  simp only [List.mem_append, List.mem_cons, not_or] at hnew
  obtain ⟨hnx, hnc, hny⟩ := hnew
  obtain ⟨-, hd2, hd3⟩ := List.nodup_append.mp hd
  have hcy := (List.nodup_cons.mp hd2).1
  have hlink : ∀ x, x ≠ n → x ≠ c →
      (l.insertLazily c n).next x = l.next x ∧ (l.insertLazily c n).prev x = l.prev x := by
    intro x hxn hxc
    simp [Links.insertLazily, hxn, hxc]
  have hkeep : ∀ x ∈ xs, x ≠ n ∧ x ≠ c := fun x hx =>
    ⟨fun h => hnx (h ▸ hx), hd3 x hx c List.mem_cons_self⟩
  have hkeep' : ∀ x ∈ ys, x ≠ n ∧ x ≠ c := fun x hx =>
    ⟨fun h => hny (h ▸ hx), fun h => hcy (h ▸ hx)⟩
  have hhead : ∃ q', Seg null stale (l.insertLazily c n) n (ys.headD null) ys q' null := by
    cases ys with
    | nil => exact ⟨n, rfl, rfl⟩
    | cons y ys =>
      obtain ⟨-, hyn, hyp, hrest⟩ := hy
      have hy' := hlink y (hkeep' y List.mem_cons_self).1 (hkeep' y List.mem_cons_self).2
      refine ⟨q, rfl, hyn, .inr ?_, ?_⟩
      · rw [hy'.2]
        exact hyp.elim (fun h => h ▸ hc) id
      · rw [hy'.1]
        exact hrest.congr
          (fun x hx => (hlink x (hkeep' x (List.mem_cons_of_mem _ hx)).1
            (hkeep' x (List.mem_cons_of_mem _ hx)).2).1)
          (fun x hx => (hlink x (hkeep' x (List.mem_cons_of_mem _ hx)).1
            (hkeep' x (List.mem_cons_of_mem _ hx)).2).2)
  obtain ⟨q', hq'⟩ := hhead
  refine ⟨q', seg_append.mpr ⟨p', a', ?_, ha, hc0, ?_, ?_, hn, ?_, ?_⟩⟩
  · exact hx.congr (fun x hx => (hlink x (hkeep x hx).1 (hkeep x hx).2).1)
      (fun x hx => (hlink x (hkeep x hx).1 (hkeep x hx).2).2)
  · simpa [Links.insertLazily, Ne.symm hnc] using hp
  · simp [Links.insertLazily]
  · simp [Links.insertLazily]
  · have hnn : (l.insertLazily c n).next n = ys.headD null := by
      simp [Links.insertLazily, hnc, hnext]
    rw [hnn]
    exact hq'

theorem Seg.bypass {p a q c d : α} {xs ys : List α}
    (h : Seg null stale l p a (xs ++ c :: d :: ys) q null) (hd : (xs ++ c :: d :: ys).Nodup) :
    ∃ q', Seg null stale (l.bypass null c d) p a (xs ++ c :: ys) q' null := by
  have hne := h.ne_null
  have hnext : l.next d = ys.headD null := by
    have h' : Seg null stale l p a ((xs ++ [c]) ++ d :: ys) q null := by
      rw [List.append_assoc]
      exact h
    exact h'.links_at.2
  obtain ⟨p', a', hx, ha, hc, hp, -, -, -, hy⟩ := seg_append.mp h
  rw [List.nodup_append] at hd
  obtain ⟨-, hd2, hd3⟩ := hd
  rw [List.nodup_cons, List.nodup_cons] at hd2
  obtain ⟨hcn, hdn, hysn⟩ := hd2
  simp only [List.mem_cons, not_or] at hcn
  have hkeep : ∀ x ∈ xs, x ≠ c ∧ x ∉ ys := fun x hx =>
    ⟨hd3 x hx c List.mem_cons_self, fun hy => hd3 x hx x (by simp [hy]) rfl⟩
  cases ys with
  | nil =>
    have hnull : l.next d = null := hnext
    refine ⟨c, seg_append.mpr ⟨p', a', hx.congr ?_ ?_, ha, hc, ?_, ?_⟩⟩
    · intro x hx
      simp [Links.bypass, (hkeep x hx).1]
    · intro x hx
      simp [Links.bypass, hnull]
    · simp [Links.bypass, hnull, hp]
    · simp [Seg, Links.bypass, hnull]
  | cons y ys =>
    have hy' : l.next d = y := hnext
    have hyn : y ≠ null := hne y (by simp)
    have hcy : c ≠ y := fun h => hcn.2 (h ▸ List.mem_cons_self)
    have hyys := List.nodup_cons.mp hysn
    refine ⟨q, seg_append.mpr ⟨p', a', hx.congr ?_ ?_, ha, hc, ?_, ?_, hyn, ?_, ?_⟩⟩
    · intro x hx
      simp [Links.bypass, (hkeep x hx).1]
    · intro x hx
      have hxy : x ≠ y := fun h => (hkeep x hx).2 (h ▸ List.mem_cons_self)
      simp [Links.bypass, hy', hyn, hxy]
    · simp [Links.bypass, hy', hyn, hcy, hp]
    · simp [Links.bypass, hy']
    · simp [Links.bypass, hy', hyn]
    · have hnexty : (l.bypass null c d).next y = l.next y := by
        simp [Links.bypass, Ne.symm hcy]
      rw [hnexty]
      refine hy.2.2.2.congr ?_ ?_
      · intro x hx
        have hxc : x ≠ c := fun h => hcn.2 (h ▸ List.mem_cons_of_mem _ hx)
        simp [Links.bypass, hxc]
      · intro x hx
        have hxy : x ≠ y := fun h => hyys.1 (h ▸ hx)
        simp [Links.bypass, hy', hyn, hxy]

/-- Let the neighbours of `d` point to each other. -/
def Links.unlink (null : α) (l : Links α) (d : α) : Links α where
  next := if l.prev d = null then l.next else Function.update l.next (l.prev d) (l.next d)
  prev := if l.next d = null then l.prev else Function.update l.prev (l.next d) (l.prev d)

/-- Remove any node of a list whose back links are up to date. -/
theorem Seg.unlink {a q d : α} {xs ys : List α}
    (h : Seg null (fun _ => False) l null a (xs ++ d :: ys) q null) (hd : (xs ++ d :: ys).Nodup) :
    ∃ q', Seg null (fun _ => False) (l.unlink null d) null (if d = a then l.next d else a)
      (xs ++ ys) q' null := by
  obtain ⟨hprev, hnext⟩ := h.links_at
  have hprev := hprev.resolve_right id
  rcases List.eq_nil_or_concat xs with rfl | ⟨zs, c, rfl⟩
  · have hlink : l.unlink null d = ⟨l.next, if l.next d = null then l.prev
        else Function.update l.prev (l.next d) null⟩ := by
      unfold Links.unlink
      rw [hprev, List.getLastD_nil, if_pos rfl]
    rw [hlink, if_pos h.1.symm, List.nil_append]
    obtain ⟨-, -, -, hy⟩ := h
    cases ys with
    | nil => exact ⟨null, rfl, hnext⟩
    | cons y ys =>
      have hy' : l.next d = y := hnext
      obtain ⟨-, hyn, -, hrest⟩ := hy
      have hyys := (List.nodup_cons.mp (List.nodup_cons.mp hd).2).1
      rw [hy', if_neg hyn]
      refine ⟨q, rfl, hyn, Or.inl (Function.update_self ..), hrest.congr (fun _ _ => rfl) ?_⟩
      intro x hx
      have hne : x ≠ y := fun he => hyys (he ▸ hx)
      exact Function.update_of_ne hne ..
  · rw [List.concat_eq_append] at h hd hprev ⊢
    have hc : c ≠ null := h.ne_null c (by simp)
    have hprev : l.prev d = c := by
      rw [hprev, List.getLastD_concat]
    have hlink : l.unlink null d = l.bypass null c d := by
      unfold Links.unlink Links.bypass
      rw [hprev, if_neg hc]
    have hda : d ≠ a := by
      intro he
      have hmem : d ∈ zs ++ [c] := by
        cases zs with
        | nil =>
          rw [he, h.1]
          exact List.mem_cons_self
        | cons z zs =>
          rw [he, h.1]
          exact List.mem_cons_self
      rw [List.nodup_append] at hd
      exact hd.2.2 d hmem d List.mem_cons_self rfl
    rw [if_neg hda, hlink]
    rw [List.append_assoc] at h hd ⊢
    exact h.bypass hd

end LinkedList
