import Mathlib

/-!
# Layouts of blocks with headers

A range of addresses is tiled by blocks, each one a header of `hd` bytes
followed by its payload. Coalescing joins every maximal run of free neighbours
into one block; the header of each joined block becomes payload. Coalescing is a
normal form: releasing blocks one at a time, with a coalescing pass after each,
gives the same layout as releasing them all and coalescing once.
-/

namespace BlockLayout

structure Block where
  addr : ℕ
  size : ℕ
  used : Bool
deriving DecidableEq, Repr

variable (hd : ℕ)

/-- The first address after the block. -/
def Block.stop (b : Block) : ℕ := b.addr + hd + b.size

/-- The blocks follow each other without a gap from `a` to `e`. -/
def Tiles : ℕ → List Block → ℕ → Prop
  | a, [], e => a = e
  | a, b :: bs, e => b.addr = a ∧ Tiles (b.stop hd) bs e

/-- No two neighbours are both free. -/
def Canonical (bs : List Block) : Prop := bs.IsChain fun b c => b.used ∨ c.used

/-- Put `b` in front of an already coalesced layout. -/
def glue (b : Block) : List Block → List Block
  | [] => [b]
  | c :: cs =>
    if b.used ∨ c.used then b :: c :: cs else ⟨b.addr, b.size + hd + c.size, false⟩ :: cs

def coalesce (bs : List Block) : List Block := bs.foldr (glue hd) []

/-- `b` with the free blocks that follow it joined to it, and what is left. -/
def absorb (b : Block) : List Block → Block × List Block
  | [] => (b, [])
  | c :: cs => if c.used then (b, c :: cs) else absorb ⟨b.addr, b.size + hd + c.size, false⟩ cs

/-- Reserve the first `n` bytes of the payload of `b`, leaving the rest as a free
block when it can hold more than a header. -/
def carve (b : Block) (n : ℕ) : List Block :=
  if b.size - n > hd then [⟨b.addr, n, true⟩, ⟨b.addr + hd + n, b.size - n - hd, false⟩]
  else [⟨b.addr, b.size, true⟩]

/-- Free, with room for `n` bytes. -/
def Block.fits (n : ℕ) (b : Block) : Bool := !b.used && decide (n ≤ b.size)

def Block.release (ps : List ℕ) (b : Block) : Block :=
  if b.addr ∈ ps then { b with used := false } else b

/-- Mark the blocks at the given addresses free. -/
def release (ps : List ℕ) (bs : List Block) : List Block := bs.map (Block.release ps)

variable {hd}

/-! ## Tilings -/

theorem tiles_append {a e : ℕ} {xs ys : List Block} :
    Tiles hd a (xs ++ ys) e ↔ ∃ m, Tiles hd a xs m ∧ Tiles hd m ys e := by
  induction xs generalizing a with
  | nil => simp [Tiles]
  | cons b bs ih =>
    simp only [List.cons_append, Tiles, ih]
    constructor
    · rintro ⟨h, m, h1, h2⟩; exact ⟨m, ⟨h, h1⟩, h2⟩
    · rintro ⟨m, ⟨h, h1⟩, h2⟩; exact ⟨h, m, h1, h2⟩

theorem Tiles.bounds {a e : ℕ} {bs : List Block} (h : Tiles hd a bs e) :
    a + hd * bs.length ≤ e ∧ ∀ b ∈ bs, a ≤ b.addr ∧ b.stop hd ≤ e := by
  induction bs generalizing a with
  | nil =>
    have he : a = e := h
    simp [he]
  | cons b bs ih =>
    obtain ⟨ha, ht⟩ := h
    obtain ⟨hl, hb⟩ := ih ht
    have hs : b.stop hd = a + hd + b.size := by rw [Block.stop, ha]
    refine ⟨?_, ?_⟩
    · rw [List.length_cons, Nat.mul_succ]
      omega
    · intro c hc
      rcases List.mem_cons.mp hc with rfl | hc
      · omega
      · have := hb c hc
        omega

theorem Tiles.le {a e : ℕ} {bs : List Block} (h : Tiles hd a bs e) : a ≤ e := by
  have := h.bounds.1
  omega

/-- A layout determines where it ends. -/
theorem Tiles.stop_unique {a e e' : ℕ} {bs : List Block} (h : Tiles hd a bs e)
    (h' : Tiles hd a bs e') : e = e' := by
  induction bs generalizing a with
  | nil => exact h.symm.trans h'
  | cons b bs ih => exact ih h.2 h'.2

/-- Blocks of a tiling are ordered by address and do not overlap. -/
theorem Tiles.pairwise {a e : ℕ} {bs : List Block} (h : Tiles hd a bs e) :
    bs.Pairwise fun b c => b.stop hd ≤ c.addr := by
  induction bs generalizing a with
  | nil => exact .nil
  | cons b bs ih =>
    refine List.pairwise_cons.mpr ⟨fun c hc => ?_, ih h.2⟩
    exact (h.2.bounds.2 c hc).1

theorem Tiles.apart {a e : ℕ} {bs : List Block} (h : Tiles hd a bs e) {b c : Block}
    (hb : b ∈ bs) (hc : c ∈ bs) (hne : b ≠ c) : b.stop hd ≤ c.addr ∨ c.stop hd ≤ b.addr := by
  induction bs generalizing a with
  | nil => cases hb
  | cons d ds ih =>
    have hp := List.pairwise_cons.mp h.pairwise
    rcases List.mem_cons.mp hb with rfl | hb' <;> rcases List.mem_cons.mp hc with rfl | hc'
    · exact absurd rfl hne
    · exact .inl (hp.1 c hc')
    · exact .inr (hp.1 b hb')
    · exact ih h.2 hb' hc'

theorem Tiles.eq_of_addr_eq (hpos : 0 < hd) {a e : ℕ} {bs : List Block} (h : Tiles hd a bs e)
    {b c : Block} (hb : b ∈ bs) (hc : c ∈ bs) (hbc : b.addr = c.addr) : b = c := by
  by_contra hne
  rcases h.apart hb hc hne with hs | hs
  · unfold Block.stop at hs; omega
  · unfold Block.stop at hs; omega

/-- Two blocks in place of one, when together they span the same addresses. -/
theorem Tiles.split {a e : ℕ} {xs ys : List Block} {b c d : Block}
    (h : Tiles hd a (xs ++ b :: ys) e) (hc : c.addr = b.addr) (hd' : d.addr = c.stop hd)
    (hs : d.stop hd = b.stop hd) : Tiles hd a (xs ++ c :: d :: ys) e := by
  obtain ⟨m, h1, h2, h3⟩ := tiles_append.mp h
  exact tiles_append.mpr ⟨m, h1, hc.trans h2, hd', hs ▸ h3⟩

/-- A block may be replaced by one of the same span. -/
theorem Tiles.replace {a e : ℕ} {xs ys : List Block} {b c : Block}
    (h : Tiles hd a (xs ++ b :: ys) e) (hc : c.addr = b.addr) (hs : c.size = b.size) :
    Tiles hd a (xs ++ c :: ys) e := by
  obtain ⟨m, h1, h2, h3⟩ := tiles_append.mp h
  refine tiles_append.mpr ⟨m, h1, hc.trans h2, ?_⟩
  rwa [show c.stop hd = b.stop hd by simp [Block.stop, hc, hs]]

/-! ## Coalescing -/

@[simp] theorem coalesce_nil : coalesce hd [] = [] := rfl

@[simp] theorem coalesce_cons (b : Block) (bs : List Block) :
    coalesce hd (b :: bs) = glue hd b (coalesce hd bs) := rfl

theorem glue_of_used {b : Block} (hb : b.used) (cs : List Block) : glue hd b cs = b :: cs := by
  cases cs with
  | nil => rfl
  | cons c cs => simp [glue, hb]

theorem glue_of_head_used {b c : Block} {cs : List Block} (hc : c.used) :
    glue hd b (c :: cs) = b :: c :: cs := by
  simp [glue, hc]

theorem glue_of_free {b c : Block} {cs : List Block} (hb : b.used = false) (hc : c.used = false) :
    glue hd b (c :: cs) = ⟨b.addr, b.size + hd + c.size, false⟩ :: cs := by
  simp [glue, hb, hc]

/-- Two free blocks may be joined before or after the rest is coalesced. -/
theorem glue_glue {b c : Block} (hb : b.used = false) (hc : c.used = false) (cs : List Block) :
    glue hd b (glue hd c cs) = glue hd ⟨b.addr, b.size + hd + c.size, false⟩ cs := by
  cases cs with
  | nil => simp [glue, hb, hc]
  | cons d ds =>
    cases hd' : d.used with
    | true => simp [glue, hb, hc, hd']
    | false =>
      simp only [glue, hb, hc, hd', Bool.false_eq_true, or_self, ↓reduceIte]
      congr 2
      omega

theorem tiles_glue {a e : ℕ} {b : Block} {cs : List Block} (ha : b.addr = a)
    (h : Tiles hd (b.stop hd) cs e) : Tiles hd a (glue hd b cs) e := by
  cases cs with
  | nil => exact ⟨ha, h⟩
  | cons c cs =>
    rw [glue]
    split_ifs
    · exact ⟨ha, h⟩
    · refine ⟨ha, ?_⟩
      have hc : c.addr = b.stop hd := h.1
      have hs : Block.stop hd ⟨b.addr, b.size + hd + c.size, false⟩ = c.stop hd := by
        simp only [Block.stop] at hc ⊢
        omega
      rw [hs]
      exact h.2

theorem tiles_coalesce {a e : ℕ} {bs : List Block} (h : Tiles hd a bs e) :
    Tiles hd a (coalesce hd bs) e := by
  induction bs generalizing a with
  | nil => exact h
  | cons b bs ih => exact tiles_glue h.1 (ih h.2)

theorem canonical_glue {b : Block} {cs : List Block} (h : Canonical cs) :
    Canonical (glue hd b cs) := by
  unfold Canonical at *
  cases cs with
  | nil => exact .singleton _
  | cons c cs =>
    rw [glue]
    split_ifs with hbc
    · exact List.IsChain.cons_cons hbc h
    · -- `c` was free, so its right neighbour is used
      cases cs with
      | nil => exact .singleton _
      | cons d ds =>
        obtain ⟨hcd, ht⟩ := List.isChain_cons_cons.mp h
        push Not at hbc
        exact List.IsChain.cons_cons (.inr (hcd.resolve_left hbc.2)) ht

theorem canonical_coalesce (bs : List Block) : Canonical (coalesce hd bs) := by
  induction bs with
  | nil => exact .nil
  | cons b bs ih => exact canonical_glue ih

theorem coalesce_of_canonical {bs : List Block} (h : Canonical bs) : coalesce hd bs = bs := by
  induction bs with
  | nil => rfl
  | cons b bs ih =>
    rw [coalesce_cons, ih h.tail]
    cases bs with
    | nil => rfl
    | cons c cs => simp [glue, (List.isChain_cons_cons.mp h).1]

/-- A used block is never joined with anything. -/
theorem mem_glue_of_used {b c : Block} {cs : List Block} (hc : c.used) :
    c ∈ glue hd b cs ↔ c = b ∨ c ∈ cs := by
  cases cs with
  | nil => simp [glue]
  | cons d ds =>
    rw [glue]
    split_ifs with h
    · simp
    · push Not at h
      constructor
      · intro hm
        rcases List.mem_cons.mp hm with rfl | hm
        · simp at hc
        · exact .inr (List.mem_cons_of_mem _ hm)
      · rintro (rfl | hm)
        · exact absurd hc h.1
        · rcases List.mem_cons.mp hm with rfl | hm
          · exact absurd hc h.2
          · exact List.mem_cons_of_mem _ hm

theorem mem_coalesce_of_used {c : Block} {bs : List Block} (hc : c.used) :
    c ∈ coalesce hd bs ↔ c ∈ bs := by
  induction bs with
  | nil => simp
  | cons b bs ih => rw [coalesce_cons, mem_glue_of_used hc, ih, List.mem_cons]

/-- Every block size stays a multiple of what the header and all sizes are
multiples of. -/
theorem dvd_size_glue {n : ℕ} (hn : n ∣ hd) {b : Block} {cs : List Block} (hb : n ∣ b.size)
    (hc : ∀ c ∈ cs, n ∣ c.size) : ∀ c ∈ glue hd b cs, n ∣ c.size := by
  cases cs with
  | nil => simpa [glue] using hb
  | cons d ds =>
    have hds : ∀ c ∈ ds, n ∣ c.size := fun c h => hc c (List.mem_cons_of_mem _ h)
    rw [glue]
    split_ifs
    · intro c h
      rcases List.mem_cons.mp h with rfl | h
      · exact hb
      · exact hc c h
    · intro c h
      rcases List.mem_cons.mp h with rfl | h
      · exact ((hb.add hn).add (hc d (List.mem_cons_self)))
      · exact hds c h

theorem dvd_size_coalesce {n : ℕ} (hn : n ∣ hd) {bs : List Block} (h : ∀ b ∈ bs, n ∣ b.size) :
    ∀ b ∈ coalesce hd bs, n ∣ b.size := by
  induction bs with
  | nil => simp
  | cons b bs ih =>
    exact dvd_size_glue hn (h b List.mem_cons_self)
      (ih fun c hc => h c (List.mem_cons_of_mem _ hc))

/-! ## Joining the free blocks after a free block -/

theorem absorb_addr (b : Block) (bs : List Block) : (absorb hd b bs).1.addr = b.addr := by
  induction bs generalizing b with
  | nil => rfl
  | cons c cs ih =>
    rw [absorb]
    split_ifs
    · rfl
    · exact ih _

theorem absorb_free {b : Block} (hb : b.used = false) (bs : List Block) :
    (absorb hd b bs).1.used = false := by
  induction bs generalizing b with
  | nil => exact hb
  | cons c cs ih =>
    rw [absorb]
    split_ifs
    · exact hb
    · exact ih rfl

theorem absorb_suffix (b : Block) (bs : List Block) : (absorb hd b bs).2 <:+ bs := by
  induction bs generalizing b with
  | nil => exact List.suffix_rfl
  | cons c cs ih =>
    rw [absorb]
    split_ifs
    · exact List.suffix_rfl
    · exact (ih _).trans (List.suffix_cons c cs)

theorem tiles_absorb {a e : ℕ} {b : Block} {bs : List Block} (h : Tiles hd a (b :: bs) e) :
    Tiles hd a ((absorb hd b bs).1 :: (absorb hd b bs).2) e := by
  induction bs generalizing b with
  | nil => exact h
  | cons c cs ih =>
    rw [absorb]
    split_ifs
    · exact h
    · obtain ⟨hb, hc, ht⟩ := h
      refine ih ⟨hb, ?_⟩
      rwa [show Block.stop hd ⟨b.addr, b.size + hd + c.size, false⟩ = c.stop hd by
        simp only [Block.stop] at hc ⊢; omega]

theorem coalesce_absorb {b : Block} (hb : b.used = false) (bs : List Block) :
    coalesce hd (b :: bs) = (absorb hd b bs).1 :: coalesce hd (absorb hd b bs).2 := by
  induction bs generalizing b with
  | nil => rfl
  | cons c cs ih =>
    rw [absorb]
    split_ifs with hu
    · rw [coalesce_cons, coalesce_cons, glue_of_used hu, glue_of_head_used hu]
    · have hc : c.used = false := by simpa using hu
      rw [coalesce_cons, coalesce_cons, glue_glue hb hc]
      exact ih rfl

/-! ## Reserving -/

@[simp] theorem Block.fits_iff {n : ℕ} {b : Block} :
    b.fits n = true ↔ b.used = false ∧ n ≤ b.size := by
  simp [Block.fits]

theorem tiles_carve {a e n : ℕ} {xs ys : List Block} {b : Block}
    (h : Tiles hd a (xs ++ b :: ys) e) : Tiles hd a (xs ++ carve hd b n ++ ys) e := by
  rw [List.append_assoc, carve]
  split_ifs with hs
  · exact h.split rfl rfl (by simp only [Block.stop]; omega)
  · exact h.replace rfl rfl

theorem canonical_carve {n : ℕ} {xs ys : List Block} {b : Block} (hb : b.used = false)
    (h : Canonical (xs ++ b :: ys)) : Canonical (xs ++ carve hd b n ++ ys) := by
  unfold Canonical at *
  obtain ⟨hx, hy, hxy⟩ := List.isChain_append.mp h
  have hy' : ∀ c : Block, ((c :: ys).IsChain fun b c => b.used ∨ c.used) := by
    intro c
    cases ys with
    | nil => exact .singleton _
    | cons d ds =>
      obtain ⟨hbd, ht⟩ := List.isChain_cons_cons.mp hy
      exact List.IsChain.cons_cons (.inr (hbd.resolve_left (by simp [hb]))) ht
  rw [List.append_assoc, carve]
  split_ifs
  · refine List.isChain_append.mpr ⟨hx, List.IsChain.cons_cons (.inl rfl) (hy' _), ?_⟩
    intro c hc d hd'
    rw [List.cons_append, List.head?_cons, Option.mem_some] at hd'
    subst hd'
    exact .inr rfl
  · refine List.isChain_append.mpr ⟨hx, hy' _, ?_⟩
    intro c hc d hd'
    rw [List.cons_append, List.head?_cons, Option.mem_some] at hd'
    subst hd'
    exact .inr rfl

/-! ## Releasing -/

theorem Block.release_of_free {b : Block} (h : b.used = false) (ps : List ℕ) :
    b.release ps = b := by
  unfold Block.release
  split_ifs
  · rw [← h]
  · rfl

@[simp] theorem release_nil (bs : List Block) : release [] bs = bs := by
  unfold release
  have hid : Block.release [] = id := by
    funext b
    simp [Block.release]
  rw [hid, List.map_id]

theorem release_glue (ps : List ℕ) (b : Block) (cs : List Block) :
    coalesce hd (release ps (glue hd b cs)) =
      glue hd (b.release ps) (coalesce hd (release ps cs)) := by
  cases cs with
  | nil => rfl
  | cons c cs =>
    rw [glue]
    split_ifs with hbc
    · rfl
    · -- both blocks are free already, so releasing them changes nothing
      have hb : b.used = false := by simpa using fun h => hbc (.inl h)
      have hc : c.used = false := by simpa using fun h => hbc (.inr h)
      rw [Block.release_of_free hb]
      simp only [release, List.map_cons, coalesce_cons, Block.release_of_free hc,
        Block.release_of_free (b := ⟨b.addr, b.size + hd + c.size, false⟩) rfl]
      exact (glue_glue hb hc _).symm

theorem coalesce_release_coalesce (ps : List ℕ) (bs : List Block) :
    coalesce hd (release ps (coalesce hd bs)) = coalesce hd (release ps bs) := by
  induction bs with
  | nil => rfl
  | cons b bs ih =>
    rw [coalesce_cons, release_glue, ih]
    rfl

theorem release_release (ps qs : List ℕ) (bs : List Block) :
    release ps (release qs bs) = release (qs ++ ps) bs := by
  unfold release
  rw [List.map_map]
  apply List.map_congr_left
  intro b _
  by_cases hq : b.addr ∈ qs <;> by_cases hp : b.addr ∈ ps <;> simp [Block.release, hq, hp]

theorem release_congr {ps qs : List ℕ} (h : ∀ p, p ∈ ps ↔ p ∈ qs) (bs : List Block) :
    release ps bs = release qs bs := by
  unfold release Block.release
  simp only [h]

theorem tiles_release {a e : ℕ} {bs : List Block} (h : Tiles hd a bs e) (ps : List ℕ) :
    Tiles hd a (release ps bs) e := by
  induction bs generalizing a with
  | nil => exact h
  | cons b bs ih =>
    have hr := ih h.2
    simp only [release, List.map_cons, Block.release] at hr ⊢
    split_ifs
    · exact ⟨h.1, hr⟩
    · exact ⟨h.1, hr⟩

/-- Coalescing keeps the room of every free block. -/
theorem exists_free_coalesce (hd : ℕ) {bs : List Block} {b : Block} (hb : b ∈ bs) (hu : b.used = false) :
    ∃ c ∈ coalesce hd bs, c.used = false ∧ b.size ≤ c.size := by
  induction bs with
  | nil => cases hb
  | cons d ds ih =>
    rw [coalesce_cons]
    cases hcs : coalesce hd ds with
    | nil =>
      rcases List.mem_cons.mp hb with rfl | hb
      · exact ⟨b, by simp [glue], hu, le_rfl⟩
      · obtain ⟨c, hc, -⟩ := ih hb
        rw [hcs] at hc
        cases hc
    | cons e es =>
      rw [hcs] at ih
      rw [glue]
      split_ifs with hde
      · rcases List.mem_cons.mp hb with rfl | hb
        · exact ⟨b, List.mem_cons_self, hu, le_rfl⟩
        · obtain ⟨c, hc, h⟩ := ih hb
          exact ⟨c, List.mem_cons_of_mem _ hc, h⟩
      · rcases List.mem_cons.mp hb with rfl | hb
        · exact ⟨_, List.mem_cons_self, rfl, by simp [Nat.add_assoc]⟩
        · obtain ⟨c, hc, hcu, hle⟩ := ih hb
          rcases List.mem_cons.mp hc with rfl | hc
          · exact ⟨_, List.mem_cons_self, rfl, by dsimp only; omega⟩
          · exact ⟨c, List.mem_cons_of_mem _ hc, hcu, hle⟩

/-- A layout without used blocks coalesces to one block. -/
theorem coalesce_of_free {a e : ℕ} {bs : List Block} (h : Tiles hd a bs e) (hne : bs ≠ [])
    (hf : ∀ b ∈ bs, b.used = false) : coalesce hd bs = [⟨a, e - (a + hd), false⟩] := by
  induction bs generalizing a with
  | nil => exact absurd rfl hne
  | cons b bs ih =>
    obtain ⟨ha, ht⟩ := h
    have hb : b.used = false := hf b List.mem_cons_self
    cases bs with
    | nil =>
      have he : b.stop hd = e := ht
      simp only [coalesce_cons, coalesce_nil, glue, List.cons.injEq, and_true]
      obtain ⟨addr, size, used⟩ := b
      simp only [Block.stop] at he hb ha ⊢
      subst ha hb
      congr 1
      omega
    | cons c cs =>
      have hi := ih ht (by simp) fun d hd' => hf d (List.mem_cons_of_mem _ hd')
      have hle := ht.bounds.1
      rw [coalesce_cons, hi, glue_of_free hb rfl, ha]
      simp only [Block.stop, List.length_cons, Nat.mul_succ] at hle ⊢
      congr 2
      omega

end BlockLayout
