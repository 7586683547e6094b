import VkKernel.TtyWrite

/-!
# Control sequences

A control sequence is an escape, a bracket, one or two decimal numbers, which may be absent, and a
final byte. `tty_write` takes those with one number off the front of the text; at any other start of
a sequence it loses its place.
-/

namespace VkKernel.Io
open ByteMemory StoreLog

/-! ## Sequences -/

/-- A number in decimal digits. -/
def Digits : Type := { ds : List UInt8 // ∀ c ∈ ds, IsDigit c }

/-- The byte that ends a sequence. -/
def Final : Type := { c : UInt8 // 64 ≤ c ∧ c ≤ 126 }

/-- A complete control sequence with one or two numbers, which may be absent. -/
structure Csi where
  first : Digits
  second : Option Digits
  final : Final

def Csi.tail (c : Csi) : List UInt8 :=
  match c.second with
  | none => [c.final.val]
  | some ds => 59 :: ds.val ++ [c.final.val]

def Csi.bytes (c : Csi) : List UInt8 := 27 :: 91 :: c.first.val ++ c.tail

def number (ds : List UInt8) : ℕ := ds.foldl (fun v d => v * 10 + (d.toNat - 48)) 0

/-- Where a sequence sets the cursor. -/
def Csi.cursor (c : Csi) : Option (ℕ × ℕ) :=
  if c.final.val = 72 then
    some ((orOne (number c.first.val) - 1) % 256,
      (orOne (number (c.second.elim [] Subtype.val)) - 1) % 256)
  else none

theorem isDigit_of_mem_takeWhile (l : List UInt8) : ∀ c ∈ l.takeWhile (decide <| IsDigit ·), IsDigit c := by
  intro c hc
  have hdigit := List.mem_takeWhile_imp hc
  exact of_decide_eq_true hdigit

/-- The digits at the start. -/
def takeDigits (l : List UInt8) : Digits × List UInt8 :=
  (⟨l.takeWhile (decide <| IsDigit ·), isDigit_of_mem_takeWhile l⟩, l.dropWhile (decide <| IsDigit ·))

/-- A complete sequence at the start. -/
def parseCsi : List UInt8 → Option (Csi × List UInt8)
  | 27 :: 91 :: rest =>
    match takeDigits rest with
    | (first, 59 :: rest) =>
      match takeDigits rest with
      | (second, c :: rest) =>
        if h : 64 ≤ c ∧ c ≤ 126 then some (⟨first, some second, ⟨c, h⟩⟩, rest) else none
      | (_, []) => none
    | (first, c :: rest) => if h : 64 ≤ c ∧ c ≤ 126 then some (⟨first, none, ⟨c, h⟩⟩, rest) else none
    | (_, []) => none
  | _ => none

/-- All complete sequences at the start, and what is behind them. A sequence has three bytes at
least, so that the length is fuel enough. -/
def splitCsi : ℕ → List UInt8 → List Csi × List UInt8
  | 0, input => ([], input)
  | fuel + 1, input =>
    match parseCsi input with
    | none => ([], input)
    | some (c, rest) => (c :: (splitCsi fuel rest).1, (splitCsi fuel rest).2)

def leadingCsi (input : List UInt8) : List Csi := (splitCsi input.length input).1
def withoutCsi (input : List UInt8) : List UInt8 := (splitCsi input.length input).2

-- line 2, column 3, and two letters
example : withoutCsi [27, 91, 50, 59, 51, 72, 97, 98] = [97, 98] := by decide

/-! ## What a write should do -/

/-- The cursor positions that are set. -/
def ScreenOp.cursor : ScreenOp → Option (ℕ × ℕ)
  | .setCursor x y => some (x, y)
  | _ => none

/-- The write depends on its bytes only, keeps the buffer, appends the text and sets the cursor. -/
def Handles (w : Writer) (t : TtyOut) (input : List UInt8) : Prop :=
  ∀ block, ∃ t' ops,
    (∀ m a, slice m a input.length = input →
      ttyWrite w block m a input.length t = some (.none, t', ops)) ∧
    t'.count ≤ t'.bufferSize ∧ t'.contents = t.contents ++ withoutCsi input ∧
    ops.filterMap ScreenOp.cursor = (leadingCsi input).filterMap Csi.cursor

/-- The bytes fit after doubling the buffer at most once. -/
def TtyOut.Fits (t : TtyOut) (n : ℕ) : Prop :=
  t.count + n ≤ t.bufferSize ∨ (t.count + n ≤ 2 * t.bufferSize ∧ 2 * t.bufferSize < 2 ^ 32)

/-- A sequence with one number, which does not wrap around to the absent one. -/
def Csi.Simple (c : Csi) : Prop :=
  c.second = none ∧ (c.final.val = 72 → 2 ^ 32 ∣ number c.first.val → number c.first.val = 0)

/-- Simple sequences, and behind them no start of another one. -/
structure Plain (cs : List Csi) (text : List UInt8) : Prop where
  simple : ∀ c ∈ cs, c.Simple
  noStart : ¬[27, 91] <+: text
  noEscape : text ≠ [27]

section Parsing
variable {w : Writer} {t t' : TtyOut} {block m : Mem} {a n : ℕ} {c : Csi}

/-- Both parts of what a memory has. -/
theorem slice_append {xs ys : List UInt8} (h : slice m a (xs ++ ys).length = xs ++ ys) :
    slice m a xs.length = xs ∧ slice m (a + xs.length) ys.length = ys := by
  rw [List.length_append, slice_add] at h
  exact List.append_inj h (length_slice _ _ _)

theorem slice_cons {x : UInt8} {xs : List UInt8} (h : slice m a (x :: xs).length = x :: xs) :
    m a = x ∧ slice m (a + 1) xs.length = xs := by
  rw [List.length_cons, slice_succ, List.cons.injEq] at h
  exact h

/-- The scan over digits, up to the first byte that is none. -/
theorem atoiindexLoop_digits {s i num fuel : ℕ} {ds : List UInt8} {sign : Bool}
    (hds : ∀ c ∈ ds, IsDigit c) (hbytes : slice m (s + i) ds.length = ds)
    (hstop : ¬IsDigit (m (s + i + ds.length))) (hsign : i = 0 → ds = [] → m s ≠ 45)
    (hfuel : ds.length < fuel) :
    atoiindexLoop m s fuel i num sign =
      ((fun v => if sign then sub32 0 v else v) (ds.foldl (fun v d => u32 (v * 10 + d.toNat - 48)) num),
        i + ds.length) := by
  induction ds generalizing i num fuel with
  | nil =>
    obtain ⟨fuel, rfl⟩ := Nat.exists_eq_add_of_lt hfuel
    have hstop' : ¬(m (s + i) ≠ 0 ∧ IsDigit (m (s + i))) := fun hd => hstop hd.2
    have hsign' : ¬(m (s + i) ≠ 0 ∧ m s = 45 ∧ i = 0) := fun hd => hsign hd.2.2 rfl hd.2.1
    rw [atoiindexLoop, if_neg hstop', if_neg hsign']
    rfl
  | cons d ds ih =>
    obtain ⟨hd, hrest⟩ := slice_cons hbytes
    have hdigit : IsDigit d := hds d (List.mem_cons_self ..)
    have hnonzero : d ≠ 0 := by
      intro hzero
      rw [hzero] at hdigit
      exact absurd hdigit (by decide)
    cases fuel with
    | zero => exact absurd hfuel (Nat.not_lt_zero _)
    | succ fuel =>
      rw [List.length_cons] at hstop hfuel ⊢
      have hplace : s + i + (ds.length + 1) = s + (i + 1) + ds.length := by omega
      have hindex : i + 1 + ds.length = i + (ds.length + 1) := by omega
      rw [hplace] at hstop
      rw [atoiindexLoop, if_pos ⟨hd ▸ hnonzero, hd ▸ hdigit⟩, hd,
        ih (fun c hc => hds c (List.mem_cons_of_mem _ hc)) hrest hstop
          (fun hzero => absurd hzero (Nat.succ_ne_zero i)) (by omega), List.foldl_cons]
      exact congrArg _ hindex

theorem foldl_digits {ds : List UInt8} (hds : ∀ c ∈ ds, IsDigit c) (v : ℕ) :
    ds.foldl (fun v d => u32 (v * 10 + d.toNat - 48)) (v % 2 ^ 32) =
      ds.foldl (fun v d => v * 10 + (d.toNat - 48)) v % 2 ^ 32 := by
  induction ds generalizing v with
  | nil => rfl
  | cons d ds ih =>
    have hdigit : 48 ≤ d.toNat := UInt8.le_iff_toNat_le.mp (hds d (List.mem_cons_self ..)).1
    have hstep : u32 (v % 2 ^ 32 * 10 + d.toNat - 48) = (v * 10 + (d.toNat - 48)) % 2 ^ 32 := by
      unfold u32
      omega
    rw [List.foldl_cons, List.foldl_cons, hstep, ih fun c hc => hds c (List.mem_cons_of_mem _ hc)]

/-- A number in front of a byte that does not belong to it. -/
theorem atoiindex_digits {s : ℕ} {ds : Digits} (hbytes : slice m s ds.val.length = ds.val)
    (hstop : ¬IsDigit (m (s + ds.val.length))) (hsign : m (s + ds.val.length) ≠ 45)
    (hlen : ds.val.length < 2 ^ 32) :
    atoiindex m s = (number ds.val % 2 ^ 32, ds.val.length) := by
  unfold atoiindex
  rw [atoiindexLoop_digits ds.property hbytes hstop (fun _ hnil => by rwa [hnil] at hsign) hlen]
  have hvalue := foldl_digits ds.property 0
  rw [Nat.zero_mod] at hvalue
  rw [hvalue, Nat.zero_add]
  rfl

theorem takeDigits_append (l : List UInt8) : (takeDigits l).1.val ++ (takeDigits l).2 = l :=
  List.takeWhile_append_dropWhile

/-- What is taken off is the sequence. -/
theorem parseCsi_eq {input rest : List UInt8} (h : parseCsi input = some (c, rest)) :
    input = c.bytes ++ rest := by
  unfold parseCsi at h
  split at h
  · rename_i l
    have hfirst := takeDigits_append l
    split at h
    · rename_i first l₁ heq
      have hsecond := takeDigits_append l₁
      rw [heq] at hfirst
      split at h
      · rename_i second f l₂ heq₂
        rw [heq₂] at hsecond
        split_ifs at h with hfinal
        rw [Option.some.injEq, Prod.mk.injEq] at h
        obtain ⟨rfl, rfl⟩ := h
        rw [← hfirst, ← hsecond]
        simp [Csi.bytes, Csi.tail]
      · exact absurd h nofun
    · rename_i first f l₁ heq
      rw [heq] at hfirst
      split_ifs at h with hfinal
      rw [Option.some.injEq, Prod.mk.injEq] at h
      obtain ⟨rfl, rfl⟩ := h
      rw [← hfirst]
      simp [Csi.bytes, Csi.tail]
    · exact absurd h nofun
  · exact absurd h nofun

theorem takeDigits_eq (ds : Digits) {x : UInt8} (hx : ¬IsDigit x) (rest : List UInt8) :
    takeDigits (ds.val ++ x :: rest) = (ds, x :: rest) := by
  have hall : ∀ c ∈ ds.val, (decide <| IsDigit c) = true := fun c hc => decide_eq_true (ds.property c hc)
  have hend : (decide <| IsDigit x) = false := decide_eq_false hx
  apply Prod.ext
  · apply Subtype.ext
    unfold takeDigits
    dsimp only
    rw [List.takeWhile_append_of_pos hall, List.takeWhile_cons_of_neg (by simp [hend]), List.append_nil]
  · unfold takeDigits
    dsimp only
    rw [List.dropWhile_append_of_pos hall, List.dropWhile_cons_of_neg (by simp [hend])]

theorem Final.le_toNat (f : Final) : 64 ≤ f.val.toNat := UInt8.le_iff_toNat_le.mp f.property.1

theorem IsDigit.bounds {c : UInt8} (h : IsDigit c) : 48 ≤ c.toNat ∧ c.toNat ≤ 57 :=
  ⟨UInt8.le_iff_toNat_le.mp h.1, UInt8.le_iff_toNat_le.mp h.2⟩

theorem Final.not_isDigit (f : Final) : ¬IsDigit f.val := by
  intro hdigit
  have hle := f.le_toNat
  have hge := hdigit.bounds.2
  omega

theorem Final.ne (f : Final) {x : UInt8} (hx : x.toNat < 64) : f.val ≠ x := by
  intro heq
  have hle := f.le_toNat
  rw [heq] at hle
  omega

/-- Every sequence is recognised. -/
theorem parseCsi_bytes (c : Csi) (rest : List UInt8) : parseCsi (c.bytes ++ rest) = some (c, rest) := by
  obtain ⟨first, second, final⟩ := c
  have hfinal : final.val ≠ 59 := final.ne (by decide)
  cases second with
  | none =>
    have htake := takeDigits_eq first final.not_isDigit rest
    have hbytes : Csi.bytes ⟨first, none, final⟩ ++ rest = 27 :: 91 :: (first.val ++ final.val :: rest) := by
      simp [Csi.bytes, Csi.tail]
    rw [hbytes, parseCsi, htake]
    split
    · rename_i heq
      exact absurd (List.cons.inj (Prod.mk.inj heq).2).1 hfinal
    · rename_i heq
      obtain ⟨rfl, hcons⟩ := Prod.mk.inj heq
      obtain ⟨rfl, rfl⟩ := List.cons.inj hcons
      rw [dif_pos final.property]
      rfl
    · rename_i heq
      exact absurd (Prod.mk.inj heq).2 nofun
  | some ds =>
    have hsemicolon : ¬IsDigit 59 := by decide
    have htake := takeDigits_eq first hsemicolon (ds.val ++ final.val :: rest)
    have htake' := takeDigits_eq ds final.not_isDigit rest
    have hbytes : Csi.bytes ⟨first, some ds, final⟩ ++ rest =
        27 :: 91 :: (first.val ++ 59 :: (ds.val ++ final.val :: rest)) := by
      simp [Csi.bytes, Csi.tail]
    rw [hbytes, parseCsi, htake]
    split
    · rename_i heq
      obtain ⟨rfl, hcons⟩ := Prod.mk.inj heq
      obtain ⟨-, rfl⟩ := List.cons.inj hcons
      rw [htake']
      split
      · rename_i heq
        obtain ⟨rfl, hcons⟩ := Prod.mk.inj heq
        obtain ⟨rfl, rfl⟩ := List.cons.inj hcons
        rw [dif_pos final.property]
        rfl
      · rename_i heq
        exact absurd (Prod.mk.inj heq).2 nofun
    · rename_i hne heq
      exact absurd (Prod.mk.inj heq).2 fun hcons => hne (List.cons.inj hcons).1.symm
    · rename_i heq
      exact absurd (Prod.mk.inj heq).2 nofun

theorem splitCsi_eq (fuel : ℕ) (input : List UInt8) :
    input = ((splitCsi fuel input).1.map Csi.bytes).flatten ++ (splitCsi fuel input).2 := by
  induction fuel generalizing input with
  | zero => rfl
  | succ fuel ih =>
    rw [splitCsi]
    cases hparse : parseCsi input with
    | none => rfl
    | some r =>
      obtain ⟨c, rest⟩ := r
      dsimp only
      rw [List.map_cons, List.flatten_cons, List.append_assoc, ← ih rest]
      exact parseCsi_eq hparse

/-- No complete sequence is left. -/
theorem parseCsi_splitCsi {fuel : ℕ} {input : List UInt8} (h : input.length ≤ fuel) :
    parseCsi (splitCsi fuel input).2 = none := by
  induction fuel generalizing input with
  | zero =>
    rw [List.length_eq_zero_iff.mp (Nat.le_zero.mp h)]
    rfl
  | succ fuel ih =>
    rw [splitCsi]
    cases hparse : parseCsi input with
    | none => exact hparse
    | some r =>
      obtain ⟨c, rest⟩ := r
      have hlength := congrArg List.length (parseCsi_eq hparse)
      unfold Csi.bytes at hlength
      rw [List.length_append, List.length_append, List.length_cons] at hlength
      exact ih (by omega)

/-- The bytes of a sequence in memory. -/
theorem csi_bytes (h : slice m a c.bytes.length = c.bytes) :
    m a = 27 ∧ m (a + 1) = 91 ∧ slice m (a + 2) c.first.val.length = c.first.val ∧
      slice m (a + 2 + c.first.val.length) c.tail.length = c.tail := by
  unfold Csi.bytes at h
  rw [List.cons_append, List.cons_append] at h
  obtain ⟨h0, h⟩ := slice_cons h
  obtain ⟨h1, h⟩ := slice_cons h
  exact ⟨h0, h1, slice_append h⟩

theorem Csi.length_bytes (c : Csi) : c.bytes.length = 2 + c.first.val.length + c.tail.length := by
  unfold Csi.bytes
  rw [List.length_append, List.length_cons, List.length_cons]
  omega

theorem IsDigit.ne_escape {c : UInt8} (h : IsDigit c) : c ≠ 27 := by
  intro heq
  rw [heq] at h
  exact absurd h (by decide)

/-- A sequence with one number is read as it is. -/
theorem parseSequence_one (h : slice m a c.bytes.length = c.bytes) (hone : c.second = none)
    (hlen : c.bytes.length < 2 ^ 32) :
    parseSequence m a = ⟨orOne (number c.first.val % 2 ^ 32), 1, c.first.val.length, c.final.val⟩ := by
  obtain ⟨-, -, hfirst, htail⟩ := csi_bytes h
  have hlength := c.length_bytes
  have htail' : c.tail = [c.final.val] := by
    unfold Csi.tail
    rw [hone]
  rw [htail'] at htail
  have hcontrol : m (a + 2 + c.first.val.length) = c.final.val := (slice_cons htail).1
  have hatoi : atoiindex m (a + 2) = (number c.first.val % 2 ^ 32, c.first.val.length) := by
    apply atoiindex_digits hfirst
    · rw [hcontrol]
      exact c.final.not_isDigit
    · rw [hcontrol]
      exact c.final.ne (by decide)
    · omega
  unfold parseSequence
  rw [hatoi]
  dsimp only
  rw [hcontrol, if_neg (c.final.ne (by decide))]

/-- With two numbers the control byte is the one behind the start, so that three bytes go. -/
theorem parseSequence_two {ds : Digits} (h : slice m a c.bytes.length = c.bytes)
    (htwo : c.second = some ds) (hlen : c.bytes.length < 2 ^ 32) :
    parseSequence m a = ⟨orOne (number c.first.val % 2 ^ 32), 1, 0, m (a + 2)⟩ := by
  obtain ⟨-, -, hfirst, htail⟩ := csi_bytes h
  have hlength := c.length_bytes
  have htail' : c.tail = 59 :: (ds.val ++ [c.final.val]) := by
    unfold Csi.tail
    rw [htwo]
    rfl
  rw [htail'] at htail
  have hcontrol : m (a + 2 + c.first.val.length) = 59 := (slice_cons htail).1
  have hatoi : atoiindex m (a + 2) = (number c.first.val % 2 ^ 32, c.first.val.length) := by
    apply atoiindex_digits hfirst
    · rw [hcontrol]
      decide
    · rw [hcontrol]
      decide
    · omega
  unfold parseSequence
  rw [hatoi]
  dsimp only
  rw [if_pos hcontrol, atoiindex_semicolon hcontrol]
  rfl

/-- The bytes around that control byte. -/
theorem bytes_two {ds : Digits} (h : slice m a c.bytes.length = c.bytes) (htwo : c.second = some ds) :
    m (a + 2) ≠ 72 ∧ m (a + 2) ≠ 74 ∧ m (a + 3) ≠ 27 ∧ 4 ≤ c.bytes.length := by
  obtain ⟨-, -, hfirst, htail⟩ := csi_bytes h
  have hlength := c.length_bytes
  have htail' : c.tail = 59 :: (ds.val ++ [c.final.val]) := by
    unfold Csi.tail
    rw [htwo]
    rfl
  rw [htail'] at htail hlength
  obtain ⟨hsemicolon, hsecond⟩ := slice_cons htail
  rw [List.length_cons, List.length_append, List.length_singleton] at hlength
  have hdigit : ∀ {x : UInt8}, IsDigit x → x ≠ 72 ∧ x ≠ 74 := by
    intro x hx
    constructor <;> intro heq <;> rw [heq] at hx <;> exact absurd hx (by decide)
  cases hds : c.first.val with
  | nil =>
    rw [hds, List.length_nil, Nat.add_zero] at hsemicolon hsecond
    have hthird : m (a + 3) ≠ 27 := by
      cases hds' : ds.val with
      | nil =>
        rw [hds', List.nil_append] at hsecond
        rw [(slice_cons hsecond).1]
        exact c.final.ne (by decide)
      | cons d ds' =>
        rw [hds', List.cons_append] at hsecond
        rw [(slice_cons hsecond).1]
        exact (ds.property d (hds' ▸ List.mem_cons_self ..)).ne_escape
    exact ⟨by rw [hsemicolon]; decide, by rw [hsemicolon]; decide, hthird, by omega⟩
  | cons d first =>
    rw [hds] at hfirst hsemicolon
    obtain ⟨hd, hrest⟩ := slice_cons hfirst
    have hmem : IsDigit d := c.first.property d (hds ▸ List.mem_cons_self ..)
    rw [hd]
    refine ⟨(hdigit hmem).1, (hdigit hmem).2, ?_, by omega⟩
    cases first with
    | nil =>
      have hthird : m (a + 3) = 59 := hsemicolon
      rw [hthird]
      decide
    | cons d' first =>
      have hthird : m (a + 3) = d' := (slice_cons hrest).1
      rw [hthird]
      exact (c.first.property d' (hds ▸ List.mem_cons_of_mem _ (List.mem_cons_self ..))).ne_escape

end Parsing

/-! ## One sequence -/

section Rounds
variable {w : Writer} {t t' : TtyOut} {block m : Mem} {a n : ℕ} {c : Csi} {rest : List UInt8}
  {ops : List ScreenOp}

/-- What the parser finds at a sequence with one number. -/
def Csi.sequence (c : Csi) : Sequence :=
  ⟨orOne (number c.first.val % 2 ^ 32), 1, c.first.val.length, c.final.val⟩

theorem Csi.length_one (hone : c.second = none) : c.bytes.length = 3 + c.first.val.length := by
  have hlength := c.length_bytes
  unfold Csi.tail at hlength
  rw [hone, List.length_singleton] at hlength
  omega

/-- A sequence with one number is taken off. -/
theorem ttyWrite_one (hw : mayWrite w t) (hone : c.second = none) (hlen : c.bytes.length < 2 ^ 32)
    (h : slice m a (c.bytes ++ rest).length = c.bytes ++ rest) :
    ttyWrite w block m a (c.bytes ++ rest).length t =
      if rest ≠ [] then
        (ttyWrite w block m (a + c.bytes.length) rest.length (c.sequence.apply t)).map fun r =>
          (r.1, r.2.1, c.sequence.ops ++ r.2.2)
      else some (.none, c.sequence.apply t, c.sequence.ops) := by
  obtain ⟨hbytes, -⟩ := slice_append h
  obtain ⟨h27, h91, -⟩ := csi_bytes hbytes
  have hlength := Csi.length_one hone
  have hparse : parseSequence m a = c.sequence := parseSequence_one hbytes hone hlen
  have hi : c.sequence.i = c.first.val.length := rfl
  rw [ttyWrite_sequence hw ⟨h27, h91⟩, hparse, List.length_append]
  dsimp only
  have hleft : c.bytes.length + rest.length - 3 - c.sequence.i = rest.length := by omega
  have hplace : a + 3 + c.sequence.i = a + c.bytes.length := by omega
  have hnil : rest.length ≠ 0 ↔ rest ≠ [] := not_congr List.length_eq_zero_iff
  rw [if_pos (by omega), hleft, hplace]
  exact if_congr hnil rfl rfl

/-- With two numbers all bytes behind the first three are text. -/
theorem count_of_two {ds : Digits} (hw : mayWrite w t) (htwo : c.second = some ds) (hlen : c.bytes.length < 2 ^ 32)
    (h : slice m a (c.bytes ++ rest).length = c.bytes ++ rest)
    (hres : ttyWrite w block m a (c.bytes ++ rest).length t = some (.none, t', ops)) :
    t'.count = u32 (t.count + ((c.bytes ++ rest).length - 3)) := by
  obtain ⟨hbytes, -⟩ := slice_append h
  obtain ⟨h27, h91, -⟩ := csi_bytes hbytes
  obtain ⟨hH, hJ, h27', hfour⟩ := bytes_two hbytes htwo
  have hlength : 4 ≤ (c.bytes ++ rest).length := by
    rw [List.length_append]
    omega
  rw [ttyWrite_sequence hw ⟨h27, h91⟩, parseSequence_two hbytes htwo hlen] at hres
  dsimp only at hres
  rw [if_pos (by omega), if_pos (by omega), Nat.add_zero, Nat.sub_zero] at hres
  obtain ⟨⟨e, u, o⟩, hrec, heq⟩ := Option.map_eq_some_iff.mp hres
  simp only [Prod.mk.injEq] at heq
  obtain ⟨rfl, rfl, -⟩ := heq
  rw [ttyWrite_text (apply_mayWrite hw) fun hesc => h27' hesc.1] at hrec
  simp only [Option.some.injEq, Prod.mk.injEq, true_and] at hrec
  have hcount := @append_count
  specialize @hcount (Sequence.apply ⟨orOne (number c.first.val % 2 ^ 32), 1, 0, m (a + 2)⟩ t) block
    (slice m (a + 3) ((c.bytes ++ rest).length - 3))
  rwa [hrec, apply_count, length_slice] at hcount

/-- The cursor that the code sets, beside the one of the decimal number. -/
theorem sequence_cursor (c : Csi) : c.sequence.ops.filterMap ScreenOp.cursor =
    if c.final.val = 72 then [((orOne (number c.first.val % 2 ^ 32) - 1) % 256, 0)] else [] := by
  unfold Sequence.ops Csi.sequence
  dsimp only
  split_ifs <;> rfl

theorem csi_cursor (hone : c.second = none) : c.cursor =
    if c.final.val = 72 then some ((orOne (number c.first.val) - 1) % 256, 0) else none := by
  unfold Csi.cursor
  rw [hone]
  rfl

/-- The low byte does not show the 32 bits, unless they are all zero. -/
theorem orOne_mod (v : ℕ) :
    (orOne (v % 2 ^ 32) - 1) % 256 = (orOne v - 1) % 256 ↔ (2 ^ 32 ∣ v → v = 0) := by
  unfold orOne
  rw [Nat.dvd_iff_mod_eq_zero]
  by_cases hv : v = 0
  · simp [hv]
  · by_cases hmod : v % 2 ^ 32 = 0
    · rw [if_pos hmod, if_neg hv]
      omega
    · rw [if_neg hmod, if_neg hv]
      omega

theorem cursor_iff {ps qs : List (ℕ × ℕ)} (hone : c.second = none) :
    c.sequence.ops.filterMap ScreenOp.cursor ++ ps = c.cursor.toList ++ qs ↔ c.Simple ∧ ps = qs := by
  unfold Csi.Simple
  rw [sequence_cursor, csi_cursor hone]
  by_cases hH : c.final.val = 72
  · rw [if_pos hH, if_pos hH, Option.toList_some, List.singleton_append, List.singleton_append,
      List.cons.injEq, Prod.mk.injEq, orOne_mod]
    simp only [hone, hH, and_true, true_and, forall_const]
  · rw [if_neg hH, if_neg hH]
    simp only [Option.toList_none, List.nil_append, hone, hH, false_imp_iff, and_self, true_and]

theorem filterMap_csi (c : Csi) (cs : List Csi) :
    (c :: cs).filterMap Csi.cursor = c.cursor.toList ++ cs.filterMap Csi.cursor := by
  cases h : c.cursor <;> simp [h]

/-- What a write of plain text does. -/
theorem grow_spec (hle : t.count ≤ t.bufferSize) (h32 : t.bufferSize < 2 ^ 32) (hfit : t.Fits n) :
    t.count + n < 2 ^ 32 ∧ t.count + n ≤ (t.grow n block).bufferSize ∧
      (t.grow n block).contents = t.contents := by
  have hlt : t.count + n < 2 ^ 32 := by
    rcases hfit with hfit | hfit <;> omega
  unfold TtyOut.grow
  rw [u32_of_lt hlt]
  by_cases hover : t.count + n > t.bufferSize
  · have hdouble := hfit.resolve_left (by omega)
    have hsize : u32 (t.bufferSize * 2) = 2 * t.bufferSize := by
      rw [Nat.mul_comm]
      exact u32_of_lt hdouble.2
    rw [if_pos hover, hsize]
    refine ⟨hlt, hdouble.1, ?_⟩
    apply slice_congr
    intro x _ hx
    exact if_pos ⟨by dsimp only at hx; omega, by dsimp only at hx; omega⟩
  · rw [if_neg hover]
    exact ⟨hlt, by omega, rfl⟩

theorem append_spec {bytes : List UInt8} (hle : t.count ≤ t.bufferSize) (h32 : t.bufferSize < 2 ^ 32)
    (hfit : t.Fits bytes.length) :
    (t.append bytes block).1.count ≤ (t.append bytes block).1.bufferSize ∧
      (t.append bytes block).1.contents = t.contents ++ bytes := by
  obtain ⟨hlt, hroom, hcontents⟩ := @grow_spec t block bytes.length hle h32 hfit
  have hcount := @grow_count t block bytes.length
  rw [append_count, u32_of_lt hlt]
  refine ⟨hroom, ?_⟩
  unfold TtyOut.append TtyOut.contents
  unfold TtyOut.contents at hcontents
  dsimp only
  rw [hcount, u32_of_lt hlt, slice_add, Nat.zero_add, Logged.slice_puts, ← hcontents, hcount]
  apply congrArg (· ++ bytes)
  exact slice_congr fun x _ hx => Logged.puts_mem_of_out (by omega)

theorem fits_of_append {bytes : List UInt8} (h32 : t.bufferSize < 2 ^ 32)
    (hle : (t.append bytes block).1.count ≤ (t.append bytes block).1.bufferSize)
    (hcount : (t.append bytes block).1.count = t.count + bytes.length) : t.Fits bytes.length := by
  have hsize : (t.append bytes block).1.bufferSize = (t.grow bytes.length block).bufferSize := rfl
  rw [append_count] at hcount
  rw [append_count, hcount, hsize] at hle
  unfold TtyOut.grow at hle
  rw [hcount] at hle
  unfold TtyOut.Fits
  split_ifs at hle with hover
  · have hle' : t.count + bytes.length ≤ u32 (t.bufferSize * 2) := hle
    unfold u32 at hle'
    omega
  · exact .inl hle

/-! ## Whole writes -/

/-- The bytes of sequences and of the text behind them. -/
def joined (cs : List Csi) (text : List UInt8) : List UInt8 := (cs.map Csi.bytes).flatten ++ text

theorem joined_cons (c : Csi) (cs : List Csi) (text : List UInt8) :
    joined (c :: cs) text = c.bytes ++ joined cs text := by
  unfold joined
  rw [List.map_cons, List.flatten_cons, List.append_assoc]

theorem joined_ne_nil (c : Csi) (cs : List Csi) (text : List UInt8) : joined (c :: cs) text ≠ [] := by
  rw [joined_cons]
  exact nofun

theorem length_le_joined (cs : List Csi) (text : List UInt8) : text.length ≤ (joined cs text).length := by
  unfold joined
  rw [List.length_append]
  omega

/-- A result that a write should have. -/
structure Right (t : TtyOut) (cs : List Csi) (text : List UInt8) (t' : TtyOut) (ops : List ScreenOp) : Prop where
  count_le : t'.count ≤ t'.bufferSize
  contents : t'.contents = t.contents ++ text
  cursor : ops.filterMap ScreenOp.cursor = cs.filterMap Csi.cursor

theorem Right.count {cs : List Csi} {text : List UInt8} (h : Right t cs text t' ops) :
    t'.count = t.count + text.length := by
  have hlength := congrArg List.length h.contents
  rwa [List.length_append, length_contents, length_contents] at hlength

/-- Neither the start of a sequence nor a single escape begins the text. -/
theorem not_escape {text : List UInt8} (hstart : ¬[27, 91] <+: text) (hescape : text ≠ [27]) (hnil : text ≠ [])
    (h : slice m a text.length = text) : ¬(m a = 27 ∧ m (a + 1) = 91) := by
  intro hesc
  cases text with
  | nil => exact hnil rfl
  | cons x text =>
    obtain ⟨hx, hrest⟩ := slice_cons h
    cases text with
    | nil => exact hescape (by rw [← hx, hesc.1])
    | cons y text =>
      have hy := (slice_cons hrest).1
      apply hstart
      rw [← hx, ← hy, hesc.1, hesc.2]
      exact ⟨text, rfl⟩

theorem isPrefix_escape {text : List UInt8} (hstart : [27, 91] <+: text) (h : slice m a text.length = text) :
    m a = 27 ∧ m (a + 1) = 91 := by
  obtain ⟨rest, rfl⟩ := hstart
  obtain ⟨hx, hrest⟩ := slice_cons h
  exact ⟨hx, (slice_cons hrest).1⟩

/-- The text is longer than what is left behind the start of a sequence. -/
theorem not_right_of_sequence {cs : List Csi} {text : List UInt8} (hle : t.count < 2 ^ 32)
    (hesc : m a = 27 ∧ m (a + 1) = 91) (hn : n ≤ text.length)
    (hres : ttyWrite w block m a n t = some (.none, t', ops)) : ¬Right t cs text t' ops := by
  intro hright
  obtain ⟨k, hk, hcount⟩ := count_of_sequence hle hesc hres
  have hcount' := hright.count
  have hmod : u32 (t.count + k) ≤ t.count + k := Nat.mod_le _ _
  omega

/-- Writes with the right result are plain, if a bracket is behind a last escape. -/
theorem plain_of_right {cs : List Csi} {text : List UInt8} (hle : t.count ≤ t.bufferSize)
    (h32 : t.bufferSize < 2 ^ 32) (hlen : (joined cs text).length < 2 ^ 32) (hpos : joined cs text ≠ [])
    (h : slice m a (joined cs text).length = joined cs text)
    (hbehind : text = [27] → m (a + (joined cs text).length) = 91)
    (hres : ttyWrite w block m a (joined cs text).length t = some (.none, t', ops))
    (hright : Right t cs text t' ops) : Plain cs text ∧ t.Fits text.length := by
  have hw := mayWrite_of_none hres
  have hcount := hright.count
  induction cs generalizing a t t' ops with
  | nil =>
    have hjoined : joined [] text = text := rfl
    rw [hjoined] at hpos h hbehind hres
    have hstart : ¬[27, 91] <+: text := fun hstart =>
      not_right_of_sequence (by omega) (isPrefix_escape hstart h) le_rfl hres hright
    have hescape : text ≠ [27] := by
      intro h27
      have hbehind' := hbehind h27
      rw [h27] at h hbehind'
      exact not_right_of_sequence (by omega) ⟨(slice_cons h).1, hbehind'⟩ le_rfl hres hright
    refine ⟨⟨nofun, hstart, hescape⟩, ?_⟩
    rw [ttyWrite_text hw (not_escape hstart hescape hpos h), h] at hres
    simp only [Option.some.injEq, Prod.mk.injEq, true_and] at hres
    have hfst : (t.append text block).1 = t' := congrArg Prod.fst hres
    have hcount_le := hright.count_le
    rw [← hfst] at hcount hcount_le
    exact fits_of_append h32 hcount_le hcount
  | cons c cs ih =>
    rw [joined_cons] at hlen h hbehind hres
    rw [List.length_append] at hlen
    have hclen : c.bytes.length < 2 ^ 32 := by omega
    cases hsecond : c.second with
    | some ds =>
      have htwo := count_of_two hw hsecond hclen h hres
      have htext := length_le_joined cs text
      have hfour := (bytes_two (slice_append h).1 hsecond).2.2.2
      rw [List.length_append] at htwo
      unfold u32 at htwo
      omega
    | none =>
      rw [ttyWrite_one hw hsecond hclen h] at hres
      by_cases hrest : joined cs text ≠ []
      · rw [if_pos hrest] at hres
        obtain ⟨⟨e, u, o⟩, hrec, heq⟩ := Option.map_eq_some_iff.mp hres
        simp only [Prod.mk.injEq] at heq
        obtain ⟨rfl, rfl, hops⟩ := heq
        have hcursor := hright.cursor
        rw [← hops, List.filterMap_append, filterMap_csi, cursor_iff hsecond] at hcursor
        have hinner : Right (c.sequence.apply t) cs text u o := by
          refine ⟨hright.count_le, ?_, hcursor.2⟩
          rw [apply_contents]
          exact hright.contents
        obtain ⟨hplain, hfit⟩ := ih (by rwa [apply_count, apply_bufferSize]) (by rwa [apply_bufferSize])
          (by omega) hrest (slice_append h).2 (fun h27 => by
            rw [Nat.add_assoc, ← List.length_append]
            exact hbehind h27) hrec hinner (apply_mayWrite hw) hinner.count
        refine ⟨⟨fun c' hc' => ?_, hplain.noStart, hplain.noEscape⟩, ?_⟩
        · rcases List.mem_cons.mp hc' with hc' | hc'
          · exact hc' ▸ hcursor.1
          · exact hplain.simple c' hc'
        · unfold TtyOut.Fits at hfit ⊢
          rwa [apply_count, apply_bufferSize] at hfit
      · have hnil := not_not.mp hrest
        have hcs : cs = [] := by
          cases cs with
          | nil => rfl
          | cons c' cs => exact absurd hnil (joined_ne_nil c' cs text)
        subst hcs
        have htext : text = [] := hnil
        rw [if_neg hrest] at hres
        simp only [Option.some.injEq, Prod.mk.injEq, true_and] at hres
        have hcursor := hright.cursor
        rw [← hres.2, filterMap_csi, ← List.append_nil (List.filterMap _ _), List.filterMap_nil,
          cursor_iff hsecond] at hcursor
        refine ⟨⟨fun c' hc' => ?_, ?_, ?_⟩, .inl ?_⟩
        · rw [List.mem_singleton] at hc'
          exact hc' ▸ hcursor.1
        · rw [htext]
          decide
        · rw [htext]
          decide
        · rw [htext]
          exact hle

/-- A plain write that fits has a result that depends on its bytes only, and it is right. -/
theorem right_of_plain {cs : List Csi} {text : List UInt8} (hw : mayWrite w t) (hle : t.count ≤ t.bufferSize)
    (h32 : t.bufferSize < 2 ^ 32) (hlen : (joined cs text).length < 2 ^ 32) (hpos : joined cs text ≠ [])
    (hplain : Plain cs text) (hfit : t.Fits text.length) :
    ∃ t' ops, (∀ m a, slice m a (joined cs text).length = joined cs text →
      ttyWrite w block m a (joined cs text).length t = some (.none, t', ops)) ∧ Right t cs text t' ops := by
  induction cs generalizing t with
  | nil =>
    have hjoined : joined [] text = text := rfl
    rw [hjoined] at hpos ⊢
    obtain ⟨hcount, hcontents⟩ := @append_spec t block text hle h32 hfit
    refine ⟨(t.append text block).1, (t.append text block).2, fun m a h => ?_, hcount, hcontents, ?_⟩
    · rw [ttyWrite_text hw (not_escape hplain.noStart hplain.noEscape hpos h), h]
    · unfold TtyOut.append
      dsimp only
      split_ifs
      · exact List.filterMap_eq_nil_iff.mpr fun op hop => by
          obtain ⟨x, -, rfl⟩ := List.mem_map.mp hop
          rfl
      · rfl
  | cons c cs ih =>
    have hsimple := hplain.simple c (List.mem_cons_self ..)
    rw [joined_cons] at hlen ⊢
    rw [List.length_append] at hlen
    have hclen : c.bytes.length < 2 ^ 32 := by omega
    by_cases hrest : joined cs text ≠ []
    · obtain ⟨t', ops, hres, hright⟩ := @ih (c.sequence.apply t) (apply_mayWrite hw)
        (by rwa [apply_count, apply_bufferSize]) (by rwa [apply_bufferSize]) (by omega) hrest
        ⟨fun c' hc' => hplain.simple c' (List.mem_cons_of_mem _ hc'), hplain.noStart, hplain.noEscape⟩
        (by unfold TtyOut.Fits; rwa [apply_count, apply_bufferSize])
      refine ⟨t', c.sequence.ops ++ ops, fun m a h => ?_, hright.count_le, ?_, ?_⟩
      · rw [ttyWrite_one hw hsimple.1 hclen h, if_pos hrest, hres m _ (slice_append h).2]
        rfl
      · rw [hright.contents, apply_contents]
      · rw [List.filterMap_append, filterMap_csi, cursor_iff hsimple.1]
        exact ⟨hsimple, hright.cursor⟩
    · have hnil := not_not.mp hrest
      have hcs : cs = [] := by
        cases cs with
        | nil => rfl
        | cons c' cs => exact absurd hnil (joined_ne_nil c' cs text)
      subst hcs
      have htext : text = [] := hnil
      refine ⟨c.sequence.apply t, c.sequence.ops, fun m a h => ?_, ?_, ?_, ?_⟩
      · rw [ttyWrite_one hw hsimple.1 hclen h, if_neg hrest]
      · rwa [apply_count, apply_bufferSize]
      · rw [apply_contents, htext, List.append_nil]
      · rw [← List.append_nil (List.filterMap _ _), filterMap_csi, cursor_iff hsimple.1]
        exact ⟨hsimple, rfl⟩

end Rounds

/-- `tty_write` handles exactly its bytes if and only if the writer may write, the text has only
sequences with one number in front, no other start of a sequence behind them, and room. -/
theorem handles_iff (w : Writer) (t : TtyOut) (input : List UInt8) (hle : t.count ≤ t.bufferSize)
    (h32 : t.bufferSize < 2 ^ 32) (hlen : input.length < 2 ^ 32) (hpos : input ≠ []) :
    Handles w t input ↔
      mayWrite w t ∧ Plain (leadingCsi input) (withoutCsi input) ∧ t.Fits (withoutCsi input).length := by
  have hsplit : joined (leadingCsi input) (withoutCsi input) = input := (splitCsi_eq input.length input).symm
  unfold Handles
  generalize leadingCsi input = cs at hsplit ⊢
  generalize withoutCsi input = text at hsplit ⊢
  subst hsplit
  constructor
  · intro h
    obtain ⟨t', ops, hres, hcount, hcontents, hcursor⟩ := h fun _ => 0
    have hmem : slice (cstring (joined cs text ++ [91])) 0 (joined cs text).length = joined cs text := by
      apply List.ext_getElem (length_slice _ _ _)
      intro i hi hi'
      rw [getElem_slice, Nat.zero_add]
      unfold cstring
      rw [List.getD_append _ _ _ _ hi', List.getD_eq_getElem _ _ hi']
    have hbehind : cstring (joined cs text ++ [91]) (0 + (joined cs text).length) = 91 := by
      unfold cstring
      rw [Nat.zero_add, List.getD_append_right _ _ _ _ le_rfl, Nat.sub_self]
      rfl
    have hres' := hres _ 0 hmem
    exact ⟨mayWrite_of_none hres', plain_of_right hle h32 hlen hpos hmem (fun _ => hbehind) hres'
      ⟨hcount, hcontents, hcursor⟩⟩
  · intro h block
    obtain ⟨hw, hplain, hfit⟩ := h
    obtain ⟨t', ops, hres, hright⟩ := @right_of_plain w t block cs text hw hle h32 hlen hpos hplain hfit
    exact ⟨t', ops, hres, hright.count_le, hright.contents, hright.cursor⟩

/-- A terminal with an empty buffer of 1024 bytes. -/
def emptyTty : TtyOut := ⟨fun _ => 0, 0, 1024, 80, 0, 0, 0, true⟩

/-- One letter. -/
theorem handles_iff_letter : Handles ⟨0, false⟩ emptyTty [65] ↔
    mayWrite ⟨0, false⟩ emptyTty ∧ Plain (leadingCsi [65]) (withoutCsi [65]) ∧
      emptyTty.Fits (withoutCsi [65]).length :=
  handles_iff _ _ _ (Nat.zero_le _) (show 1024 < 2 ^ 32 by norm_num) (by norm_num) (List.cons_ne_nil _ _)

/-- `H` -/
def cursorFinal : Final := ⟨72, by decide⟩

/-- Line 2, column 3. -/
def cursorTwoThree : Csi := ⟨(takeDigits [50]).1, some (takeDigits [51]).1, cursorFinal⟩

/-- Two numbers: the semicolon, the second number and the final byte become text. -/
theorem not_handles_two_numbers : ¬Handles ⟨0, false⟩ emptyTty [27, 91, 50, 59, 51, 72] := by
  intro h
  obtain ⟨t', ops, hres, -, hcontents, -⟩ := h fun _ => 0
  have hbytes : slice (cstring [27, 91, 50, 59, 51, 72]) 0 6 = [27, 91, 50, 59, 51, 72] := rfl
  have hcount := @count_of_two ⟨0, false⟩ emptyTty t' (fun _ => 0) (cstring [27, 91, 50, 59, 51, 72]) 0
    cursorTwoThree [] ops _ (.inl rfl) rfl (show 6 < 2 ^ 32 by norm_num) hbytes (hres _ 0 hbytes)
  have hempty : t'.contents = [] := hcontents
  have hlength := congrArg List.length hempty
  rw [length_contents, hcount] at hlength
  exact absurd hlength (by decide)

end VkKernel.Io

