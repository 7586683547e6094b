import VkKernel.Lib.Reversal
import VkKernel.ControlSequences
import VkKernel.UserPointers

/-!
# Decimal numerals

`utoa` of `lib.c` writes the digits of a number from the last one to the first one and turns
them around in place; `itoa` writes a sign in front of them. `atoiindex` reads such a numeral
back, also in front of other text.
-/

namespace VkKernel
open ByteMemory IntervalUpdate Reversal StoreLog Io Syscalls

/-! ## The source -/

def reverse (s : ℕ) (m : Mem) : Mem := swapLoop s (2 ^ 32) 0 (sub32 (strlen m s) 1) m

/-- The digits from place `i` on. A number is larger than a tenth of it, which bounds the loop. -/
def utoaLoop (s : ℕ) : ℕ → ℕ → ℕ → Mem → ℕ × Mem
  | 0, _, i, m => (i, m)
  | fuel + 1, n, i, m =>
    let m := Function.update m (s + i) (UInt8.ofNat (n % 10 + 48))
    if n / 10 > 0 then utoaLoop s fuel (n / 10) (i + 1) m else (i + 1, m)

/-- `utoa`, the returned pointer and the memory. -/
def utoa (n s : ℕ) (m : Mem) : ℕ × Mem :=
  let r := utoaLoop s (n + 1) n 0 m
  (s, reverse s (Function.update r.2 (s + r.1) 0))

/-- The conversion of an `int` to `u32`. -/
def toU32 (n : ℤ) : ℕ := (n % 2 ^ 32).toNat

def itoa (n : ℤ) (s : ℕ) (m : Mem) : ℕ × Mem :=
  if n < 0 then (s, (utoa (toU32 (-n)) (s + 1) (Function.update m s 45)).2)
  else utoa (toU32 n) s m

def atoi (m : Mem) (s : ℕ) : ℤ := int32 (atoiindex m s).1

/-! ## Numerals -/

/-- The decimal numeral of a number. -/
structure Numeral (n : ℕ) (ds : List UInt8) : Prop where
  nonempty : ds ≠ []
  digits : ∀ c ∈ ds, IsDigit c
  value : number ds = n
  noLeadingZero : ds.head? = some 48 → ds = [48]

/-- The place behind the numeral `ds` has no further digit. -/
def Ends (suffix : List UInt8) : Prop := ∀ c, suffix.head? = some c → ¬IsDigit c

/-- The string at the pointer stands for `n`, whatever is behind it. -/
structure ReadsBack (r : ℕ × Mem) (n : ℤ) : Prop where
  whole : atoi r.2 r.1 = n
  before : ∃ ds, (∀ c ∈ ds, c ≠ 0) ∧ HasString r.2 r.1 ds ∧ ∀ m a suffix, Ends suffix →
    HasString m a (ds ++ suffix) →
    int32 (atoiindex m a).1 = n ∧ (atoiindex m a).2 = ds.length

def digit (d : ℕ) : UInt8 := UInt8.ofNat (d + 48)

/-- The digits of a number, the last one first. -/
def lowDigits (n : ℕ) : List UInt8 := if n = 0 then [48] else (Nat.digits 10 n).map digit

section Digits
variable {n d : ℕ}

theorem digit_toNat (h : d < 10) : (digit d).toNat = d + 48 := by
  unfold digit
  exact UInt8.toNat_ofNat_of_lt' (show d + 48 < 256 by omega)

theorem isDigit_digit (h : d < 10) : IsDigit (digit d) := by
  unfold IsDigit
  rw [UInt8.le_iff_toNat_le, UInt8.le_iff_toNat_le, digit_toNat h]
  exact ⟨Nat.le_add_left 48 d, show d + 48 ≤ 57 by omega⟩

theorem isDigit_ne_zero {c : UInt8} (h : IsDigit c) : c ≠ 0 := by
  rintro rfl
  exact absurd h (by decide)

/-- One round of the loop. -/
theorem lowDigits_eq (n : ℕ) :
    lowDigits n = digit (n % 10) :: if n / 10 > 0 then lowDigits (n / 10) else [] := by
  by_cases hn : n = 0
  · subst hn
    rfl
  have hdigits := Nat.digits_eq_cons_digits_div (b := 10) (by norm_num) hn
  unfold lowDigits
  rw [if_neg hn, hdigits, List.map_cons]
  by_cases hdiv : n / 10 > 0
  · rw [if_pos hdiv, if_neg (by omega)]
  · rw [if_neg hdiv, show n / 10 = 0 by omega, Nat.digits_zero, List.map_nil]

theorem isDigit_of_mem_lowDigits : ∀ c ∈ lowDigits n, IsDigit c := by
  intro c hc
  unfold lowDigits at hc
  by_cases hn : n = 0
  · rw [if_pos hn] at hc
    rw [List.mem_singleton.mp hc]
    decide
  · rw [if_neg hn] at hc
    obtain ⟨d, hd, rfl⟩ := List.mem_map.mp hc
    exact isDigit_digit (Nat.digits_lt_base (by norm_num) hd)

theorem lowDigits_ne_nil (n : ℕ) : lowDigits n ≠ [] := by
  rw [lowDigits_eq]
  exact List.cons_ne_nil _ _

theorem length_lowDigits_le (h : n < 2 ^ 32) : (lowDigits n).length ≤ 10 := by
  unfold lowDigits
  by_cases hn : n = 0
  · rw [if_pos hn]
    decide
  · rw [if_neg hn, List.length_map]
    exact (Nat.digits_length_le_iff (by norm_num) n).mpr (by omega)

/-- The value of digits is that of their list in `Nat.digits`. -/
theorem number_reverse_map {l : List ℕ} (h : ∀ d ∈ l, d < 10) :
    number (l.map digit).reverse = Nat.ofDigits 10 l := by
  unfold number
  rw [List.foldl_reverse]
  induction l with
  | nil => rfl
  | cons d l ih =>
    rw [List.map_cons, List.foldr_cons, ih fun e he => h e (List.mem_cons_of_mem _ he),
      digit_toNat (h d (List.mem_cons_self ..)), Nat.ofDigits_cons]
    omega

theorem number_lowDigits (n : ℕ) : number (lowDigits n).reverse = n := by
  unfold lowDigits
  by_cases hn : n = 0
  · rw [if_pos hn, hn]
    rfl
  · rw [if_neg hn, number_reverse_map fun d hd => Nat.digits_lt_base (by norm_num) hd]
    exact Nat.ofDigits_digits 10 n

/-- The last digit that is written is not zero. -/
theorem numeral_lowDigits (n : ℕ) : Numeral n (lowDigits n).reverse where
  nonempty h := lowDigits_ne_nil n (List.reverse_eq_nil_iff.mp h)
  digits c hc := isDigit_of_mem_lowDigits c (List.mem_reverse.mp hc)
  value := number_lowDigits n
  noLeadingZero := by
    unfold lowDigits
    by_cases hn : n = 0
    · rw [if_pos hn]
      exact fun _ => rfl
    · rw [if_neg hn, List.head?_reverse]
      intro h
      have hne : Nat.digits 10 n ≠ [] := Nat.digits_ne_nil_iff_ne_zero.mpr hn
      have hlast := Nat.getLast_digit_ne_zero 10 hn
      rw [List.getLast?_map, List.getLast?_eq_getLast_of_ne_nil hne, Option.map_some,
        Option.some.injEq] at h
      have hlt : (Nat.digits 10 n).getLast hne < 10 :=
        Nat.digits_lt_base (by norm_num) (List.getLast_mem hne)
      have hvalue := congrArg UInt8.toNat h
      rw [digit_toNat hlt] at hvalue
      exact absurd (Nat.add_right_cancel (hvalue : _ = 0 + 48)) hlast

end Digits

/-! ## What is written -/

section Writing
variable {m : Mem} {s n : ℕ} {str : List UInt8}

def putBytes (m : Mem) (a : ℕ) (bs : List UInt8) : Mem :=
  overwrite m a bs.length fun k => bs.getD k 0

theorem putBytes_cons (m : Mem) (a : ℕ) (c : UInt8) (bs : List UInt8) :
    putBytes (Function.update m a c) (a + 1) bs = putBytes m a (c :: bs) := by
  funext x
  unfold putBytes
  rw [List.length_cons]
  by_cases hx : a + 1 ≤ x ∧ x < a + 1 + bs.length
  · obtain ⟨i, rfl⟩ := Nat.exists_eq_add_of_le hx.1
    rw [overwrite_of_mem hx.1 hx.2, overwrite_of_mem (by omega) (by omega), Nat.add_sub_cancel_left,
      show a + 1 + i - a = i + 1 by omega]
    rfl
  rw [overwrite_of_notMem (by omega)]
  by_cases ha : x = a
  · rw [ha, Function.update_self, overwrite_of_mem le_rfl (by omega), Nat.sub_self]
    rfl
  · rw [Function.update_of_ne ha, overwrite_of_notMem (by omega)]

theorem utoaLoop_eq (s : ℕ) {fuel n : ℕ} (h : n < fuel) (i : ℕ) (m : Mem) :
    utoaLoop s fuel n i m =
      (i + (lowDigits n).length, putBytes m (s + i) (lowDigits n)) := by
  induction fuel generalizing n i m with
  | zero => exact absurd h (Nat.not_lt_zero n)
  | succ fuel ih =>
    rw [utoaLoop, lowDigits_eq, ← putBytes_cons]
    by_cases hdiv : n / 10 > 0
    · rw [if_pos hdiv, if_pos hdiv, ih (by omega), List.length_cons, Nat.add_assoc i,
        Nat.add_comm 1]
      rfl
    · rw [if_neg hdiv, if_neg hdiv]
      unfold putBytes
      rw [List.length_nil, overwrite_zero]
      rfl

theorem hasString_putBytes (m : Mem) (a : ℕ) (bs : List UInt8) :
    HasString (Function.update (putBytes m a bs) (a + bs.length) 0) a bs := by
  intro i hi
  by_cases hlt : i < bs.length
  · unfold putBytes
    rw [Function.update_of_ne (by omega), overwrite_of_mem (by omega) (by omega),
      Nat.add_sub_cancel_left]
  · rw [show i = bs.length by omega, Function.update_self, List.getD_eq_default _ _ le_rfl]

/-- `reverse` turns the string around and leaves what is in front of it. -/
theorem reverse_spec (h : HasString m s str) (hstr : ∀ c ∈ str, c ≠ 0) (hne : str ≠ [])
    (hlen : str.length < 2 ^ 32) :
    HasString (reverse s m) s str.reverse ∧ ∀ x < s, reverse s m x = m x := by
  have hpos := List.length_pos_of_ne_nil hne
  have heq : reverse s m = mirror m s (s + (str.length - 1)) := by
    unfold reverse
    rw [strlen_eq h hstr hlen, sub32_of_le hlen (by omega), swapLoop_eq s (by omega), Nat.add_zero]
  rw [heq]
  refine ⟨fun i hi => ?_, fun x hx => mirror_of_notMem (Or.inl hx)⟩
  rw [List.length_reverse] at hi
  by_cases hlt : i < str.length
  · rw [mirror_of_mem (by omega) (by omega),
      show s + (s + (str.length - 1)) - (s + i) = s + (str.length - 1 - i) by omega,
      h _ (by omega), List.getD_eq_getElem _ _ (by omega),
      List.getD_eq_getElem _ _ (by rwa [List.length_reverse]), List.getElem_reverse]
  · rw [mirror_of_notMem (by omega), h i hi, List.getD_eq_default _ _ (by omega),
      List.getD_eq_default _ _ (by rw [List.length_reverse]; omega)]

theorem utoa_eq (n s : ℕ) (m : Mem) : utoa n s m =
    (s, reverse s (Function.update (putBytes m s (lowDigits n)) (s + (lowDigits n).length) 0)) := by
  unfold utoa
  rw [utoaLoop_eq s (Nat.lt_succ_self n), Nat.zero_add, Nat.add_zero]

theorem utoa_spec (hn : n < 2 ^ 32) (s : ℕ) (m : Mem) :
    (utoa n s m).1 = s ∧ HasString (utoa n s m).2 s (lowDigits n).reverse ∧
      ∀ x < s, (utoa n s m).2 x = m x := by
  have hlength := length_lowDigits_le hn
  obtain ⟨hstring, hbefore⟩ := reverse_spec (hasString_putBytes m s (lowDigits n))
    (fun c hc => isDigit_ne_zero (isDigit_of_mem_lowDigits c hc)) (lowDigits_ne_nil n) (by omega)
  rw [utoa_eq]
  dsimp only
  refine ⟨rfl, hstring, fun x hx => ?_⟩
  rw [hbefore x hx, Function.update_of_ne (by omega)]
  exact overwrite_of_notMem (Or.inl hx)

/-- The text of an `int`. -/
def intText (n : ℤ) : List UInt8 :=
  if n < 0 then 45 :: (lowDigits (toU32 (-n))).reverse else (lowDigits (toU32 n)).reverse

theorem toU32_lt (n : ℤ) : toU32 n < 2 ^ 32 := by
  unfold toU32
  omega

theorem itoa_spec (n : ℤ) (s : ℕ) (m : Mem) :
    HasString (itoa n s m).2 (itoa n s m).1 (intText n) := by
  unfold itoa intText
  by_cases hn : n < 0
  · rw [if_pos hn, if_pos hn]
    dsimp only
    obtain ⟨_, hstring, hbefore⟩ := utoa_spec (toU32_lt (-n)) (s + 1) (Function.update m s 45)
    intro i hi
    cases i with
    | zero =>
      have hsign := hbefore s (Nat.lt_succ_self s)
      rw [Function.update_self] at hsign
      exact hsign
    | succ i =>
      have hdigit := hstring i (Nat.le_of_succ_le_succ hi)
      rw [Nat.add_assoc, Nat.add_comm 1] at hdigit
      exact hdigit
  · rw [if_neg hn, if_neg hn]
    obtain ⟨hpointer, hstring, _⟩ := utoa_spec (toU32_lt n) s m
    rw [hpointer]
    exact hstring

end Writing

/-! ## What is read -/

section Reading
variable {m : Mem} {a n : ℕ} {ds suffix : List UInt8}

theorem ends_nil : Ends [] := nofun

/-- The string as bytes and what stops a scan behind it. -/
theorem HasString.append (h : HasString m a (ds ++ suffix)) (hend : Ends suffix) :
    slice m a ds.length = ds ∧ ¬IsDigit (m (a + ds.length)) := by
  constructor
  · apply List.ext_getElem (length_slice _ _ _)
    intro i hi hi'
    have hle : i ≤ (ds ++ suffix).length := by
      rw [List.length_append]
      omega
    rw [getElem_slice, h i hle, List.getD_append _ _ _ _ hi', List.getD_eq_getElem _ _ hi']
  · have hle : ds.length ≤ (ds ++ suffix).length := by
      rw [List.length_append]
      exact Nat.le_add_right _ _
    rw [h _ hle, List.getD_append_right _ _ _ _ le_rfl, Nat.sub_self]
    cases suffix with
    | nil => decide
    | cons c suffix => exact hend c rfl

/-- The value of a numeral in 32 bits. -/
theorem foldl_numeral (h : Numeral n ds) (hn : n < 2 ^ 32) :
    ds.foldl (fun v d => u32 (v * 10 + d.toNat - 48)) 0 = n := by
  have hvalue := foldl_digits h.digits 0
  rw [Nat.zero_mod] at hvalue
  rw [hvalue]
  exact (congrArg (· % 2 ^ 32) h.value).trans (Nat.mod_eq_of_lt hn)

theorem atoiindex_numeral (h : Numeral n ds) (hn : n < 2 ^ 32) (hlen : ds.length < 2 ^ 32)
    (hstring : HasString m a (ds ++ suffix)) (hend : Ends suffix) :
    atoiindex m a = (n, ds.length) := by
  obtain ⟨hbytes, hstop⟩ := hstring.append hend
  unfold atoiindex
  rw [atoiindexLoop_digits h.digits hbytes hstop (fun _ hnil => absurd hnil h.nonempty) hlen,
    foldl_numeral h hn, Nat.zero_add]
  rfl

/-- The sign is read first, and the digits after it. -/
theorem atoiindex_sign (h : Numeral n ds) (hn : n < 2 ^ 32) (hlen : ds.length < 2 ^ 32 - 1)
    (hstring : HasString m a (45 :: ds ++ suffix)) (hend : Ends suffix) :
    atoiindex m a = (sub32 0 n, ds.length + 1) := by
  have hsign : m (a + 0) = 45 := hstring 0 (Nat.zero_le _)
  have hrest : HasString m (a + 1) (ds ++ suffix) := by
    intro i hi
    rw [Nat.add_assoc, Nat.add_comm 1]
    exact hstring (i + 1) (Nat.succ_le_succ hi)
  obtain ⟨hbytes, hstop⟩ := hrest.append hend
  have hdigit : ¬(m (a + 0) ≠ 0 ∧ IsDigit (m (a + 0))) := by
    rw [hsign]
    decide
  have hfirst : m (a + 0) ≠ 0 ∧ m a = 45 ∧ (0 : ℕ) = 0 := by
    rw [hsign]
    exact ⟨by decide, hsign, rfl⟩
  have hfuel : 2 ^ 32 = 2 ^ 32 - 1 + 1 := by norm_num
  unfold atoiindex
  rw [hfuel, atoiindexLoop, if_neg hdigit, if_pos hfirst, Nat.zero_add,
    atoiindexLoop_digits h.digits hbytes hstop (fun hone => absurd hone one_ne_zero) hlen,
    foldl_numeral h hn, Nat.add_comm 1]
  rfl

end Reading

/-! ## The round trip -/

section RoundTrip
variable {n : ℤ}

theorem int32_toU32 (h : -2 ^ 31 ≤ n) (h' : n < 2 ^ 31) : int32 (toU32 n) = n := by
  unfold int32 toU32
  split_ifs with hlt
  all_goals omega

/-- The sign of the smallest number changes nothing. -/
theorem sub32_toU32_neg (n : ℤ) : sub32 0 (toU32 (-n)) = toU32 n := by
  unfold sub32 u32 toU32
  omega

theorem ne_zero_of_mem_intText : ∀ c ∈ intText n, c ≠ 0 := by
  have hdigits : ∀ k, ∀ c ∈ (lowDigits k).reverse, c ≠ 0 := fun k c hc =>
    isDigit_ne_zero (isDigit_of_mem_lowDigits c (List.mem_reverse.mp hc))
  intro c hc
  unfold intText at hc
  split_ifs at hc with hn
  · rcases List.mem_cons.mp hc with rfl | hc
    · decide
    · exact hdigits _ c hc
  · exact hdigits _ c hc

/-- The text of a number in front of something else. -/
theorem atoiindex_intText {m : Mem} {a : ℕ} {suffix : List UInt8} (hend : Ends suffix)
    (hstring : HasString m a (intText n ++ suffix)) :
    atoiindex m a = (toU32 n, (intText n).length) := by
  unfold intText at hstring ⊢
  by_cases hn : n < 0
  · rw [if_pos hn] at hstring ⊢
    have hlen := length_lowDigits_le (toU32_lt (-n))
    rw [← List.length_reverse] at hlen
    rw [atoiindex_sign (numeral_lowDigits _) (toU32_lt _) (by omega) hstring hend,
      sub32_toU32_neg, List.length_cons]
  · rw [if_neg hn] at hstring ⊢
    have hlen := length_lowDigits_le (toU32_lt n)
    rw [← List.length_reverse] at hlen
    exact atoiindex_numeral (numeral_lowDigits _) (toU32_lt _) (by omega) hstring hend

theorem itoa_readsBack (h : -2 ^ 31 ≤ n) (h' : n < 2 ^ 31) (s : ℕ) (m : Mem) :
    ReadsBack (itoa n s m) n := by
  have hstring := itoa_spec n s m
  constructor
  · have hwhole : HasString (itoa n s m).2 (itoa n s m).1 (intText n ++ []) := by
      rwa [List.append_nil]
    unfold atoi
    rw [atoiindex_intText ends_nil hwhole, int32_toU32 h h']
  · refine ⟨intText n, ne_zero_of_mem_intText, hstring, fun m' a suffix hend hbefore => ?_⟩
    rw [atoiindex_intText hend hbefore]
    exact ⟨int32_toU32 h h', rfl⟩

end RoundTrip

/-- `atoi` is the inverse of `itoa`, `atoiindex` reads such a numeral in front of any text,
and `utoa` writes the decimal numeral. -/
theorem decimal_roundTrip (s : ℕ) (m : Mem) :
    (∀ n : ℤ, -2 ^ 31 ≤ n → n < 2 ^ 31 → ReadsBack (itoa n s m) n) ∧
      ∀ n < 2 ^ 32, ∃ ds, Numeral n ds ∧ HasString (utoa n s m).2 (utoa n s m).1 ds := by
  refine ⟨fun n h h' => itoa_readsBack h h' s m, fun n hn => ?_⟩
  obtain ⟨hpointer, hstring, _⟩ := utoa_spec hn s m
  rw [hpointer]
  exact ⟨_, numeral_lowDigits n, hstring⟩

/-- The smallest number. -/
theorem decimal_roundTrip_smallest : ReadsBack (itoa (-2 ^ 31) 0x1000 fun _ => 0xFF) (-2 ^ 31) :=
  (decimal_roundTrip 0x1000 fun _ => 0xFF).1 (-2 ^ 31) le_rfl (by norm_num)

end VkKernel
