import VkKernel.Fat32Dir
import VkKernel.Numerals
import VkKernel.VgaText

/-!
# Formatted output

`kprintf` goes through its format in memory and writes every numeral into one buffer of its own
before it shows it. The meaning of a format is what it shows, the characters with their colors.
-/

namespace VkKernel.Io
open ByteMemory IntervalUpdate Reversal Syscalls Fat32

/-! ## The source -/

/-- `x + ((x > 9) ? 'A' - 10 : '0')`. -/
def hexDigit (x : ℕ) : UInt8 := UInt8.ofNat (x + if x > 9 then 65 - 10 else 48)

/-- `len` of `i2hex`. -/
def hexLength (val : ℕ) : ℕ := if val < 255 then 2 else if val < 65535 then 4 else 8

/-- The digits in front of `cp`. -/
def i2hexLoop (dest : ℕ) : ℕ → ℕ → Mem → Mem
  | 0, _, m => m
  | cp + 1, val, m => i2hexLoop dest cp (val / 16) (Function.update m (dest + cp) (hexDigit (val % 16)))

def i2hex (val dest : ℕ) (m : Mem) : Mem :=
  Function.update (i2hexLoop dest (hexLength val) val m) (dest + hexLength val) 0

/-- The loop of `toupper` and of `tolower`, which has the address space to run through. -/
def caseLoop (f : UInt8 → UInt8) (s : ℕ) : ℕ → ℕ → Mem → Mem
  | 0, _, m => m
  | fuel + 1, i, m =>
    if m (s + i) ≠ 0 then
      caseLoop f s fuel (i + 1) (Function.update m (s + i) (f (m (s + i))))
    else m

def toupper (s : ℕ) (m : Mem) : Mem := caseLoop toUpper s (2 ^ 32) 0 m

def tolower (s : ℕ) (m : Mem) : Mem := caseLoop toLower s (2 ^ 32) 0 m

def Screen.putsLoop (m : Mem) (color : UInt8) : ℕ → ℕ → Screen → Screen
  | 0, _, s => s
  | fuel + 1, str, s =>
    if m str ≠ 0 then putsLoop m color fuel (str + 1) (s.putc (m str) color) else s

/-- `vga_text_puts`. -/
def Screen.puts (m : Mem) (str : ℕ) (color : UInt8) (s : Screen) : Screen :=
  if s.textMode = false ∨ s.videoType = .none then s else s.putsLoop m color (2 ^ 32) str

/-- What `vkprintf` works on: the memory, the next argument, the color and the screen. -/
structure Printing where
  m : Mem
  ap : ℕ
  color : UInt8
  screen : Screen

def Printing.putc (c : UInt8) (p : Printing) : Printing :=
  { p with screen := p.screen.putc c p.color }

def Printing.puts (str : ℕ) (p : Printing) : Printing :=
  { p with screen := p.screen.puts p.m str p.color }

/-- The color of a level. -/
def levelColor (level : UInt8) : UInt8 :=
  if level = 0 then 7 else if level = 1 then 2 else if level = 2 then 4 else 9

/-- The switch, at the character behind a `%`. The argument is the next word of `ap`. -/
def Printing.switch (va : ℕ → ℕ) (buffer : ℕ) (c : UInt8) (p : Printing) : Printing :=
  let arg := va p.ap
  let p' := { p with ap := p.ap + 1 }
  if c = 117 then { p' with m := (utoa arg buffer p.m).2 }.puts buffer
  else if c = 105 ∨ c = 100 then { p' with m := (itoa (int32 arg) buffer p.m).2 }.puts buffer
  else if c = 88 then { p' with m := toupper buffer (i2hex arg buffer p.m) }.puts buffer
  else if c = 120 then { p' with m := tolower buffer (i2hex arg buffer p.m) }.puts buffer
  else if c = 115 then p'.puts arg
  else if c = 99 then p'.putc (UInt8.ofNat arg)
  else if c = 118 then { p' with color := UInt8.ofNat arg }
  else if c = 108 then { p' with color := levelColor (UInt8.ofNat arg) }
  else p.putc c

/-- The loop of `vkprintf` from `args` on, as long as the fuel lasts. -/
def vkprintfLoop (va : ℕ → ℕ) (buffer : ℕ) : ℕ → ℕ → Printing → Option Printing
  | 0, _, _ => none
  | fuel + 1, args, p =>
    if p.m args ≠ 0 then
      if p.m args = 37 then
        vkprintfLoop va buffer fuel (args + 2) (p.switch va buffer (p.m (args + 1)))
      else vkprintfLoop va buffer fuel (args + 1) (p.putc (p.m args))
    else some p

/-- `kprintf`, with the words of the arguments and the place of the buffer. -/
def kprintf (fuel : ℕ) (va : ℕ → ℕ) (buffer args : ℕ) (m : Mem) (s : Screen) : Option Printing :=
  vkprintfLoop va buffer fuel args ⟨m, 0, 7, s⟩

/-! ## The meaning of a format -/

/-- A character of a format, or one behind a `%`. -/
inductive Piece
  | char (c : UInt8)
  | directive (c : UInt8)
deriving DecidableEq, Repr

def Piece.bytes : Piece → List UInt8
  | .char c => [c]
  | .directive c => [37, c]

/-- A piece that a format is read as. -/
def Piece.Proper : Piece → Prop
  | .char c => c ≠ 0 ∧ c ≠ 37
  | .directive c => c ≠ 0

/-- The pieces of a format, and whether it ends with a `%` of no directive. -/
def pieces : List UInt8 → List Piece × Bool
  | [] => ([], false)
  | [c] => if c = 37 then ([], true) else ([.char c], false)
  | c :: d :: rest =>
    if c = 37 then ((.directive d :: (pieces rest).1), (pieces rest).2)
    else (.char c :: (pieces (d :: rest)).1, (pieces (d :: rest)).2)

/-- The numeral that `i2hex` writes. -/
def hexText (n : ℕ) : List UInt8 :=
  List.ofFn fun i : Fin (hexLength n) => hexDigit (n / 16 ^ (hexLength n - 1 - i) % 16)

/-- What has been shown: the characters with their colors. -/
structure Shown where
  ap : ℕ
  color : UInt8
  out : List (UInt8 × UInt8)

def Shown.text (str : List UInt8) (r : Shown) : Shown :=
  { r with out := r.out ++ str.map fun c => (c, r.color) }

/-- What a piece shows, where `text a` is the string at `a`. -/
def Piece.show (va : ℕ → ℕ) (text : ℕ → List UInt8) (r : Shown) : Piece → Shown
  | .char c => r.text [c]
  | .directive c =>
    let arg := va r.ap
    let r' := { r with ap := r.ap + 1 }
    if c = 117 then r'.text (lowDigits arg).reverse
    else if c = 105 ∨ c = 100 then r'.text (intText (int32 arg))
    else if c = 88 then r'.text (hexText arg)
    else if c = 120 then r'.text ((hexText arg).map toLower)
    else if c = 115 then r'.text (text arg)
    else if c = 99 then r'.text [UInt8.ofNat arg]
    else if c = 118 then { r' with color := UInt8.ofNat arg }
    else if c = 108 then { r' with color := levelColor (UInt8.ofNat arg) }
    else r.text [c]

/-- A string of the caller: it ends, and it is not in the buffer. -/
structure Readable (m : Mem) (buffer a : ℕ) (str : List UInt8) : Prop where
  stored : HasString m a str
  ne_zero : ∀ c ∈ str, c ≠ 0
  length_lt : str.length < 2 ^ 32
  apart : a + str.length < buffer ∨ buffer + 32 ≤ a

/-- The strings that the pieces show. -/
def StringsReadable (m : Mem) (buffer : ℕ) (va : ℕ → ℕ) (text : ℕ → List UInt8) (r : Shown) : List Piece → Prop
  | [] => True
  | piece :: rest =>
    (piece = .directive 115 → Readable m buffer (va r.ap) (text (va r.ap))) ∧
      StringsReadable m buffer va text (piece.show va text r) rest

/-- The memory outside the buffer is the same. -/
def AgreeOutside (buffer : ℕ) (m m' : Mem) : Prop := ∀ x, x < buffer ∨ buffer + 32 ≤ x → m' x = m x

/-! ## The numerals -/

section Numerals
variable {m m' : Mem} {s n buffer : ℕ} {str : List UInt8}

theorem AgreeOutside.refl (buffer : ℕ) (m : Mem) : AgreeOutside buffer m m := fun _ _ => rfl

theorem AgreeOutside.trans {m'' : Mem} (h : AgreeOutside buffer m m') (h' : AgreeOutside buffer m' m'') :
    AgreeOutside buffer m m'' := by
  intro x hx
  rw [h' x hx, h x hx]

/-- The text is in the buffer, and nothing else has changed. -/
structure Converted (buffer : ℕ) (m m' : Mem) (str : List UInt8) : Prop where
  stored : HasString m' buffer str
  ne_zero : ∀ c ∈ str, c ≠ 0
  length_le : str.length ≤ 11
  frame : AgreeOutside buffer m m'

theorem reverse_frame (h : HasString m s str) (hstr : ∀ c ∈ str, c ≠ 0) (hne : str ≠ [])
    (hlen : str.length < 2 ^ 32) {x : ℕ} (hx : x < s ∨ s + str.length ≤ x) :
    reverse s m x = m x := by
  have hpos := List.length_pos_of_ne_nil hne
  unfold reverse
  rw [strlen_eq h hstr hlen, sub32_of_le hlen (by omega), swapLoop_eq s (by omega), Nat.add_zero]
  exact mirror_of_notMem (by omega)

/-- `utoa` writes its digits and the zero behind them. -/
theorem utoa_frame (hn : n < 2 ^ 32) {x : ℕ} (hx : x < s ∨ s + 11 ≤ x) : (utoa n s m).2 x = m x := by
  have hlength := length_lowDigits_le hn
  rw [utoa_eq]
  dsimp only
  rw [reverse_frame (hasString_putBytes m s (lowDigits n))
    (fun c hc => isDigit_ne_zero (isDigit_of_mem_lowDigits c hc)) (lowDigits_ne_nil n) (by omega)
    (by omega), Function.update_of_ne (by omega)]
  exact overwrite_of_notMem (by omega)

theorem ne_zero_of_mem_lowDigits : ∀ c ∈ (lowDigits n).reverse, c ≠ 0 := fun c hc =>
  isDigit_ne_zero (isDigit_of_mem_lowDigits c (List.mem_reverse.mp hc))

theorem utoa_converted (hn : n < 2 ^ 32) (buffer : ℕ) (m : Mem) :
    Converted buffer m (utoa n buffer m).2 (lowDigits n).reverse where
  stored := (utoa_spec hn buffer m).2.1
  ne_zero := ne_zero_of_mem_lowDigits
  length_le := by
    have hlength := length_lowDigits_le hn
    rw [List.length_reverse]
    omega
  frame x hx := utoa_frame hn (by omega)

theorem length_intText_le (n : ℤ) : (intText n).length ≤ 11 := by
  have hneg := length_lowDigits_le (toU32_lt (-n))
  have hpos := length_lowDigits_le (toU32_lt n)
  unfold intText
  split_ifs
  · rw [List.length_cons, List.length_reverse]
    omega
  · rw [List.length_reverse]
    omega

theorem itoa_converted (n : ℤ) (buffer : ℕ) (m : Mem) :
    Converted buffer m (itoa n buffer m).2 (intText n) where
  stored := by
    have hstring := itoa_spec n buffer m
    have hpointer : (itoa n buffer m).1 = buffer := by
      unfold itoa
      split_ifs <;> rfl
    rwa [hpointer] at hstring
  ne_zero := ne_zero_of_mem_intText
  length_le := length_intText_le n
  frame x hx := by
    unfold itoa
    split_ifs
    · dsimp only
      rw [utoa_frame (toU32_lt _) (by omega), Function.update_of_ne (by omega)]
    · exact utoa_frame (toU32_lt _) (by omega)

/-- The digits from the highest place down. -/
theorem i2hexLoop_eq (dest cp val : ℕ) (m : Mem) : i2hexLoop dest cp val m =
    overwrite m dest cp fun k => hexDigit (val / 16 ^ (cp - 1 - k) % 16) := by
  induction cp generalizing val m with
  | zero => exact (overwrite_zero _ _ _).symm
  | succ cp ih =>
    rw [i2hexLoop, ih]
    funext x
    by_cases hx : dest ≤ x ∧ x < dest + cp
    · rw [overwrite_of_mem hx.1 hx.2, overwrite_of_mem hx.1 (by omega), Nat.div_div_eq_div_mul,
        ← pow_succ', show cp - 1 - (x - dest) + 1 = cp + 1 - 1 - (x - dest) by omega]
    rw [overwrite_of_notMem (by omega)]
    by_cases hlast : x = dest + cp
    · rw [hlast, Function.update_self, overwrite_of_mem (by omega) (by omega),
        Nat.add_sub_cancel_left, Nat.add_sub_cancel, Nat.sub_self, pow_zero, Nat.div_one]
    · rw [Function.update_of_ne hlast, overwrite_of_notMem (by omega)]

theorem hexLength_le (n : ℕ) : hexLength n ≤ 8 := by
  unfold hexLength
  split_ifs <;> omega

theorem length_hexText (n : ℕ) : (hexText n).length = hexLength n := List.length_ofFn

theorem hexDigit_cases : ∀ d < 16, hexDigit d ≠ 0 ∧ toUpper (hexDigit d) = hexDigit d := by
  decide

theorem toLower_ne_zero : ∀ c : UInt8, c ≠ 0 → toLower c ≠ 0 := by decide +kernel

theorem mem_hexText {c : UInt8} (h : c ∈ hexText n) : c ≠ 0 ∧ toUpper c = c := by
  obtain ⟨i, rfl⟩ := List.mem_ofFn.mp h
  exact hexDigit_cases _ (Nat.mod_lt _ (by norm_num))

theorem i2hex_converted (n buffer : ℕ) (m : Mem) : Converted buffer m (i2hex n buffer m) (hexText n) where
  stored i hi := by
    rw [length_hexText] at hi
    unfold i2hex
    rw [i2hexLoop_eq]
    by_cases hend : i = hexLength n
    · rw [hend, Function.update_self, List.getD_eq_default _ _ (length_hexText n).le]
    · rw [Function.update_of_ne (by omega), overwrite_of_mem (by omega) (by omega),
        Nat.add_sub_cancel_left, List.getD_eq_getElem _ _ (by rw [length_hexText]; omega)]
      simp only [hexText, List.getElem_ofFn]
  ne_zero c hc := (mem_hexText hc).1
  length_le := by
    have hlength := hexLength_le n
    rw [length_hexText]
    omega
  frame x hx := by
    have hlength := hexLength_le n
    unfold i2hex
    rw [i2hexLoop_eq, Function.update_of_ne (by omega), overwrite_of_notMem (by omega)]

/-- The characters from `i` on are changed, one after the other. -/
theorem caseLoop_eq (f : UInt8 → UInt8) {fuel i : ℕ} (hstr : ∀ c ∈ str, c ≠ 0) (hle : i ≤ str.length)
    (hfuel : str.length < fuel + i) (h : ∀ j, i ≤ j → j ≤ str.length → m (s + j) = str.getD j 0) :
    caseLoop f s fuel i m = overwrite m (s + i) (str.length - i) fun k => f (str.getD (i + k) 0) := by
  induction fuel generalizing i m with
  | zero => omega
  | succ fuel ih =>
    rw [caseLoop, h i le_rfl hle]
    by_cases hend : i = str.length
    · rw [hend, List.getD_eq_default _ _ le_rfl, if_neg (not_not_intro rfl), Nat.sub_self, overwrite_zero]
    · have hlt : i < str.length := by omega
      have hne : str.getD i 0 ≠ 0 := by
        rw [List.getD_eq_getElem _ _ hlt]
        exact hstr _ (List.getElem_mem hlt)
      rw [if_pos hne, ih (by omega) (by omega) fun j hj hj' => by
        rw [Function.update_of_ne (by omega), h j (by omega) hj']]
      funext x
      by_cases hx : s + (i + 1) ≤ x ∧ x < s + str.length
      · obtain ⟨k, rfl⟩ := Nat.exists_eq_add_of_le hx.1
        rw [overwrite_of_mem (by omega) (by omega), overwrite_of_mem (by omega) (by omega),
          Nat.add_sub_cancel_left, show i + (s + (i + 1) + k - (s + i)) = i + 1 + k by omega]
      rw [overwrite_of_notMem (by omega)]
      by_cases hfirst : x = s + i
      · rw [hfirst, Function.update_self, overwrite_of_mem le_rfl (by omega), Nat.sub_self, Nat.add_zero]
      · rw [Function.update_of_ne hfirst, overwrite_of_notMem (by omega)]

/-- The text in the buffer with `f` on every character. -/
theorem Converted.caseLoop {f : UInt8 → UInt8} (h : Converted buffer m m' str) (hf : ∀ c ∈ str, f c ≠ 0) :
    Converted buffer m (caseLoop f buffer (2 ^ 32) 0 m') (str.map f) := by
  have hlength := h.length_le
  rw [caseLoop_eq f h.ne_zero (Nat.zero_le _) (by omega) fun j _ hj => h.stored j hj]
  refine ⟨fun i hi => ?_, ?_, by rwa [List.length_map], fun x hx => ?_⟩
  · rw [List.length_map] at hi
    by_cases hend : i = str.length
    · rw [overwrite_of_notMem (by omega), h.stored i hi, List.getD_eq_default _ _ (by omega),
        List.getD_eq_default _ _ (by rw [List.length_map]; omega)]
    · rw [overwrite_of_mem (by omega) (by omega), List.getD_eq_getElem _ _ (by omega),
        List.getD_eq_getElem _ _ (by rw [List.length_map]; omega), List.getElem_map]
      congr 2
      omega
  · intro c hc
    obtain ⟨d, hd, rfl⟩ := List.mem_map.mp hc
    exact hf d hd
  · rw [overwrite_of_notMem (by omega), h.frame x hx]

/-- The value of a digit of either case. -/
def hexValue (c : UInt8) : ℕ :=
  if c ≤ 57 then c.toNat - 48 else (toUpper c).toNat - 55

/-- A numeral read from the left. -/
def hexNumber (ds : List UInt8) : ℕ := ds.foldl (fun v c => 16 * v + hexValue c) 0

theorem hexValue_hexDigit : ∀ d < 16, hexValue (hexDigit d) = d ∧ hexValue (toLower (hexDigit d)) = d := by
  decide

theorem hexNumber_ofFn (f : UInt8 → UInt8) (hf : ∀ d < 16, hexValue (f (hexDigit d)) = d) (k n : ℕ) :
    hexNumber (List.ofFn fun i : Fin k => f (hexDigit (n / 16 ^ (k - 1 - i) % 16))) = n % 16 ^ k := by
  induction k generalizing n with
  | zero => exact (Nat.mod_one n).symm
  | succ k ih =>
    have hrest := ih (n / 16)
    unfold hexNumber at hrest ⊢
    rw [List.ofFn_succ_last, List.foldl_append, List.foldl_cons, List.foldl_nil]
    have hdigits : (fun i : Fin k => f (hexDigit (n / 16 ^ (k + 1 - 1 - i.castSucc.val) % 16))) =
        fun i : Fin k => f (hexDigit (n / 16 / 16 ^ (k - 1 - i) % 16)) := by
      funext i
      rw [Nat.div_div_eq_div_mul, ← pow_succ', Fin.val_castSucc, show k - 1 - i.val + 1 = k + 1 - 1 - i.val by omega]
    rw [hdigits, hrest, Fin.val_last, Nat.add_sub_cancel, Nat.sub_self, pow_zero, Nat.div_one,
      hf _ (Nat.mod_lt _ (by norm_num)), pow_succ', Nat.mod_mul]
    omega

/-- The numeral has room for the number, and both cases are read as the number. -/
theorem hexNumber_hexText (h : n < 2 ^ 32) :
    hexNumber (hexText n) = n ∧ hexNumber ((hexText n).map toLower) = n := by
  have hroom : n < 16 ^ hexLength n := by
    unfold hexLength
    split_ifs <;> omega
  constructor
  · exact (hexNumber_ofFn id (fun d hd => (hexValue_hexDigit d hd).1) _ n).trans (Nat.mod_eq_of_lt hroom)
  · unfold hexText
    rw [List.map_ofFn]
    exact (hexNumber_ofFn toLower (fun d hd => (hexValue_hexDigit d hd).2) _ n).trans (Nat.mod_eq_of_lt hroom)

theorem toupper_converted (n buffer : ℕ) (m : Mem) :
    Converted buffer m (toupper buffer (i2hex n buffer m)) (hexText n) := by
  have hupper : (hexText n).map toUpper = hexText n := by
    apply (List.map_congr_left fun c hc => (mem_hexText hc).2).trans
    exact List.map_id' _
  have h := (i2hex_converted n buffer m).caseLoop (f := toUpper) fun c hc => by
    rw [(mem_hexText hc).2]
    exact (mem_hexText hc).1
  rwa [hupper] at h

theorem tolower_converted (n buffer : ℕ) (m : Mem) :
    Converted buffer m (tolower buffer (i2hex n buffer m)) ((hexText n).map toLower) :=
  (i2hex_converted n buffer m).caseLoop fun c hc => toLower_ne_zero c (mem_hexText hc).1

end Numerals

/-! ## The run over a format -/

section Run
variable {m : Mem} {va : ℕ → ℕ} {text : ℕ → List UInt8} {buffer : ℕ} {s : Screen}

/-- The screen behind what has been shown. -/
def Screen.shows (s : Screen) (out : List (UInt8 × UInt8)) : Screen :=
  out.foldl (fun s q => s.putc q.1 q.2) s

theorem Screen.putc_of_off (h : s.textMode = false ∨ s.videoType = .none) (c color : UInt8) :
    s.putc c color = s := by
  unfold Screen.putc
  exact if_pos h

theorem Screen.putsLoop_eq (color : UInt8) {str : List UInt8} {fuel a : ℕ} (h : HasString m a str)
    (hstr : ∀ c ∈ str, c ≠ 0) (hfuel : str.length < fuel) :
    s.putsLoop m color fuel a = s.shows (str.map fun c => (c, color)) := by
  induction str generalizing fuel a s with
  | nil =>
    obtain ⟨fuel, rfl⟩ := Nat.exists_eq_add_of_lt hfuel
    have hend : m a = 0 := h 0 le_rfl
    rw [Screen.putsLoop, hend, if_neg (not_not_intro rfl)]
    rfl
  | cons c str ih =>
    rw [List.length_cons] at hfuel
    obtain ⟨fuel, rfl⟩ := Nat.exists_eq_add_of_lt (Nat.zero_lt_of_lt hfuel)
    have hfirst : m a = c := h 0 (Nat.zero_le _)
    have hrest : HasString m (a + 1) str := by
      intro i hi
      rw [Nat.add_assoc, Nat.add_comm 1]
      exact h (i + 1) (Nat.succ_le_succ hi)
    rw [Screen.putsLoop, hfirst, if_pos (hstr c (List.mem_cons_self ..)),
      ih hrest (fun d hd => hstr d (List.mem_cons_of_mem _ hd)) (by omega)]
    rfl

theorem Screen.shows_of_off (h : s.textMode = false ∨ s.videoType = .none)
    (out : List (UInt8 × UInt8)) : s.shows out = s := by
  unfold Screen.shows
  induction out with
  | nil => rfl
  | cons q out ih => rw [List.foldl_cons, Screen.putc_of_off h, ih]

theorem Screen.puts_eq (color : UInt8) {str : List UInt8} {a : ℕ} (h : HasString m a str)
    (hstr : ∀ c ∈ str, c ≠ 0) (hlen : str.length < 2 ^ 32) :
    s.puts m a color = s.shows (str.map fun c => (c, color)) := by
  unfold Screen.puts
  split_ifs with hoff
  · exact (Screen.shows_of_off hoff _).symm
  · exact Screen.putsLoop_eq color h hstr hlen

/-- The code has shown what the meaning says. -/
structure Printing.Shows (buffer : ℕ) (m : Mem) (s : Screen) (p : Printing) (r : Shown) : Prop where
  ap : p.ap = r.ap
  color : p.color = r.color
  screen : p.screen = s.shows r.out
  frame : AgreeOutside buffer m p.m

variable {p : Printing} {r : Shown}

theorem Screen.shows_append (s : Screen) (out out' : List (UInt8 × UInt8)) :
    s.shows (out ++ out') = (s.shows out).shows out' := List.foldl_append

theorem Printing.Shows.putc (h : p.Shows buffer m s r) (c : UInt8) :
    (p.putc c).Shows buffer m s (r.text [c]) where
  ap := h.ap
  color := h.color
  screen := by
    unfold Shown.text Printing.putc
    rw [Screen.shows_append, ← h.screen, ← h.color]
    rfl
  frame := h.frame

theorem Printing.Shows.next (h : p.Shows buffer m s r) :
    { p with ap := r.ap + 1 }.Shows buffer m s { r with ap := r.ap + 1 } :=
  ⟨rfl, h.color, h.screen, h.frame⟩

theorem Printing.Shows.puts (h : p.Shows buffer m s r) {a : ℕ} {str : List UInt8}
    (hstored : HasString p.m a str) (hstr : ∀ c ∈ str, c ≠ 0) (hlen : str.length < 2 ^ 32) :
    (p.puts a).Shows buffer m s (r.text str) where
  ap := h.ap
  color := h.color
  screen := by
    unfold Shown.text Printing.puts
    rw [Screen.shows_append, ← h.screen, ← h.color]
    exact Screen.puts_eq p.color hstored hstr hlen
  frame := h.frame

/-- A numeral goes through the buffer. -/
theorem Printing.Shows.numeral (h : p.Shows buffer m s r) {m' : Mem} {str : List UInt8}
    (hconv : Converted buffer p.m m' str) :
    ({ p with m := m', ap := r.ap + 1 }.puts buffer).Shows buffer m s ({ r with ap := r.ap + 1 }.text str) := by
  have hnext : { p with m := m', ap := r.ap + 1 }.Shows buffer m s { r with ap := r.ap + 1 } :=
    ⟨rfl, h.color, h.screen, h.frame.trans hconv.frame⟩
  have hlength := hconv.length_le
  exact hnext.puts hconv.stored hconv.ne_zero (by omega)

/-- A string of the caller is not touched by what has been shown before it. -/
theorem Readable.frame {m' : Mem} {a : ℕ} {str : List UInt8} (h : Readable m buffer a str)
    (hframe : AgreeOutside buffer m m') : HasString m' a str := by
  intro i hi
  have hapart := h.apart
  rw [hframe (a + i) (by omega), h.stored i hi]

/-- One directive. -/
theorem switch_shows (hva : ∀ k, va k < 2 ^ 32) (h : p.Shows buffer m s r) (c : UInt8)
    (hstr : c = 115 → Readable m buffer (va r.ap) (text (va r.ap))) :
    (p.switch va buffer c).Shows buffer m s (Piece.show va text r (.directive c)) := by
  unfold Printing.switch Piece.show
  dsimp only
  rw [h.ap]
  by_cases hu : c = 117
  · rw [if_pos hu, if_pos hu]
    exact h.numeral (utoa_converted (hva _) buffer p.m)
  rw [if_neg hu, if_neg hu]
  by_cases hi : c = 105 ∨ c = 100
  · rw [if_pos hi, if_pos hi]
    exact h.numeral (itoa_converted _ buffer p.m)
  rw [if_neg hi, if_neg hi]
  by_cases hX : c = 88
  · rw [if_pos hX, if_pos hX]
    exact h.numeral (toupper_converted _ buffer p.m)
  rw [if_neg hX, if_neg hX]
  by_cases hx : c = 120
  · rw [if_pos hx, if_pos hx]
    exact h.numeral (tolower_converted _ buffer p.m)
  rw [if_neg hx, if_neg hx]
  by_cases hs : c = 115
  · rw [if_pos hs, if_pos hs]
    have hread := hstr hs
    exact h.next.puts (hread.frame h.frame) hread.ne_zero hread.length_lt
  rw [if_neg hs, if_neg hs]
  by_cases hc : c = 99
  · rw [if_pos hc, if_pos hc]
    exact h.next.putc _
  rw [if_neg hc, if_neg hc]
  by_cases hv : c = 118
  · rw [if_pos hv, if_pos hv]
    exact ⟨h.next.ap, rfl, h.screen, h.frame⟩
  rw [if_neg hv, if_neg hv]
  by_cases hl : c = 108
  · rw [if_pos hl, if_pos hl]
    exact ⟨h.next.ap, rfl, h.screen, h.frame⟩
  rw [if_neg hl, if_neg hl]
  exact h.putc c

/-- One piece of the format is one round of the loop. -/
theorem vkprintfLoop_piece (hva : ∀ k, va k < 2 ^ 32) (h : p.Shows buffer m s r) {piece : Piece}
    (hproper : piece.Proper) {fuel args : ℕ} (hbytes : ∀ i < piece.bytes.length, p.m (args + i) = piece.bytes.getD i 0)
    (hstr : piece = .directive 115 → Readable m buffer (va r.ap) (text (va r.ap))) :
    ∃ p' : Printing, p'.Shows buffer m s (piece.show va text r) ∧
      vkprintfLoop va buffer (fuel + 1) args p = vkprintfLoop va buffer fuel (args + piece.bytes.length) p' := by
  cases piece with
  | char c =>
    have hfirst : p.m args = c := hbytes 0 Nat.one_pos
    refine ⟨p.putc c, h.putc c, ?_⟩
    rw [vkprintfLoop, hfirst, if_pos hproper.1, if_neg hproper.2]
    rfl
  | directive c =>
    have hfirst : p.m args = 37 := hbytes 0 Nat.two_pos
    have hsecond : p.m (args + 1) = c := hbytes 1 Nat.one_lt_two
    refine ⟨p.switch va buffer c, switch_shows hva h c fun hc => hstr (congrArg Piece.directive hc), ?_⟩
    rw [vkprintfLoop, hfirst, if_pos (by decide), if_pos rfl, hsecond]
    rfl

/-- The bytes of the format that the loop has not read are still there. -/
theorem vkprintfLoop_pieces (hva : ∀ k, va k < 2 ^ 32) {ps : List Piece} (hproper : ∀ piece ∈ ps, piece.Proper)
    (h : p.Shows buffer m s r) {fuel args : ℕ}
    (hbytes : ∀ i < (ps.flatMap Piece.bytes).length, m (args + i) = (ps.flatMap Piece.bytes).getD i 0)
    (hapart : args + (ps.flatMap Piece.bytes).length ≤ buffer ∨ buffer + 32 ≤ args)
    (hstr : StringsReadable m buffer va text r ps) :
    ∃ p' : Printing, p'.Shows buffer m s (ps.foldl (Piece.show va text) r) ∧
      vkprintfLoop va buffer (fuel + ps.length) args p =
        vkprintfLoop va buffer fuel (args + (ps.flatMap Piece.bytes).length) p' := by
  induction ps generalizing p r args with
  | nil => exact ⟨p, h, rfl⟩
  | cons piece ps ih =>
    rw [List.flatMap_cons] at hbytes hapart
    rw [List.length_append] at hbytes hapart
    have hfirst : ∀ i < piece.bytes.length, p.m (args + i) = piece.bytes.getD i 0 := by
      intro i hi
      rw [h.frame _ (by omega), hbytes i (by omega), List.getD_append _ _ _ _ hi]
    have hrest : ∀ i < (ps.flatMap Piece.bytes).length,
        m (args + piece.bytes.length + i) = (ps.flatMap Piece.bytes).getD i 0 := by
      intro i hi
      rw [Nat.add_assoc, hbytes _ (by omega), List.getD_append_right _ _ _ _ (Nat.le_add_right _ _),
        Nat.add_sub_cancel_left]
    obtain ⟨p₁, hp₁, hround⟩ :=
      vkprintfLoop_piece hva h (hproper piece (List.mem_cons_self ..)) hfirst hstr.1
    obtain ⟨p₂, hp₂, hrun⟩ :=
      ih (fun q hq => hproper q (List.mem_cons_of_mem _ hq)) hp₁ hrest (by omega) hstr.2
    refine ⟨p₂, hp₂, ?_⟩
    rw [List.length_cons, ← Nat.add_assoc, hround, hrun, List.flatMap_cons, List.length_append, Nat.add_assoc]

/-- A format is its pieces, and perhaps a `%` at the end. -/
theorem pieces_bytes (str : List UInt8) :
    str = (pieces str).1.flatMap Piece.bytes ++ if (pieces str).2 then [37] else [] := by
  induction str using pieces.induct with
  | case1 => rfl
  | case2 => rfl
  | case3 c hc =>
    rw [pieces, if_neg hc]
    rfl
  | case4 d rest ih =>
    rw [pieces, if_pos rfl, List.flatMap_cons, List.append_assoc, ← ih]
    rfl
  | case5 c d rest hc ih =>
    rw [pieces, if_neg hc, List.flatMap_cons, List.append_assoc, ← ih]
    rfl

theorem pieces_proper {str : List UInt8} (h : ∀ c ∈ str, c ≠ 0) : ∀ piece ∈ (pieces str).1, piece.Proper := by
  induction str using pieces.induct with
  | case1 => exact fun _ hp => absurd hp List.not_mem_nil
  | case2 => exact fun _ hp => absurd hp List.not_mem_nil
  | case3 c hc =>
    rw [pieces, if_neg hc]
    intro piece hp
    rw [List.mem_singleton.mp hp]
    exact ⟨h c (List.mem_singleton_self c), hc⟩
  | case4 d rest ih =>
    rw [pieces, if_pos rfl]
    intro piece hp
    rcases List.mem_cons.mp hp with rfl | hp
    · exact h d (List.mem_cons_of_mem _ (List.mem_cons_self ..))
    · exact ih (fun c hc => h c (List.mem_cons_of_mem _ (List.mem_cons_of_mem _ hc))) piece hp
  | case5 c d rest hc ih =>
    rw [pieces, if_neg hc]
    intro piece hp
    rcases List.mem_cons.mp hp with rfl | hp
    · exact ⟨h c (List.mem_cons_self ..), hc⟩
    · exact ih (fun e he => h e (List.mem_cons_of_mem _ he)) piece hp

/-- What a format shows, from the first color on. -/
def shown (va : ℕ → ℕ) (text : ℕ → List UInt8) (str : List UInt8) : Shown :=
  (pieces str).1.foldl (Piece.show va text) ⟨0, 7, []⟩

/-- `kprintf` shows what its format means, and the memory outside its buffer stays. A last `%` is taken
for a directive: the loop then goes on behind the end of the format. -/
theorem kprintf_shows (hva : ∀ k, va k < 2 ^ 32) {str : List UInt8} {args : ℕ} (hfmt : Readable m buffer args str)
    (hstr : StringsReadable m buffer va text ⟨0, 7, []⟩ (pieces str).1) (fuel : ℕ) :
    ∃ p : Printing, p.Shows buffer m s (shown va text str) ∧
      kprintf (fuel + 1 + (pieces str).1.length) va buffer args m s =
        if (pieces str).2 then vkprintfLoop va buffer fuel (args + str.length + 1) (p.putc 0) else some p := by
  have hstart : (⟨m, 0, 7, s⟩ : Printing).Shows buffer m s ⟨0, 7, []⟩ := ⟨rfl, rfl, rfl, .refl buffer m⟩
  have hbytes := pieces_bytes str
  have hlength := congrArg List.length hbytes
  rw [List.length_append] at hlength
  have hapart := hfmt.apart
  have hstored : ∀ i < ((pieces str).1.flatMap Piece.bytes).length,
      m (args + i) = ((pieces str).1.flatMap Piece.bytes).getD i 0 := by
    intro i hi
    rw [hfmt.stored i (by omega)]
    conv_lhs => rw [hbytes]
    exact List.getD_append _ _ _ _ hi
  obtain ⟨p, hp, hrun⟩ :=
    vkprintfLoop_pieces hva (pieces_proper hfmt.ne_zero) hstart hstored (by omega) hstr
  have hend : p.m (args + str.length) = 0 := by
    rw [hp.frame _ (by omega), hfmt.stored _ le_rfl]
    exact List.getD_eq_default _ _ le_rfl
  refine ⟨p, hp, ?_⟩
  unfold kprintf
  rw [hrun, vkprintfLoop]
  by_cases hlast : (pieces str).2 = true
  · rw [if_pos hlast] at hbytes hlength ⊢
    rw [List.length_singleton] at hlength
    have hpercent : p.m (args + ((pieces str).1.flatMap Piece.bytes).length) = 37 := by
      rw [hp.frame _ (by omega), hfmt.stored _ (by omega)]
      generalize (pieces str).1.flatMap Piece.bytes = bytes at hbytes ⊢
      rw [hbytes, List.getD_append_right _ _ _ _ le_rfl, Nat.sub_self]
      rfl
    rw [hpercent, if_pos (by decide), if_pos rfl,
      show args + ((pieces str).1.flatMap Piece.bytes).length + 1 = args + str.length by omega, hend,
      show args + ((pieces str).1.flatMap Piece.bytes).length + 2 = args + str.length + 1 by omega]
    rfl
  · rw [if_neg hlast] at hlength ⊢
    rw [List.length_nil, Nat.add_zero] at hlength
    rw [← hlength, hend, if_neg (not_not_intro rfl)]

/-- The format `%d%s%%` with a line feed behind it, and the string `ok`. -/
def greetingMem : Mem := fun x => [37, 100, 37, 115, 37, 37, 10, 0, 111, 107, 0].getD (x - 0x1000) 0

def greetingArgs (k : ℕ) : ℕ := if k = 0 then 0xFFFFFFF9 else 0x1008

def blankScreen : Screen := ⟨⟨fun _ => 0, []⟩, true, .color, 0, 0⟩

theorem kprintf_shows_small : ∃ p : Printing,
    p.screen = blankScreen.shows [(45, 7), (55, 7), (111, 7), (107, 7), (37, 7), (10, 7)] ∧
      kprintf 5 greetingArgs 0x2000 0x1000 greetingMem blankScreen = some p := by
  have hargs : ∀ k, greetingArgs k < 2 ^ 32 := by
    intro k
    unfold greetingArgs
    split_ifs <;> norm_num
  have hformat : Readable greetingMem 0x2000 0x1000 [37, 100, 37, 115, 37, 37, 10] :=
    ⟨by unfold HasString; decide +kernel, by decide +kernel, by decide +kernel, by decide⟩
  have hok : Readable greetingMem 0x2000 0x1008 [111, 107] :=
    ⟨by unfold HasString; decide +kernel, by decide +kernel, by decide +kernel, by decide⟩
  have hstr : StringsReadable greetingMem 0x2000 greetingArgs (fun _ => [111, 107]) ⟨0, 7, []⟩
      [.directive 100, .directive 115, .directive 37, .char 10] :=
    ⟨nofun, fun _ => hok, nofun, nofun, trivial⟩
  obtain ⟨p, hp, hrun⟩ := @kprintf_shows _ _ _ _ blankScreen hargs _ _ hformat hstr 0
  refine ⟨p, hp.screen.trans (congrArg _ ?_), hrun⟩
  decide +kernel

end Run

end VkKernel.Io
