import VkKernel.IoStream
import VkKernel.Strings

/-!
# Writing to a terminal

`tty_write` takes an escape sequence off the front of the text and calls itself for the rest. The
scan for a number does not look at `count`, the second number is read at the semicolon in front of
it, and the buffer of the terminal is doubled once.
-/

namespace VkKernel.Io
open ByteMemory StoreLog

/-! ## The source -/

/-- The part of `tty_t` that `tty_write` uses, and whether it is `current_tty`. -/
structure TtyOut where
  buffer : Mem
  count : ℕ
  bufferSize : ℕ
  charWidth : ℕ
  cursorPos : ℕ
  lflag : ℕ
  foregroundProcesses : ℕ
  current : Bool

/-- The group of `current_process`, and whether it ignores `SIGTTOU`. -/
structure Writer where
  group : ℕ
  ignoresTtou : Bool

/-- The calls that reach the screen. -/
inductive ScreenOp
  | setCursor (x y : ℕ)
  | cls
  | putc (c : UInt8)
deriving DecidableEq, Repr

def TOSTOP : ℕ := 256

def mayWrite (w : Writer) (t : TtyOut) : Prop :=
  w.group = t.foregroundProcesses ∨ t.lflag &&& TOSTOP = 0 ∨ w.ignoresTtou = true

instance (w : Writer) (t : TtyOut) : Decidable (mayWrite w t) := inferInstanceAs (Decidable (_ ∨ _))

def IsDigit (c : UInt8) : Prop := 48 ≤ c ∧ c ≤ 57

instance : DecidablePred IsDigit := fun _ => inferInstanceAs (Decidable (_ ∧ _))

/-- `atoiindex` from place `i` on, with the 32 bits of the number so far. -/
def atoiindexLoop (m : Mem) (s : ℕ) : ℕ → ℕ → ℕ → Bool → ℕ × ℕ
  | 0, i, num, sign => (if sign then sub32 0 num else num, i)
  | fuel + 1, i, num, sign =>
    if m (s + i) ≠ 0 ∧ IsDigit (m (s + i)) then
      atoiindexLoop m s fuel (i + 1) (u32 (num * 10 + (m (s + i)).toNat - 48)) sign
    else if m (s + i) ≠ 0 ∧ m s = 45 ∧ i = 0 then atoiindexLoop m s fuel (i + 1) num true
    else (if sign then sub32 0 num else num, i)

/-- `atoiindex`, the number and the index. The loop has the address space to run through. -/
def atoiindex (m : Mem) (s : ℕ) : ℕ × ℕ := atoiindexLoop m s (2 ^ 32) 0 0 false

/-- The value for an absent number. -/
def orOne (n : ℕ) : ℕ := if n = 0 then 1 else n

/-- What `tty_write` finds behind the two bytes that begin a sequence. -/
structure Sequence where
  n : ℕ
  m : ℕ
  i : ℕ
  control : UInt8

def parseSequence (mem : Mem) (a : ℕ) : Sequence :=
  let (n, i) := atoiindex mem (a + 2)
  let control := mem (a + 2 + i)
  if control = 59 then
    -- the number is looked for where the semicolon is, and `i` starts again from there
    let (m, i) := atoiindex mem (a + 2 + i)
    ⟨orOne n, orOne m, i, mem (a + 2 + i)⟩
  else ⟨orOne n, 1, i, control⟩

def Sequence.ops (q : Sequence) : List ScreenOp :=
  if q.control = 72 then [.setCursor ((q.n - 1) % 256) ((q.m - 1) % 256)]
  else if q.control = 74 ∧ q.n = 2 then [.cls]
  else []

def Sequence.apply (q : Sequence) (t : TtyOut) : TtyOut :=
  if q.control = 72 then { t with cursorPos := u32 (t.charWidth * q.n + q.m) } else t

/-- The buffer, doubled if the bytes do not fit. -/
def TtyOut.grow (n : ℕ) (block : Mem) (t : TtyOut) : TtyOut :=
  if u32 (t.count + n) > t.bufferSize then
    { t with
      bufferSize := u32 (t.bufferSize * 2)
      buffer := krealloc t.buffer t.bufferSize (u32 (t.bufferSize * 2)) block }
  else t

/-- The end of `tty_write`: the text goes to the buffer, and to the screen of `current_tty`. -/
def TtyOut.append (bytes : List UInt8) (block : Mem) (t : TtyOut) : TtyOut × List ScreenOp :=
  let t := t.grow bytes.length block
  ({ t with
      buffer := ((Logged.start t.buffer).puts t.count bytes).mem
      count := u32 (t.count + bytes.length) },
    if t.current then bytes.map .putc else [])

/-- `tty_write` of `count` bytes at `a`. There is no result when `count` wraps around: what is left
then is almost the whole address space, and the copy faults. -/
def ttyWrite (w : Writer) (block m : Mem) (a count : ℕ) (t : TtyOut) :
    Option (ErrorT × TtyOut × List ScreenOp) :=
  if ¬mayWrite w t then some (.io, t, [])
  else if strcfirst (cstring [27, 91]) (fun x => m (a + x)) 3 0 = 2 then
    let q := parseSequence m a
    if 3 + q.i ≤ count then
      if count - 3 - q.i ≠ 0 then
        (ttyWrite w block m (a + 3 + q.i) (count - 3 - q.i) (q.apply t)).map fun r =>
          (r.1, r.2.1, q.ops ++ r.2.2)
      else some (.none, q.apply t, q.ops)
    else none
  else some (.none, t.append (slice m a count) block)
termination_by count

/-! ## One round -/

def TtyOut.contents (t : TtyOut) : List UInt8 := slice t.buffer 0 t.count

section Rounds
variable {w : Writer} {t t' : TtyOut} {block m : Mem} {a n : ℕ} {ops : List ScreenOp} {q : Sequence}

theorem escape_iff : strcfirst (cstring [27, 91]) (fun x => m (a + x)) 3 0 = 2 ↔ m a = 27 ∧ m (a + 1) = 91 := by
  have hfirst : cstring [27, 91] 0 = 27 := rfl
  have hsecond : cstring [27, 91] 1 = 91 := rfl
  have hend : cstring [27, 91] 2 = 0 := rfl
  simp only [strcfirst, Nat.zero_add, Nat.add_zero, Nat.reduceAdd, hfirst, hsecond, hend, ne_eq,
    not_true_eq_false, false_and, if_false]
  by_cases h27 : m a = 27
  · by_cases h91 : m (a + 1) = 91
    · simp [h27, h91]
    · simp [h27, h91, Ne.symm h91]
  · simp [h27, Ne.symm h27]

/-- A number that is looked for at a semicolon is absent. -/
theorem atoiindex_semicolon {s : ℕ} (h : m s = 59) : atoiindex m s = (0, 0) := by
  have hdigit : ¬(m (s + 0) ≠ 0 ∧ IsDigit (m (s + 0))) := by
    rw [Nat.add_zero, h]
    decide
  have hsign : ¬(m (s + 0) ≠ 0 ∧ m s = 45 ∧ (0 : ℕ) = 0) := by
    rw [Nat.add_zero, h]
    decide
  have hfuel : 2 ^ 32 = 4294967295 + 1 := by norm_num
  unfold atoiindex
  rw [hfuel, atoiindexLoop, if_neg hdigit, if_neg hsign]
  rfl

/-- The second number is never found. -/
theorem parseSequence_m : (parseSequence m a).m = 1 := by
  unfold parseSequence
  dsimp only
  by_cases h : m (a + 2 + (atoiindex m (a + 2)).2) = 59
  · rw [if_pos h, atoiindex_semicolon h]
    rfl
  · rw [if_neg h]

theorem apply_eq (q : Sequence) (t : TtyOut) : ∃ pos, q.apply t = { t with cursorPos := pos } := by
  unfold Sequence.apply
  split_ifs
  · exact ⟨_, rfl⟩
  · exact ⟨t.cursorPos, rfl⟩

theorem apply_count : (q.apply t).count = t.count := by
  obtain ⟨pos, h⟩ := apply_eq q t
  rw [h]

theorem apply_bufferSize : (q.apply t).bufferSize = t.bufferSize := by
  obtain ⟨pos, h⟩ := apply_eq q t
  rw [h]

theorem apply_contents : (q.apply t).contents = t.contents := by
  obtain ⟨pos, h⟩ := apply_eq q t
  rw [h]
  rfl

theorem apply_mayWrite (h : mayWrite w t) : mayWrite w (q.apply t) := by
  obtain ⟨pos, heq⟩ := apply_eq q t
  rw [heq]
  exact h

theorem length_contents : t.contents.length = t.count := length_slice _ _ _

theorem mayWrite_of_none (h : ttyWrite w block m a n t = some (.none, t', ops)) : mayWrite w t := by
  by_contra hno
  rw [ttyWrite, if_pos hno] at h
  exact absurd h nofun

/-- The rest behind a sequence. -/
theorem ttyWrite_sequence (hw : mayWrite w t) (hesc : m a = 27 ∧ m (a + 1) = 91) :
    ttyWrite w block m a n t =
      let q := parseSequence m a
      if 3 + q.i ≤ n then
        if n - 3 - q.i ≠ 0 then
          (ttyWrite w block m (a + 3 + q.i) (n - 3 - q.i) (q.apply t)).map fun r =>
            (r.1, r.2.1, q.ops ++ r.2.2)
        else some (.none, q.apply t, q.ops)
      else none := by
  rw [ttyWrite, if_neg (not_not_intro hw), if_pos (escape_iff.mpr hesc)]

theorem ttyWrite_text (hw : mayWrite w t) (hesc : ¬(m a = 27 ∧ m (a + 1) = 91)) :
    ttyWrite w block m a n t = some (.none, t.append (slice m a n) block) := by
  rw [ttyWrite, if_neg (not_not_intro hw), if_neg fun h => hesc (escape_iff.mp h)]

theorem grow_count : (t.grow n block).count = t.count := by
  unfold TtyOut.grow
  split_ifs <;> rfl

theorem append_count {bytes : List UInt8} :
    (t.append bytes block).1.count = u32 (t.count + bytes.length) := by
  unfold TtyOut.append
  dsimp only
  rw [grow_count]

/-- The text is a part of the bytes. -/
theorem count_of_ttyWrite (h32 : t.count < 2 ^ 32) (h : ttyWrite w block m a n t = some (.none, t', ops)) :
    ∃ k ≤ n, t'.count = u32 (t.count + k) := by
  have hw := mayWrite_of_none h
  induction n using Nat.strong_induction_on generalizing a t t' ops with
  | _ n ih =>
    by_cases hesc : m a = 27 ∧ m (a + 1) = 91
    · rw [ttyWrite_sequence hw hesc] at h
      dsimp only at h
      split_ifs at h with hroom hrest
      · obtain ⟨⟨e, u, o⟩, hrec, heq⟩ := Option.map_eq_some_iff.mp h
        simp only [Prod.mk.injEq] at heq
        obtain ⟨rfl, rfl, -⟩ := heq
        obtain ⟨k, hk, hcount⟩ :=
          ih _ (by omega) (by rwa [apply_count]) hrec (apply_mayWrite hw)
        rw [apply_count] at hcount
        exact ⟨k, by omega, hcount⟩
      · simp only [Option.some.injEq, Prod.mk.injEq, true_and] at h
        rw [← h.1, apply_count]
        exact ⟨0, Nat.zero_le n, (u32_of_lt h32).symm⟩
    · rw [ttyWrite_text hw hesc] at h
      simp only [Option.some.injEq, Prod.mk.injEq, true_and] at h
      have hcount := @append_count t block (slice m a n)
      rw [h, length_slice] at hcount
      exact ⟨n, le_rfl, hcount⟩

/-- Behind a start of a sequence three bytes are gone, or the write does not return. -/
theorem count_of_sequence (h32 : t.count < 2 ^ 32) (hesc : m a = 27 ∧ m (a + 1) = 91)
    (h : ttyWrite w block m a n t = some (.none, t', ops)) :
    ∃ k, k + 3 ≤ n ∧ t'.count = u32 (t.count + k) := by
  have hw := mayWrite_of_none h
  rw [ttyWrite_sequence hw hesc] at h
  dsimp only at h
  split_ifs at h with hroom hrest
  · obtain ⟨⟨e, u, o⟩, hrec, heq⟩ := Option.map_eq_some_iff.mp h
    simp only [Prod.mk.injEq] at heq
    obtain ⟨rfl, rfl, -⟩ := heq
    obtain ⟨k, hk, hcount⟩ := count_of_ttyWrite (by rwa [apply_count]) hrec
    rw [apply_count] at hcount
    exact ⟨k, by omega, hcount⟩
  · simp only [Option.some.injEq, Prod.mk.injEq, true_and] at h
    rw [← h.1, apply_count]
    exact ⟨0, by omega, (u32_of_lt h32).symm⟩

end Rounds

end VkKernel.Io
