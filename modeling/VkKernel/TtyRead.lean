import VkKernel.IoStream

/-!
# Reading from a terminal

`tty_read` collects a line in a buffer of its own and counts `count` down while it does, so the
zeroes behind the line end too early, or wrap around. A raw read that takes a part of the stream
moves the rest up instead of down.
-/

namespace VkKernel.Io
open ByteMemory StoreLog

/-! ## The terminal -/

/-- The part of `tty_t` that `tty_read` uses. -/
structure Tty where
  canonBuffer : Mem
  canonBufferCount : ℕ
  canonBufferSize : ℕ
  keyboardStream : IoStream
  lflag : ℕ
  vmin : ℕ
  vtime : ℕ
  foregroundProcesses : ℕ

def ICANON : ℕ := 2

/-- A call that has returned, with the bytes that it took from the keyboard for its caller. -/
structure Return where
  canonical : Bool
  size : ℕ
  status : ErrorT
  caller : Logged
  delivered : List UInt8

/-- A call in the loop of its mode, before `iostream_getch`. -/
inductive Waiting
  | canonical (size count : ℕ) (caller : Mem)
  | raw (size countmin off : ℕ) (caller : Logged)

/-- A byte goes to the canonical buffer, which is doubled when it is full. -/
def Tty.canonStore (ch : UInt8) (block : Mem) (t : Tty) : Tty :=
  let t : Tty := if t.canonBufferCount ≥ t.canonBufferSize then
      { t with
        canonBufferSize := u32 (t.canonBufferSize * 2)
        canonBuffer := krealloc t.canonBuffer t.canonBufferSize (u32 (t.canonBufferSize * 2)) block }
    else t
  { t with
    canonBuffer := Function.update t.canonBuffer t.canonBufferCount ch
    canonBufferCount := t.canonBufferCount + 1 }

/-- Behind the canonical loop, with what is left of `count`. -/
def Tty.canonEnd (size count : ℕ) (caller : Mem) (t : Tty) : Tty × (Waiting ⊕ Return) :=
  let line := slice t.canonBuffer 0 t.canonBufferCount
  let copied := (Logged.start caller).puts 0 line
  let filled := copied.puts t.canonBufferCount (List.replicate (sub32 count t.canonBufferCount) 0)
  ({ t with canonBufferCount := 0, canonBuffer := Function.update t.canonBuffer 0 0 },
    .inr ⟨true, size, .none, filled, line⟩)

/-- The raw read of what the stream has. -/
def Tty.readPresent (count : ℕ) (caller : Mem) (t : Tty) : Tty × (Waiting ⊕ Return) :=
  let s := t.keyboardStream
  if s.count ≠ 0 then
    let countmin := if count > s.count then s.count else count
    let copied := (Logged.start caller).puts 0 (slice s.buffer 0 countmin)
    let moved := (Logged.start s.buffer).move countmin 0 (s.count - countmin)
    ({ t with keyboardStream := { s with buffer := moved.mem, count := s.count - countmin } },
      .inr ⟨false, count, .none, copied, slice copied.mem 0 countmin⟩)
  else (t, .inr ⟨false, count, .none, Logged.start caller, []⟩)

/-- `tty_read` by a process of `group`, up to its first wait for a byte. -/
def ttyRead (group count : ℕ) (caller : Mem) (t : Tty) : Tty × (Waiting ⊕ Return) :=
  if group ≠ t.foregroundProcesses then (t, .inr ⟨false, count, .io, Logged.start caller, []⟩)
  else if t.lflag &&& ICANON ≠ 0 then
    if count ≠ 0 then (t, .inl (.canonical count count caller)) else t.canonEnd count count caller
  else if t.vmin = 0 ∧ t.vtime = 0 then t.readPresent count caller
  else if t.vmin > 0 ∧ t.vtime = 0 then
    let countmin := if t.vmin > count then count else t.vmin
    if countmin ≠ 0 then (t, .inl (.raw count countmin 0 (Logged.start caller)))
    else (t, .inr ⟨false, count, .none, Logged.start caller, []⟩)
  else (t, .inr ⟨false, count, .unknownError, Logged.start caller, []⟩)

/-- One round of the loop that the call is in. -/
def ttyResume (block : Mem) (t : Tty) : Waiting → Option (Tty × (Waiting ⊕ Return))
  | .canonical size count caller =>
    (iostreamGetch t.keyboardStream).map fun (ch, stream, _) =>
      let t := Tty.canonStore ch block { t with keyboardStream := stream }
      if ch = 10 ∨ count - 1 = 0 then t.canonEnd size (count - 1) caller
      else (t, .inl (.canonical size (count - 1) caller))
  | .raw size countmin off caller =>
    (iostreamGetch t.keyboardStream).map fun (ch, stream, _) =>
      let t := { t with keyboardStream := stream }
      let caller := caller.put off ch
      if countmin - 1 = 0 then
        (t, .inr ⟨false, size, .none, caller, slice caller.mem 0 (off + 1)⟩)
      else (t, .inl (.raw size (countmin - 1) (off + 1) caller))

/-! ## Sessions -/

/-- A terminal, the call that waits, all bytes from the keyboard, and the calls that returned. -/
structure Session where
  tty : Tty
  waiting : Option Waiting
  input : List UInt8
  returns : List Return

/-- What happens on a terminal. Where a block is allocated, its old contents come with it. -/
inductive Act
  | key (c : UInt8) (block : Mem)
  | read (count : ℕ) (hcount : 1 ≤ count ∧ count < 2 ^ 32) (caller : Mem)
  | resume (block : Mem)
  | setMode (lflag vmin : ℕ)

def Session.settle (s : Session) : Tty × (Waiting ⊕ Return) → Session
  | (t, .inl w) => { s with tty := t, waiting := some w }
  | (t, .inr r) => { s with tty := t, waiting := none, returns := s.returns ++ [r] }

/-- One call at a time, by a process of the foreground group. -/
def Session.step (s : Session) : Act → Option Session
  | .key c block =>
    (iostreamWrite [c] block (fun _ => 0) s.tty.keyboardStream).map fun r =>
      { s with tty := { s.tty with keyboardStream := r.stream }, input := s.input ++ [c] }
  | .read count _ caller =>
    match s.waiting with
    | none => some (s.settle (ttyRead s.tty.foregroundProcesses count caller s.tty))
    | some _ => none
  | .resume block =>
    match s.waiting with
    | none => none
    | some w => (ttyResume block s.tty w).map s.settle
  | .setMode lflag vmin =>
    match s.waiting with
    | none => some { s with tty := { s.tty with lflag := lflag, vmin := vmin, vtime := 0 } }
    | some _ => none

/-- A terminal after `tty_init`, with what the two blocks hold from before. -/
def Session.start (canon keyboard : Mem) (group : ℕ) : Session where
  tty :=
    { canonBuffer := canon
      canonBufferCount := 0
      canonBufferSize := 256
      keyboardStream := { iostreamAlloc keyboard with
        attributes := (iostreamAlloc keyboard).attributes ||| attrOneByte }
      lflag := 571
      vmin := 1
      vtime := 0
      foregroundProcesses := group }
  waiting := none
  input := []
  returns := []

/-! ## What the caller gets -/

/-- A line of at most `n` bytes, with the newline that ends it unless it has `n` bytes. -/
def IsLine (line : List UInt8) (n : ℕ) : Prop :=
  line.length ≤ n ∧ 10 ∉ line.dropLast ∧ (line.length = n ∨ line.getLast? = some 10)

/-- A call that has returned stored inside the buffer only, and a canonical one a line and zeroes. -/
structure Return.Right (r : Return) : Prop where
  inside : ∀ y ∈ r.caller.log, y < r.size
  line : r.canonical → IsLine r.delivered r.size ∧ ∀ i < r.size, r.caller.mem i = r.delivered.getD i 0

/-- What a call that waits has stored. -/
def Waiting.Inside : Waiting → Prop
  | .canonical _ _ _ => True
  | .raw size _ _ caller => ∀ y ∈ caller.log, y < size

def Session.delivered (s : Session) : List UInt8 := (s.returns.map Return.delivered).flatten

/-- The bytes from the keyboard reach the callers once and in order. -/
structure Session.Delivers (s : Session) : Prop where
  right : ∀ r ∈ s.returns, r.Right
  inside : ∀ w ∈ s.waiting, w.Inside
  delivered : s.delivered <+: s.input

/-- The steps without harm. A raw read of what is there takes all of it (or what it leaves begins
the stream). A canonical line ends with as many bytes of the buffer behind it as it has itself, and
that many at the end of the buffer are zero. A full block can be doubled. -/
def Session.Harmless (s : Session) : Act → Prop
  | .key c block => s.tty.keyboardStream.Fits (.write [c] block)
  | .read count _ _ => s.tty.lflag &&& ICANON ≠ 0 ∨ s.tty.vmin ≠ 0 ∨
      s.tty.keyboardStream.contents.drop count <+: s.tty.keyboardStream.contents
  | .resume _ => ∀ size count caller, s.waiting = some (.canonical size count caller) →
      (s.tty.canonBufferCount < s.tty.canonBufferSize ∨ 2 * s.tty.canonBufferSize < 2 ^ 32) ∧
      (s.tty.keyboardStream.buffer 0 = 10 ∨ count = 1 →
        s.tty.canonBufferCount + 1 ≤ count - 1 ∧
          ∀ i, count - 1 ≤ i → i < size → caller i = 0)
  | .setMode _ _ => True

/-- The bytes that a call has taken while it waits. -/
def Waiting.taken (t : Tty) : Waiting → List UInt8
  | .canonical _ _ _ => slice t.canonBuffer 0 t.canonBufferCount
  | .raw _ _ off caller => slice caller.mem 0 off

def Session.taken (s : Session) : List UInt8 := s.waiting.elim [] fun w => w.taken s.tty

/-- What is true of the call that waits. -/
def Waiting.Sound (t : Tty) : Waiting → Prop
  | .canonical size count _ => 1 ≤ count ∧ t.canonBufferCount + count = size ∧ size < 2 ^ 32 ∧
      10 ∉ slice t.canonBuffer 0 t.canonBufferCount
  | .raw size countmin off caller => 1 ≤ countmin ∧ off + countmin ≤ size ∧
      (∀ y ∈ caller.log, y < off) ∧ t.canonBufferCount = 0

structure Tty.Sound (t : Tty) : Prop where
  stream : t.keyboardStream.Sound
  vtime : t.vtime = 0
  canonPos : 1 ≤ t.canonBufferSize
  canonLe : t.canonBufferCount ≤ t.canonBufferSize

structure Session.Inv (s : Session) : Prop where
  tty : s.tty.Sound
  waiting : ∀ w ∈ s.waiting, w.Sound s.tty
  idle : s.waiting = none → s.tty.canonBufferCount = 0
  right : ∀ r ∈ s.returns, r.Right
  kept : s.input = s.delivered ++ s.taken ++ s.tty.keyboardStream.contents

section Steps
variable {t : Tty} {s s' : Session} {ch : UInt8} {block caller : Mem} {size count : ℕ}

theorem canonStore_count : (t.canonStore ch block).canonBufferCount = t.canonBufferCount + 1 := by
  unfold Tty.canonStore
  split_ifs <;> rfl

theorem canonStore_keyboardStream : (t.canonStore ch block).keyboardStream = t.keyboardStream := by
  unfold Tty.canonStore
  split_ifs <;> rfl

/-- A byte behind the bytes that a memory has. -/
theorem slice_update {m m' : Mem} {n : ℕ} (h : ∀ x < n, m x = m' x) :
    slice (Function.update m n ch) 0 (n + 1) = slice m' 0 n ++ [ch] := by
  rw [slice_add, Nat.zero_add]
  apply congrArg₂
  · exact slice_congr fun x _ hx => by rw [Function.update_of_ne (by omega), h x (by omega)]
  · rw [slice_succ, Function.update_self]
    rfl

/-- A byte goes behind the line so far. -/
theorem canonStore_spec (h : t.Sound)
    (hroom : t.canonBufferCount < t.canonBufferSize ∨ 2 * t.canonBufferSize < 2 ^ 32) :
    (t.canonStore ch block).Sound ∧ slice (t.canonStore ch block).canonBuffer 0 (t.canonBufferCount + 1) =
      slice t.canonBuffer 0 t.canonBufferCount ++ [ch] := by
  have hle := h.canonLe
  have hpos := h.canonPos
  by_cases hfull : t.canonBufferCount ≥ t.canonBufferSize
  · have hsize : u32 (t.canonBufferSize * 2) = t.canonBufferSize * 2 := u32_of_lt (by omega)
    unfold Tty.canonStore
    rw [if_pos hfull, hsize]
    refine ⟨⟨h.stream, h.vtime, by dsimp only; omega, by dsimp only; omega⟩, ?_⟩
    exact slice_update fun x hx => if_pos ⟨lt_of_lt_of_le hx hle, by dsimp only at hx; omega⟩
  · unfold Tty.canonStore
    rw [if_neg hfull]
    refine ⟨⟨h.stream, h.vtime, hpos, by dsimp only; omega⟩, ?_⟩
    exact slice_update fun x _ => rfl

/-- Enough bytes behind the line, and zeroes behind those. -/
theorem canonEnd_right (hline : IsLine (slice t.canonBuffer 0 t.canonBufferCount) size)
    (hsize : t.canonBufferCount + count = size) (h32 : size < 2 ^ 32) (hroom : t.canonBufferCount ≤ count)
    (hzero : ∀ i, count ≤ i → i < size → caller i = 0) :
    ∃ r, t.canonEnd size count caller =
        ({ t with canonBufferCount := 0, canonBuffer := Function.update t.canonBuffer 0 0 }, .inr r) ∧
      r.Right ∧ r.delivered = slice t.canonBuffer 0 t.canonBufferCount := by
  have hfill : sub32 count t.canonBufferCount = count - t.canonBufferCount := sub32_of_le (by omega) hroom
  unfold Tty.canonEnd
  rw [hfill]
  refine ⟨_, rfl, ⟨fun y hy => ?_, fun _ => ⟨hline, fun i hi => ?_⟩⟩, rfl⟩
  · dsimp only at hy ⊢
    rw [Logged.mem_log_puts, Logged.mem_log_puts, length_slice,
      List.length_replicate] at hy
    rcases hy with hy | hy | hy
    · omega
    · omega
    · exact absurd hy List.not_mem_nil
  · dsimp only at hi ⊢
    rcases lt_or_ge i t.canonBufferCount with hin | hout
    · have hfirst := @Logged.puts_mem_of_in (Logged.start caller) 0 (slice t.canonBuffer 0 t.canonBufferCount) i
        (by rwa [length_slice])
      rw [Logged.puts_mem_of_out (.inl hin)]
      rwa [Nat.zero_add] at hfirst
    · rw [List.getD_eq_default _ _ (by rwa [length_slice])]
      rcases lt_or_ge i count with hfill | hrest
      · have hplace : i = t.canonBufferCount + (i - t.canonBufferCount) := by omega
        rw [hplace, Logged.puts_mem_of_in (by rw [List.length_replicate]; omega)]
        exact List.getD_replicate _ (by omega)
      · rw [Logged.puts_mem_of_out (.inr (by rw [List.length_replicate]; omega)),
          Logged.puts_mem_of_out (.inr (by rw [length_slice]; omega))]
        exact hzero i hrest hi

/-- The bytes of the keyboard, wherever they are. -/
theorem delivered_settle {r : Return} : (s.settle (t, .inr r)).delivered = s.delivered ++ r.delivered := by
  unfold Session.settle Session.delivered
  dsimp only
  rw [List.map_append, List.flatten_append, List.map_singleton, List.flatten_singleton]

theorem Session.Inv.wait {w : Waiting} (h : s.Inv) (ht : t.Sound) (hw : w.Sound t)
    (hkept : s.taken ++ s.tty.keyboardStream.contents = w.taken t ++ t.keyboardStream.contents) :
    (s.settle (t, .inl w)).Inv := by
  refine ⟨ht, fun w' hw' => ?_, nofun, h.right, ?_⟩
  · rw [← Option.some.inj hw']
    exact hw
  · have hinput := h.kept
    rw [List.append_assoc, hkept, ← List.append_assoc] at hinput
    exact hinput

theorem Session.Inv.return {r : Return} (h : s.Inv) (ht : t.Sound) (hidle : t.canonBufferCount = 0)
    (hr : r.Right)
    (hkept : s.taken ++ s.tty.keyboardStream.contents = r.delivered ++ t.keyboardStream.contents) :
    (s.settle (t, .inr r)).Inv := by
  refine ⟨ht, nofun, fun _ => hidle, fun r' hr' => ?_, ?_⟩
  · have hmem : r' ∈ s.returns ++ [r] := hr'
    rw [List.mem_append, List.mem_singleton] at hmem
    rcases hmem with hmem | hmem
    · exact h.right r' hmem
    · exact hmem ▸ hr
  · have hinput := h.kept
    rw [List.append_assoc, hkept, ← List.append_assoc, ← delivered_settle] at hinput
    exact hinput.trans (congrArg (· ++ t.keyboardStream.contents) (List.append_nil _).symm)

/-- A round of the canonical loop. -/
theorem canonical_inv (h : s.Inv) (hwait : s.waiting = some (.canonical size count caller))
    (hharmless : s.Harmless (.resume block)) {o : Tty × (Waiting ⊕ Return)}
    (ho : ttyResume block s.tty (.canonical size count caller) = some o) : (s.settle o).Inv := by
  obtain ⟨⟨ch, stream, stored⟩, hget, heq⟩ := Option.map_eq_some_iff.mp ho
  obtain ⟨hstream, hcontents⟩ := getch_contents h.tty.stream hget
  have hch := (getch_eq_some h.tty.stream hget).2.1
  obtain ⟨hroom, hend⟩ := hharmless size count caller hwait
  obtain ⟨hpos, hsize, h32, hnone⟩ := h.waiting _ hwait
  have htaken : s.taken = slice s.tty.canonBuffer 0 s.tty.canonBufferCount := by
    unfold Session.taken
    rw [hwait]
    rfl
  have ht : ({ s.tty with keyboardStream := stream } : Tty).Sound :=
    ⟨hstream, h.tty.vtime, h.tty.canonPos, h.tty.canonLe⟩
  obtain ⟨hsound, hline⟩ := @canonStore_spec _ ch block ht hroom
  have hcount := @canonStore_count { s.tty with keyboardStream := stream } ch block
  have hkeyboard := @canonStore_keyboardStream { s.tty with keyboardStream := stream } ch block
  dsimp only at heq hline hcount hkeyboard
  generalize Tty.canonStore ch block { s.tty with keyboardStream := stream } = t at *
  rw [← hcount] at hline
  by_cases hlast : ch = 10 ∨ count - 1 = 0
  · rw [if_pos hlast] at heq
    obtain ⟨hhalf, hzero⟩ := hend (hlast.imp (fun h10 => hch ▸ h10) fun h0 => by omega)
    have h10 : ch = 10 := hlast.resolve_right (by omega)
    have hisline : IsLine (slice t.canonBuffer 0 t.canonBufferCount) size := by
      refine ⟨by rw [length_slice]; omega, ?_, .inr ?_⟩
      · rw [hline, List.dropLast_concat]
        exact hnone
      · rw [hline, List.getLast?_concat, h10]
    obtain ⟨r, hreturn, hright, hdelivered⟩ :=
      canonEnd_right hisline (by omega) h32 (by omega) hzero
    rw [← heq, hreturn]
    apply h.return
    · exact ⟨hsound.stream, hsound.vtime, hsound.canonPos, Nat.zero_le _⟩
    · rfl
    · exact hright
    · rw [htaken, hcontents, hdelivered, hline, List.append_assoc, hkeyboard]
      rfl
  · rw [if_neg hlast] at heq
    rw [← heq]
    apply h.wait hsound
    · refine ⟨by omega, by omega, h32, ?_⟩
      rw [hline, List.mem_append, List.mem_singleton]
      exact fun hmem => hmem.elim hnone fun h10 => hlast (.inl h10.symm)
    · unfold Waiting.taken
      rw [htaken, hcontents, hline, List.append_assoc, hkeyboard]
      rfl

/-- A round of the raw loop. -/
theorem raw_inv {countmin off : ℕ} {caller : Logged} (h : s.Inv)
    (hwait : s.waiting = some (.raw size countmin off caller)) {o : Tty × (Waiting ⊕ Return)}
    (ho : ttyResume block s.tty (.raw size countmin off caller) = some o) : (s.settle o).Inv := by
  obtain ⟨⟨ch, stream, stored⟩, hget, heq⟩ := Option.map_eq_some_iff.mp ho
  obtain ⟨hstream, hcontents⟩ := getch_contents h.tty.stream hget
  obtain ⟨hpos, hsize, hlog, hidle⟩ := h.waiting _ hwait
  have htaken : s.taken = slice caller.mem 0 off := by
    unfold Session.taken
    rw [hwait]
    rfl
  have ht : ({ s.tty with keyboardStream := stream } : Tty).Sound :=
    ⟨hstream, h.tty.vtime, h.tty.canonPos, h.tty.canonLe⟩
  have hslice : slice (caller.put off ch).mem 0 (off + 1) = slice caller.mem 0 off ++ [ch] :=
    slice_update fun x _ => rfl
  have hlog' : ∀ y ∈ (caller.put off ch).log, y < off + 1 := by
    intro y hy
    rw [Logged.mem_log_put] at hy
    rcases hy with hy | hy
    · omega
    · exact (hlog y hy).trans (Nat.lt_succ_self off)
  have hkept : s.taken ++ s.tty.keyboardStream.contents =
      slice (caller.put off ch).mem 0 (off + 1) ++ stream.contents := by
    rw [htaken, hcontents, hslice, List.append_assoc]
    rfl
  dsimp only at heq
  by_cases hlast : countmin - 1 = 0
  · rw [if_pos hlast] at heq
    rw [← heq]
    have hin : off + 1 ≤ size := by omega
    exact h.return ht hidle ⟨fun y hy => lt_of_lt_of_le (hlog' y hy) hin, nofun⟩ hkept
  · rw [if_neg hlast] at heq
    rw [← heq]
    exact h.wait ht ⟨by omega, by omega, hlog', hidle⟩ hkept

/-- What is left begins with the same bytes, so that the move upwards does no harm. -/
theorem slice_of_drop_isPrefix {m : Mem} {n k : ℕ} (h : (slice m 0 (n + k)).drop n <+: slice m 0 (n + k)) :
    slice m n k = slice m 0 k := by
  have hfirst : (slice m 0 (n + k)).drop n = slice m n k := by
    rw [slice_add, Nat.zero_add]
    exact List.drop_left' (length_slice _ _ _)
  have htake : (slice m 0 (n + k)).take k = slice m 0 k := by
    rw [Nat.add_comm n k, slice_add]
    exact List.take_left' (length_slice _ _ _)
  rw [hfirst, List.prefix_iff_eq_take, length_slice, htake] at h
  exact h

/-- A read of what is there. -/
theorem readPresent_inv (h : s.Inv) (hwait : s.waiting = none)
    (hrest : s.tty.keyboardStream.contents.drop count <+: s.tty.keyboardStream.contents) :
    (s.settle (s.tty.readPresent count caller)).Inv := by
  have htaken : s.taken = [] := by
    unfold Session.taken
    rw [hwait]
    rfl
  have hstream := h.tty.stream
  unfold Tty.readPresent
  dsimp only
  by_cases hcount : s.tty.keyboardStream.count ≠ 0
  · rw [if_pos hcount]
    generalize hmin : (if count > s.tty.keyboardStream.count then s.tty.keyboardStream.count else count) = countmin
    have hle : countmin ≤ s.tty.keyboardStream.count ∧ countmin ≤ count := by
      split_ifs at hmin <;> omega
    have hsame : slice s.tty.keyboardStream.buffer countmin (s.tty.keyboardStream.count - countmin) =
        slice s.tty.keyboardStream.buffer 0 (s.tty.keyboardStream.count - countmin) := by
      by_cases hpart : count < s.tty.keyboardStream.count
      · have hall : countmin + (s.tty.keyboardStream.count - countmin) = s.tty.keyboardStream.count := by omega
        have heq : countmin = count := by rw [← hmin, if_neg (by omega)]
        apply slice_of_drop_isPrefix
        rw [hall, heq]
        exact hrest
      · have hnone : s.tty.keyboardStream.count - countmin = 0 := by split_ifs at hmin <;> omega
        rw [hnone]
        rfl
    have hcopied := Logged.slice_puts (Logged.start caller) 0 (slice s.tty.keyboardStream.buffer 0 countmin)
    rw [length_slice] at hcopied
    apply h.return
    · exact ⟨⟨hstream.autoexpand, hstream.size, (Nat.sub_le _ _).trans hstream.count_le⟩,
        h.tty.vtime, h.tty.canonPos, h.tty.canonLe⟩
    · exact h.idle hwait
    · refine ⟨fun y hy => ?_, nofun⟩
      dsimp only at hy ⊢
      rw [Logged.mem_log_puts, length_slice] at hy
      rcases hy with hy | hy
      · omega
      · exact absurd hy List.not_mem_nil
    · dsimp only
      rw [htaken, List.nil_append, hcopied, contents_split hle.1]
      unfold IoStream.contents
      dsimp only
      rw [Logged.move_mem_of_slice_eq hsame]
      exact congrArg _ hsame
  · rw [if_neg hcount]
    apply h.return h.tty (h.idle hwait)
    · exact ⟨fun y hy => absurd hy List.not_mem_nil, nofun⟩
    · rw [htaken]

theorem read_inv (h : s.Inv) (hwait : s.waiting = none) (hcount : 1 ≤ count ∧ count < 2 ^ 32)
    (hharmless : s.Harmless (.read count hcount caller)) :
    (s.settle (ttyRead s.tty.foregroundProcesses count caller s.tty)).Inv := by
  have hidle := h.idle hwait
  have htaken : s.taken = [] := by
    unfold Session.taken
    rw [hwait]
    rfl
  unfold ttyRead
  rw [if_neg (not_not_intro rfl)]
  by_cases hcanon : s.tty.lflag &&& ICANON ≠ 0
  · rw [if_pos hcanon, if_pos (by omega)]
    apply h.wait h.tty
    · refine ⟨hcount.1, by omega, hcount.2, ?_⟩
      rw [hidle]
      exact List.not_mem_nil
    · unfold Waiting.taken
      rw [htaken, hidle]
      rfl
  · rw [if_neg hcanon]
    by_cases hvmin : s.tty.vmin = 0
    · rw [if_pos ⟨hvmin, h.tty.vtime⟩]
      apply readPresent_inv h hwait
      exact (hharmless.resolve_left hcanon).resolve_left (not_not_intro hvmin)
    · have hmin : (if s.tty.vmin > count then count else s.tty.vmin) ≠ 0 ∧
          (if s.tty.vmin > count then count else s.tty.vmin) ≤ count := by
        split_ifs <;> omega
      rw [if_neg fun hboth => hvmin hboth.1, if_pos ⟨Nat.pos_of_ne_zero hvmin, h.tty.vtime⟩]
      dsimp only
      rw [if_pos hmin.1]
      apply h.wait h.tty
      · refine ⟨Nat.pos_of_ne_zero hmin.1, by omega, fun y hy => absurd hy List.not_mem_nil, hidle⟩
      · rw [htaken]
        rfl

/-- A byte from the keyboard. -/
theorem key_inv {r : Reply} (h : s.Inv) (hfit : s.Harmless (.key ch block))
    (hr : iostreamWrite [ch] block (fun _ => 0) s.tty.keyboardStream = some r) :
    Session.Inv { s with tty := { s.tty with keyboardStream := r.stream }, input := s.input ++ [ch] } := by
  have hkeeps := write_keeps h.tty.stream hfit hr
  have hkept : s.tty.keyboardStream.contents ++ [ch] = r.stream.contents := by
    have := hkeeps.kept
    rw [write_delivered hr] at this
    exact this
  refine ⟨⟨hkeeps.sound, h.tty.vtime, h.tty.canonPos, h.tty.canonLe⟩, h.waiting, h.idle, h.right, ?_⟩
  have hinput := congrArg (· ++ [ch]) h.kept
  dsimp only at hinput ⊢
  rw [List.append_assoc, hkept] at hinput
  exact hinput

theorem step_inv {a : Act} (h : s.Inv) (hharmless : s.Harmless a) (hstep : s.step a = some s') : s'.Inv := by
  unfold Session.step at hstep
  cases a with
  | key c block =>
    obtain ⟨r, hr, rfl⟩ := Option.map_eq_some_iff.mp hstep
    exact key_inv h hharmless hr
  | read count hcount caller =>
    cases hwait : s.waiting with
    | none =>
      simp only [hwait, Option.some.injEq] at hstep
      exact hstep ▸ read_inv h hwait hcount hharmless
    | some w => simp only [hwait, reduceCtorEq] at hstep
  | resume block =>
    cases hwait : s.waiting with
    | none => simp only [hwait, reduceCtorEq] at hstep
    | some w =>
      simp only [hwait] at hstep
      obtain ⟨o, ho, rfl⟩ := Option.map_eq_some_iff.mp hstep
      cases w with
      | canonical size count caller => exact canonical_inv h hwait hharmless ho
      | raw size countmin off caller => exact raw_inv h hwait ho
  | setMode lflag vmin =>
    cases hwait : s.waiting with
    | none =>
      simp only [hwait, Option.some.injEq] at hstep
      have hkept := h.kept
      unfold Session.taken at hkept
      rw [hwait] at hkept
      rw [← hstep]
      exact ⟨⟨h.tty.stream, rfl, h.tty.canonPos, h.tty.canonLe⟩, nofun, fun _ => h.idle hwait, h.right, hkept⟩
    | some w => simp only [hwait, reduceCtorEq] at hstep

end Steps

theorem Session.Inv.delivers {s : Session} (h : s.Inv) : s.Delivers := by
  refine ⟨h.right, fun w hw => ?_, ?_⟩
  · have hsound := h.waiting w hw
    cases w with
    | canonical size count caller => trivial
    | raw size countmin off caller => exact fun y hy => by have := hsound.2.2.1 y hy; have := hsound.2.1; omega
  · rw [h.kept, List.append_assoc]
    exact List.prefix_append _ _

theorem Session.inv_start (canon keyboard : Mem) (group : ℕ) : (Session.start canon keyboard group).Inv := by
  have hbit : (attrBlockingRead ||| attrAutoexpand ||| attrOneByte) &&& attrAutoexpand ≠ 0 := by decide
  exact ⟨⟨⟨hbit, by norm_num [Session.start, iostreamAlloc], Nat.zero_le _⟩, rfl,
    by norm_num [Session.start], Nat.zero_le _⟩, nofun, fun _ => rfl, nofun, rfl⟩

/-- In a session without harmful steps the keyboard reaches the callers once and in order. -/
theorem delivers_of_harmless {canon keyboard : Mem} {group : ℕ} {s : Session}
    (h : Trace.Reach Session.step Session.Harmless (Session.start canon keyboard group) s) : s.Delivers := by
  have hinv : s.Inv := h.invariant (fun t a u ht ha hu => step_inv ht ha hu)
    (Session.inv_start canon keyboard group)
  exact hinv.delivers

/-- The newline key, and a read of two bytes into a buffer of zeroes. -/
theorem delivers_of_harmless_newline :
    ∃ s, Trace.run Session.step (Session.start (fun _ => 0) (fun _ => 0) 1)
        [.key 10 fun _ => 0, .read 2 (by norm_num) fun _ => 0, .resume fun _ => 0] = some s ∧ s.Delivers := by
  have hall : Trace.AllSteps Session.step Session.Harmless (Session.start (fun _ => 0) (fun _ => 0) 1)
      [.key 10 fun _ => 0, .read 2 (by norm_num) fun _ => 0, .resume fun _ => 0] := by
    refine .cons rfl ?_ (.cons rfl ?_ (.cons rfl ?_ trivial))
    · exact .inl (by decide)
    · exact .inl (by decide)
    · intro size count caller hwait
      injection hwait with hwait
      injection hwait with hsize hcount hcaller
      subst hsize hcount hcaller
      exact ⟨.inl (by decide), fun _ => ⟨by decide, fun i _ _ => rfl⟩⟩
  exact ⟨_, rfl, delivers_of_harmless (hall.reach .start rfl)⟩

/-- The same key, and a read of three bytes: the last byte of the buffer keeps its old value. -/
theorem not_delivers_newline :
    ∃ acts s, Trace.run Session.step (Session.start (fun _ => 0) (fun _ => 0) 1) acts = some s ∧
      ¬s.Delivers := by
  refine ⟨[.key 10 fun _ => 0, .read 3 (by norm_num) fun _ => 7, .resume fun _ => 0], _, rfl, fun h => ?_⟩
  have hline := (h.right _ (List.mem_singleton_self _)).line rfl
  exact absurd (hline.2 2 (by decide)) (by decide)

end VkKernel.Io
