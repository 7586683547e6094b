import VkKernel.ControlSequences
import VkKernel.Keyboard

/-!
# The line discipline

What a terminal is for: it shows what is typed, and gives its reader one line after the other. A
character goes from the keyboard to the characters that wait, and from there to the line of the
reader; only there the erase character takes it back.
-/

namespace VkKernel.Io
open ByteMemory StoreLog

/-- There is a first terminal. -/
local instance terminals_neZero : NeZero 3 := ⟨by decide⟩

/-! ## The abstract terminals -/

/-- A terminal as its user sees it. -/
structure Line where
  text : List UInt8
  /-- The line of the reader so far. -/
  taken : List UInt8
  /-- Typed, and not yet with the reader. -/
  pending : List UInt8
  /-- How many characters the reader still takes. -/
  left : Option ℕ
  lines : List (List UInt8)
  group : ℕ

/-- The signal of a control character, and what is shown of it. -/
def controlOf (c : UInt8) : Option (ℕ × List UInt8) :=
  if c = 3 then some (SIGINT, [94, 67, 10])
  else if c = 21 then some (SIGKILL, [94, 85, 10])
  else if c = 17 then some (SIGCONT, [94, 81, 10])
  else if c = 19 then some (SIGSTOP, [94, 83, 10])
  else if c = 26 then some (SIGTSTP, [94, 90, 10])
  else none

def Line.show (str : List UInt8) (l : Line) : Line := { l with text := l.text ++ str }

/-- The erase character. -/
def Line.erase (l : Line) : Line :=
  if l.taken = [] then l else { l with taken := l.taken.dropLast, text := l.text.dropLast }

/-- A character that is not a newline under another name. -/
def Line.typePlain (c : UInt8) (l : Line) : Line × List (ℕ × ℕ) :=
  if c = 8 then (l.erase, [])
  else
    match if l.group ≠ 0 then controlOf c else none with
    | some (sig, mark) => (l.show mark, [(l.group, sig)])
    | none => if c = 4 then (l, []) else ({ l.show [c] with pending := l.pending ++ [c] }, [])

def Line.type (c : UInt8) (l : Line) : Line × List (ℕ × ℕ) := l.typePlain (if c = 13 then 10 else c)

def Line.read (group n : ℕ) (l : Line) : Line :=
  if group ≠ l.group then l
  else if n ≠ 0 then { l with left := some n }
  else { l with lines := l.lines ++ [[]] }

/-- The reader takes the oldest character. -/
def Line.resume (l : Line) : Line :=
  match l.left, l.pending with
  | some n, c :: rest =>
    if c = 10 ∨ n - 1 = 0 then
      { l with taken := [], pending := rest, left := none, lines := l.lines ++ [l.taken ++ [c]] }
    else { l with taken := l.taken ++ [c], pending := rest, left := some (n - 1) }
  | _, _ => l

structure Lines where
  keyboard : Keyboard
  line : Fin 3 → Line
  current : Fin 3
  signals : List (ℕ × ℕ)

def Lines.set (k : Fin 3) (l : Line) (s : Lines) : Lines := { s with line := Function.update s.line k l }

def Lines.type (past keycode : UInt8) (s : Lines) : Lines :=
  let s := { s with keyboard := s.keyboard.note keycode }
  match s.keyboard.switch keycode with
  | some k => { s with current := k }
  | none =>
    let ch := s.keyboard.getchar past keycode
    if ch ≠ 0 then
      let r := (s.line s.current).type ch
      { s.set s.current r.1 with signals := s.signals ++ r.2 }
    else s

def Lines.step (past : UInt8) (s : Lines) : DeskAct → Lines
  | .scan _ keycode => s.type past keycode
  | .write k _ m a n => s.set k ((s.line k).show (slice m a n))
  | .read k group count _ _ => s.set k ((s.line k).read group count)
  | .resume k _ => s.set k (s.line k).resume
  | .setpgrp k group => s.set k { s.line k with group := group }

/-! ## The abstraction -/

/-- What is left to a call that waits. -/
def Waiting.left : Waiting → ℕ
  | .canonical _ count _ => count
  | .raw _ countmin _ _ => countmin

def Terminal.line (t : Terminal) : Line where
  text := slice t.buffer 0 t.count
  taken := slice t.tty.canonBuffer 0 t.tty.canonBufferCount
  pending := t.tty.keyboardStream.contents
  left := t.waiting.map Waiting.left
  lines := (t.returns.filter Return.canonical).map Return.delivered
  group := t.tty.foregroundProcesses

def Desk.lines (d : Desk) : Lines := ⟨d.keyboard, fun k => (d.ttys k).line, d.current, d.signals⟩

/-- A call that has returned stored inside the buffer of its caller, and what it took from the keyboard is there. -/
structure Return.Stored (r : Return) : Prop where
  inside : ∀ y ∈ r.caller.log, y < r.size
  line : slice r.caller.mem 0 r.delivered.length = r.delivered

/-- What the steps keep of a terminal. The text has at least what is typed and not read. -/
structure Terminal.Sound (t : Terminal) : Prop where
  tty : t.tty.Sound
  lflag : t.tty.lflag = 571
  iflag : t.iflag = 3
  cc : t.cc = initialCc
  stream_pos : 1 ≤ t.tty.keyboardStream.bufferSize
  count_le : t.count ≤ t.bufferSize
  buffer_pos : 3 ≤ t.bufferSize
  waiting : ∀ w ∈ t.waiting, ∃ size count caller, w = .canonical size count caller ∧ 1 ≤ count ∧
    t.tty.canonBufferCount + count ≤ size ∧ size < 2 ^ 32
  idle : t.waiting = none → t.tty.canonBufferCount = 0
  shown : t.tty.canonBufferCount + t.tty.keyboardStream.count ≤ t.count
  taken : ∀ c ∈ t.line.taken, c ≠ 0 ∧ c ≠ 4 ∧ c ≠ 10
  pending : ∀ c ∈ t.line.pending, c ≠ 0 ∧ c ≠ 4
  stored : ∀ r ∈ t.returns, r.Stored

/-- The blocks can be doubled. -/
structure Terminal.Small (t : Terminal) : Prop where
  buffer : t.bufferSize < 2 ^ 31
  canon : t.tty.canonBufferSize < 2 ^ 31
  stream : t.tty.keyboardStream.bufferSize < 2 ^ 31

structure Screen.Ready (s : Screen) : Prop where
  onScreen : s.OnScreen
  textMode : s.textMode = true
  videoType : s.videoType ≠ .none

structure Desk.Sound (d : Desk) : Prop where
  ttys : ∀ k, (d.ttys k).Sound
  screen : d.screen.Ready

/-- The steps that the code has room for: the blocks can be doubled, a process writes text that fits, and the
zeroes behind a line fit into what is left of the buffer of the reader. -/
def Desk.Calm (d : Desk) (a : DeskAct) : Prop :=
  (∀ k, (d.ttys k).Small) ∧
    match a with
    | .write k _ m a n => (d.ttys k).count + n ≤ 2 * (d.ttys k).bufferSize ∧ ¬(m a = 27 ∧ m (a + 1) = 91)
    | .resume k _ =>
      match (d.ttys k).waiting with
      | some (.canonical _ count _) =>
        (d.ttys k).tty.keyboardStream.buffer 0 = 10 ∨ count - 1 = 0 → (d.ttys k).tty.canonBufferCount + 1 ≤ count - 1
      | _ => True
    | _ => True

instance (t : Terminal) : Decidable t.Small :=
  decidable_of_iff (t.bufferSize < 2 ^ 31 ∧ t.tty.canonBufferSize < 2 ^ 31 ∧
    t.tty.keyboardStream.bufferSize < 2 ^ 31) ⟨fun h => ⟨h.1, h.2.1, h.2.2⟩, fun h => ⟨h.buffer, h.canon, h.stream⟩⟩

instance (d : Desk) (a : DeskAct) : Decidable (d.Calm a) :=
  match a with
  | .scan _ _ | .write _ _ _ _ _ | .read _ _ _ _ _ | .setpgrp _ _ => inferInstanceAs (Decidable (_ ∧ _))
  | .resume k _ =>
    match hwait : (d.ttys k).waiting with
    | some (.canonical _ count _) =>
      decidable_of_iff ((∀ k, (d.ttys k).Small) ∧ ((d.ttys k).tty.keyboardStream.buffer 0 = 10 ∨ count - 1 = 0 →
        (d.ttys k).tty.canonBufferCount + 1 ≤ count - 1)) (by simp only [Desk.Calm, hwait])
    | some (.raw _ _ _ _) => decidable_of_iff (∀ k, (d.ttys k).Small) (by simp only [Desk.Calm, hwait, and_true])
    | none => decidable_of_iff (∀ k, (d.ttys k).Small) (by simp only [Desk.Calm, hwait, and_true])

section Steps
variable {t : Terminal} {f : Frame} {c : UInt8}

theorem Terminal.Sound.setOut (h : t.Sound) {o : TtyOut} (hle : o.count ≤ o.bufferSize)
    (hpos : 3 ≤ o.bufferSize) (hmore : t.count ≤ o.count) : (t.setOut o).Sound :=
  ⟨h.tty, h.lflag, h.iflag, h.cc, h.stream_pos, hle, hpos, h.waiting, h.idle, h.shown.trans hmore, h.taken, h.pending,
    h.stored⟩

/-- The buffer is as large as before, or twice as large. -/
theorem append_bufferSize {o : TtyOut} {bytes : List UInt8} {block : Mem} (h : 2 * o.bufferSize < 2 ^ 32) :
    o.bufferSize ≤ (o.append bytes block).1.bufferSize := by
  have hsize : (o.append bytes block).1.bufferSize = (o.grow bytes.length block).bufferSize := rfl
  rw [hsize]
  unfold TtyOut.grow
  split_ifs
  · have hdouble : u32 (o.bufferSize * 2) = o.bufferSize * 2 := u32_of_lt (by omega)
    dsimp only
    rw [hdouble]
    omega
  · exact le_rfl

theorem append_ops (o : TtyOut) (bytes : List UInt8) (block : Mem) :
    (o.append bytes block).2 = if o.current then bytes.map .putc else [] := by
  unfold TtyOut.append TtyOut.grow
  dsimp only
  split_ifs <;> rfl

/-- A write of text is shown and changes nothing else. -/
theorem Terminal.write_spec (h : t.Sound) (hsmall : t.Small) {m : Mem} {a n : ℕ} (current : Bool)
    (hfit : t.count + n ≤ 2 * t.bufferSize) (hesc : ¬(m a = 27 ∧ m (a + 1) = 91)) :
    ∃ o, t.write f current m a n =
        some ⟨t.setOut o, [], if current then (slice m a n).map .putc else []⟩ ∧
      (t.setOut o).Sound ∧ (t.setOut o).line = t.line.show (slice m a n) := by
  have hbuffer := hsmall.buffer
  have hdouble : 2 * (t.out current).bufferSize < 2 ^ 32 := by
    show 2 * t.bufferSize < 2 ^ 32
    omega
  have hlflag : (t.out current).lflag &&& TOSTOP = 0 := by
    have h571 : (t.out current).lflag = 571 := h.lflag
    rw [h571]
    decide
  have hfits : (t.out current).Fits (slice m a n).length := by
    rw [length_slice]
    exact .inr ⟨hfit, hdouble⟩
  obtain ⟨hle, hcontents⟩ := @append_spec (t.out current) f.block (slice m a n) h.count_le (by omega) hfits
  have hcount : ((t.out current).append (slice m a n) f.block).1.count = t.count + n := by
    have hn := length_slice m a n
    rw [append_count, hn]
    exact u32_of_lt (by show t.count + n < 2 ^ 32; omega)
  have hgrown := @append_bufferSize (t.out current) (slice m a n) f.block hdouble
  have hpos : 3 ≤ (t.out current).bufferSize := h.buffer_pos
  refine ⟨((t.out current).append (slice m a n) f.block).1, ?_, ?_, ?_⟩
  · unfold Terminal.write
    rw [ttyWrite_text (.inr (.inl hlflag)) hesc, Option.map_some, append_ops]
    rfl
  · exact h.setOut hle (by omega) (by omega)
  · unfold Terminal.line Line.show
    exact congrArg (fun text => Line.mk text _ _ _ _ _) hcontents

/-- The last bytes of a memory go away. -/
theorem slice_dropLast {m m' : Mem} {n : ℕ} (h : ∀ x < n - 1, m' x = m x) :
    slice m' 0 (n - 1) = (slice m 0 n).dropLast := by
  cases n with
  | zero => rfl
  | succ n =>
    rw [slice_add, List.dropLast_append_of_ne_nil (by rw [slice_succ]; exact List.cons_ne_nil _ _)]
    have hone : (slice m (0 + n) 1).dropLast = [] := rfl
    rw [hone, List.append_nil]
    exact slice_congr fun x _ hx => h x (by omega)

/-- The erase character. -/
theorem Terminal.erase_spec (h : t.Sound) (hsmall : t.Small) :
    t.erase.term.Sound ∧ t.erase.term.line = t.line.erase ∧ t.erase.signals = [] ∧
      ∃ l : List UInt8, t.erase.ops = l.map .putc := by
  have hcc : t.cc VEOF = 4 ∧ t.cc VEOL = 0 := by
    rw [h.cc]
    decide
  have hflags : t.tty.lflag &&& ICANON ≠ 0 ∧ t.tty.lflag &&& ECHOE ≠ 0 ∧ t.tty.lflag &&& ECHO ≠ 0 := by
    rw [h.lflag]
    decide
  unfold Terminal.erase Line.erase
  dsimp only
  rw [hcc.1, hcc.2, if_pos hflags.2.2]
  by_cases hnone : t.tty.canonBufferCount = 0
  · have hnil : t.line.taken = [] := by
      unfold Terminal.line
      dsimp only
      rw [hnone]
      rfl
    rw [if_neg fun hall => hall.2.2.1 hnone, if_pos hnil]
    exact ⟨h, rfl, rfl, [], rfl⟩
  · have hlength : t.line.taken.length = t.tty.canonBufferCount := length_slice _ _ _
    have hlast : t.tty.canonBuffer (t.tty.canonBufferCount - 1) ∈ t.line.taken := by
      unfold Terminal.line slice
      dsimp only
      rw [List.mem_map]
      exact ⟨t.tty.canonBufferCount - 1, List.mem_range.mpr (by omega), congrArg _ (Nat.zero_add _)⟩
    have hne : ¬t.line.taken = [] := by
      intro hnil
      rw [hnil] at hlast
      exact List.not_mem_nil hlast
    obtain ⟨h0, h4, h10⟩ := h.taken _ hlast
    rw [if_pos ⟨hflags.1, hflags.2.1, hnone, h4, h0, h10⟩, if_neg hne]
    have hshown := h.shown
    have hbuffer := hsmall.buffer
    have hle := h.count_le
    have hcount : sub32 t.count 1 = t.count - 1 := sub32_of_le (by omega) (by omega)
    dsimp only
    rw [hcount]
    have htaken : slice (Function.update t.tty.canonBuffer (t.tty.canonBufferCount - 1) 0) 0
        (t.tty.canonBufferCount - 1) = t.line.taken.dropLast :=
      slice_dropLast fun x hx => Function.update_of_ne (by omega) _ _
    have htext : slice (Function.update t.buffer (t.count - 1) 0) 0 (t.count - 1) = t.line.text.dropLast :=
      slice_dropLast fun x hx => Function.update_of_ne (by omega) _ _
    refine ⟨⟨⟨h.tty.stream, h.tty.vtime, h.tty.canonPos, ?_⟩, h.lflag, h.iflag, h.cc, h.stream_pos, ?_,
      h.buffer_pos, ?_, ?_, ?_, ?_, h.pending, h.stored⟩, ?_, rfl, [8], rfl⟩
    · have hcanon := h.tty.canonLe
      dsimp only
      omega
    · dsimp only
      omega
    · intro w hw
      obtain ⟨size, count, caller, hcall, hone, hsize, h32⟩ := h.waiting w hw
      exact ⟨size, count, caller, hcall, hone, by dsimp only; omega, h32⟩
    · intro hidle
      exact absurd (h.idle hidle) hnone
    · dsimp only
      omega
    · intro c hc
      unfold Terminal.line at hc
      dsimp only at hc
      rw [htaken] at hc
      exact h.taken c (List.dropLast_subset _ hc)
    · unfold Terminal.line at htext htaken ⊢
      dsimp only
      rw [htext, htaken]

theorem write_exists {s : IoStream} (h : s.Sound) (bytes : List UInt8) (block caller : Mem) :
    ∃ r, iostreamWrite bytes block caller s = some r := by
  unfold iostreamWrite
  split_ifs with hover hexpand
  · exact ⟨_, rfl⟩
  · exact absurd h.autoexpand hexpand
  · exact absurd h.autoexpand hexpand
  · exact ⟨_, rfl⟩

theorem IoStream.length_contents (s : IoStream) : s.contents.length = s.count := length_slice _ _ _

/-- A character goes to the text and to the characters that wait. -/
theorem Terminal.put_spec (h : t.Sound) (hsmall : t.Small) (hc : c ≠ 0 ∧ c ≠ 4 ∧ c ≠ 27) :
    ∃ r, t.put f true c = some r ∧ r.term.Sound ∧
      r.term.line = { t.line.show [c] with pending := t.line.pending ++ [c] } ∧ r.signals = [] ∧
      ∃ l : List UInt8, r.ops = l.map .putc := by
  have hpos := h.buffer_pos
  have hle := h.count_le
  have hesc : ¬(Function.update f.stack 0 c 0 = 27 ∧ Function.update f.stack 0 c (0 + 1) = 91) := by
    rw [Function.update_self]
    exact fun hboth => hc.2.2 hboth.1
  have hone : slice (Function.update f.stack 0 c) 0 1 = [c] := by
    rw [slice_succ, Function.update_self]
    rfl
  obtain ⟨o, hwrite, hsound, hline⟩ := @write_spec t f h hsmall (Function.update f.stack 0 c) 0 1 true (by omega) hesc
  rw [hone] at hwrite hline
  have hecho : t.tty.lflag &&& ECHO ≠ 0 := by
    rw [h.lflag]
    decide
  have hstream := hsmall.stream
  have hstreamPos := h.stream_pos
  have hcount := h.tty.stream.count_le
  have hfit : t.tty.keyboardStream.Fits (.write [c] f.streamBlock) := by
    refine .inr ⟨?_, by omega⟩
    rw [List.length_singleton]
    omega
  obtain ⟨reply, hreply⟩ := write_exists h.tty.stream [c] f.streamBlock fun _ => 0
  have hkeeps := write_keeps h.tty.stream hfit hreply
  have hcontents : reply.stream.contents = t.tty.keyboardStream.contents ++ [c] := by
    have hkept := hkeeps.kept
    rw [write_delivered hreply] at hkept
    exact hkept.symm
  have hlength := congrArg List.length hcontents
  rw [List.length_append, IoStream.length_contents, IoStream.length_contents, List.length_singleton] at hlength
  have hroom := hkeeps.sound.count_le
  have hcanon := h.shown
  have htext := congrArg (fun l => l.text.length) hline
  have hput : t.put f true c = some
      { term := { t.setOut o with tty := { t.tty with keyboardStream := reply.stream } }
        signals := []
        ops := [c].map .putc } := by
    unfold Terminal.put Terminal.echo
    rw [if_pos (.inl hecho), hwrite, Option.bind_some]
    dsimp only
    have hstreams : (t.setOut o).tty.keyboardStream = t.tty.keyboardStream := rfl
    rw [hstreams, hreply, Option.map_some]
    rfl
  refine ⟨_, hput, ?_, ?_, rfl, [c], rfl⟩
  · refine ⟨⟨hkeeps.sound, h.tty.vtime, h.tty.canonPos, h.tty.canonLe⟩, h.lflag, h.iflag, h.cc, ?_, hsound.count_le,
      hsound.buffer_pos, h.waiting, h.idle, ?_, h.taken, ?_, h.stored⟩
    · dsimp only
      omega
    · have hmore : o.count = t.count + 1 := by
        unfold Line.show Terminal.line at htext
        dsimp only at htext
        rw [List.length_append, length_slice, length_slice] at htext
        exact htext
      show t.tty.canonBufferCount + reply.stream.count ≤ o.count
      omega
    · intro d hd
      unfold Terminal.line at hd
      dsimp only at hd
      rw [hcontents, List.mem_append, List.mem_singleton] at hd
      rcases hd with hd | rfl
      · exact h.pending d hd
      · exact ⟨hc.1, hc.2.1⟩
  · have htext' : slice o.buffer 0 o.count = t.line.text ++ [c] := congrArg Line.text hline
    unfold Terminal.line at htext' ⊢
    unfold Line.show
    dsimp only
    rw [hcontents]
    exact congrArg (fun text => Line.mk text _ _ _ _ _) htext'

theorem initialCc_values : initialCc VEOF = 4 ∧ initialCc VERASE = 8 ∧ initialCc VINTR = 3 ∧ initialCc VKILL = 21 ∧
    initialCc VSTART = 17 ∧ initialCc VSTOP = 19 ∧ initialCc VSUSP = 26 := by
  decide

/-- The input flags only turn a carriage return into a newline. -/
theorem Terminal.translate_eq (h : t.Sound) (c : UInt8) : t.translate c = some (if c = 13 then 10 else c) := by
  have hflags : t.iflag &&& ISTRIP = 0 ∧ t.iflag &&& INLCR = 0 ∧ t.iflag &&& IGNCR = 0 ∧ t.iflag &&& ICRNL ≠ 0 := by
    rw [h.iflag]
    decide
  obtain ⟨hstrip, hinlcr, higncr, hicrnl⟩ := hflags
  unfold Terminal.translate
  simp only [hstrip, hinlcr, higncr, hicrnl, ne_eq, not_true_eq_false, not_false_eq_true, false_and, true_and,
    if_false]

theorem Terminal.signalOf_eq (h : t.Sound) (c : UInt8) :
    t.signalOf c = if t.tty.foregroundProcesses ≠ 0 then controlOf c else none := by
  have hisig : t.tty.lflag &&& ISIG ≠ 0 := by
    rw [h.lflag]
    decide
  obtain ⟨-, -, hintr, hkill, hstart, hstop, hsusp⟩ := initialCc_values
  unfold Terminal.signalOf controlOf
  rw [h.cc, hintr, hkill, hstart, hstop, hsusp]
  simp only [hisig, ne_eq, not_false_eq_true, true_and]

/-- What is shown of a signal has three characters, the first one printable. -/
theorem controlOf_mark {sig : ℕ} {mark : List UInt8} (h : controlOf c = some (sig, mark)) :
    slice (cstring mark) 0 3 = mark ∧ cstring mark 0 = 94 := by
  unfold controlOf at h
  split_ifs at h
  all_goals
    rw [Option.some.injEq, Prod.mk.injEq] at h
    rw [← h.2]
    decide

/-- `tty_input` does what is typed. -/
theorem ttyInput_spec (h : t.Sound) (hsmall : t.Small) (hc : c ≠ 0 ∧ c ≠ 27) :
    ∃ r, ttyInput f true c t = some r ∧ r.term.Sound ∧ (r.term.line, r.signals) = t.line.type c ∧
      ∃ l : List UInt8, r.ops = l.map .putc := by
  have hc' : (if c = 13 then 10 else c) ≠ 0 ∧ (if c = 13 then 10 else c) ≠ 27 := by
    split_ifs
    · decide
    · exact hc
  obtain ⟨heof, herase, -⟩ := initialCc_values
  have hpos := h.buffer_pos
  have hle := h.count_le
  unfold ttyInput Line.type Line.typePlain
  rw [Terminal.translate_eq h]
  generalize (if c = 13 then 10 else c) = c at hc'
  dsimp only
  rw [Terminal.signalOf_eq h, h.cc, heof, herase]
  by_cases h8 : c = 8
  · rw [if_pos h8, if_pos h8]
    obtain ⟨hsound, hline, hsignals, hops⟩ := t.erase_spec h hsmall
    exact ⟨_, rfl, hsound, Prod.ext hline hsignals, hops⟩
  rw [if_neg h8, if_neg h8]
  have hgroup : t.line.group = t.tty.foregroundProcesses := rfl
  rw [hgroup]
  cases hsignal : (if t.tty.foregroundProcesses ≠ 0 then controlOf c else none) with
  | some p =>
    obtain ⟨sig, mark⟩ := p
    have hcontrol : controlOf c = some (sig, mark) := by
      split_ifs at hsignal
      exact hsignal
    obtain ⟨hmark, hfirst⟩ := controlOf_mark hcontrol
    have hesc : ¬(cstring mark 0 = 27 ∧ cstring mark (0 + 1) = 91) := by
      rw [hfirst]
      exact fun hboth => absurd hboth.1 (by decide)
    obtain ⟨o, hwrite, hsound, hline⟩ := @Terminal.write_spec t f h hsmall (cstring mark) 0 3 true (by omega) hesc
    rw [hmark] at hwrite hline
    have hecho : t.tty.lflag &&& ECHO ≠ 0 := by
      rw [h.lflag]
      decide
    dsimp only
    rw [if_pos hecho, hwrite, Option.map_some]
    exact ⟨_, rfl, hsound, Prod.ext hline rfl, mark, rfl⟩
  | none =>
    dsimp only
    by_cases h4 : c = 4
    · rw [if_pos h4, if_pos h4]
      exact ⟨_, rfl, h, rfl, [], rfl⟩
    · rw [if_neg h4, if_neg h4]
      obtain ⟨r, hput, hsound, hline, hsignals, hops⟩ := @Terminal.put_spec t f c h hsmall ⟨hc'.1, h4, hc'.2⟩
      exact ⟨r, hput, hsound, Prod.ext hline hsignals, hops⟩

/-- A call of `tty_read`, up to its first wait. -/
theorem Terminal.read_spec (h : t.Sound) (hidle : t.waiting = none) (group : ℕ) {count : ℕ} (h32 : count < 2 ^ 32)
    (caller : Mem) :
    (t.settle (ttyRead group count caller t.tty)).Sound ∧
      (t.settle (ttyRead group count caller t.tty)).line = t.line.read group count := by
  have hzero := h.idle hidle
  have hicanon : t.tty.lflag &&& ICANON ≠ 0 := by
    rw [h.lflag]
    decide
  have hnone : (Logged.start caller).log = [] := rfl
  have hstart : Return.Stored ⟨false, count, .io, Logged.start caller, []⟩ :=
    ⟨fun y hy => absurd (hnone ▸ hy) List.not_mem_nil, rfl⟩
  unfold ttyRead Line.read
  have hgroup : t.line.group = t.tty.foregroundProcesses := rfl
  rw [hgroup]
  by_cases hfg : group ≠ t.tty.foregroundProcesses
  · rw [if_pos hfg, if_pos hfg]
    refine ⟨⟨h.tty, h.lflag, h.iflag, h.cc, h.stream_pos, h.count_le, h.buffer_pos, nofun, fun _ => hzero, h.shown,
      h.taken, h.pending, ?_⟩, ?_⟩
    · intro r hr
      rcases List.mem_append.mp hr with hr | hr
      · exact h.stored r hr
      · rw [List.mem_singleton.mp hr]
        exact hstart
    · unfold Terminal.settle Terminal.line
      dsimp only
      rw [List.filter_append, hidle]
      simp
  rw [if_neg hfg, if_neg hfg, if_pos hicanon]
  by_cases hcount : count ≠ 0
  · rw [if_pos hcount, if_pos hcount]
    refine ⟨⟨h.tty, h.lflag, h.iflag, h.cc, h.stream_pos, h.count_le, h.buffer_pos, ?_, nofun, h.shown, h.taken,
      h.pending, h.stored⟩, rfl⟩
    intro w hw
    rw [← Option.some.inj hw]
    exact ⟨count, count, caller, rfl, Nat.pos_of_ne_zero hcount, by
      have hsum : t.tty.canonBufferCount + count = count := by omega
      exact hsum.le, h32⟩
  · rw [if_neg hcount, if_neg hcount]
    have hcount0 : count = 0 := not_not.mp hcount
    subst hcount0
    unfold Tty.canonEnd
    rw [hzero]
    refine ⟨⟨⟨h.tty.stream, h.tty.vtime, h.tty.canonPos, Nat.zero_le _⟩, h.lflag, h.iflag, h.cc, h.stream_pos,
      h.count_le, h.buffer_pos, nofun, fun _ => rfl, ?_, fun c hc => absurd hc List.not_mem_nil, h.pending, ?_⟩, ?_⟩
    · have hshown := h.shown
      show 0 + t.tty.keyboardStream.count ≤ t.count
      omega
    · intro r hr
      rcases List.mem_append.mp hr with hr | hr
      · exact h.stored r hr
      · rw [List.mem_singleton.mp hr]
        exact ⟨fun y hy => absurd hy List.not_mem_nil, rfl⟩
    · unfold Terminal.settle Terminal.line
      dsimp only
      rw [List.filter_append, List.map_append, hidle, hzero]
      rfl

/-- Behind a line the call stores the line and the zeroes, all inside the buffer. -/
theorem canonEnd_stored {u : Tty} {size count : ℕ} (caller : Mem) (hroom : u.canonBufferCount ≤ count)
    (hsize : u.canonBufferCount + count ≤ size) (h32 : size < 2 ^ 32) :
    ∃ r, u.canonEnd size count caller =
        ({ u with canonBufferCount := 0, canonBuffer := Function.update u.canonBuffer 0 0 }, .inr r) ∧
      r.canonical = true ∧ r.delivered = slice u.canonBuffer 0 u.canonBufferCount ∧ r.Stored := by
  have hfill : sub32 count u.canonBufferCount = count - u.canonBufferCount := sub32_of_le (by omega) hroom
  unfold Tty.canonEnd
  rw [hfill]
  refine ⟨_, rfl, rfl, rfl, fun y hy => ?_, ?_⟩
  · dsimp only at hy ⊢
    rw [Logged.mem_log_puts, Logged.mem_log_puts, length_slice, List.length_replicate] at hy
    rcases hy with hy | hy | hy
    · omega
    · omega
    · exact absurd hy List.not_mem_nil
  · dsimp only
    rw [length_slice]
    have hline := Logged.slice_puts (Logged.start caller) 0 (slice u.canonBuffer 0 u.canonBufferCount)
    rw [length_slice] at hline
    refine Eq.trans (slice_congr fun x _ hx => ?_) hline
    exact Logged.puts_mem_of_out (.inl (by omega))

/-- The reader takes a character, and returns behind the end of its line. -/
theorem Terminal.resume_spec (h : t.Sound) (hsmall : t.Small) {w : Waiting} (hwait : t.waiting = some w)
    (hend : ∀ size count caller, t.waiting = some (.canonical size count caller) →
      t.tty.keyboardStream.buffer 0 = 10 ∨ count - 1 = 0 → t.tty.canonBufferCount + 1 ≤ count - 1)
    {block : Mem} {o : Tty × (Waiting ⊕ Return)} (ho : ttyResume block t.tty w = some o) :
    (t.settle o).Sound ∧ (t.settle o).line = t.line.resume := by
  obtain ⟨size, count, caller, rfl, hone, hsize, h32⟩ := h.waiting w hwait
  obtain ⟨⟨ch, stream, stored⟩, hget, heq⟩ := Option.map_eq_some_iff.mp ho
  obtain ⟨hstream, hcontents⟩ := getch_contents h.tty.stream hget
  have hch := (getch_eq_some h.tty.stream hget).2.1
  have hend := hend size count caller hwait
  rw [← hch] at hend
  have hlength := congrArg List.length hcontents
  rw [List.length_cons, IoStream.length_contents, IoStream.length_contents] at hlength
  have hbuffer : stream.bufferSize = t.tty.keyboardStream.bufferSize := by
    have hshift := congrArg Prod.fst (getch_eq_some h.tty.stream hget).2.2
    dsimp only at hshift
    rw [hshift]
    rfl
  have hcanon := hsmall.canon
  have hshown := h.shown
  have hstreamPos := h.stream_pos
  have hpending : ∀ c ∈ t.line.pending, c ≠ 0 ∧ c ≠ 4 := h.pending
  have hfirst := hpending ch (by
    show ch ∈ t.tty.keyboardStream.contents
    rw [hcontents]
    exact List.mem_cons_self ..)
  have hrest : ∀ c ∈ stream.contents, c ≠ 0 ∧ c ≠ 4 := fun c hc => hpending c (by
    show c ∈ t.tty.keyboardStream.contents
    rw [hcontents]
    exact List.mem_cons_of_mem _ hc)
  have ht : ({ t.tty with keyboardStream := stream } : Tty).Sound :=
    ⟨hstream, h.tty.vtime, h.tty.canonPos, h.tty.canonLe⟩
  obtain ⟨hsound, hline⟩ := @canonStore_spec _ ch block ht (.inr (by dsimp only; omega))
  have hcount := @canonStore_count { t.tty with keyboardStream := stream } ch block
  have hkeyboard := @canonStore_keyboardStream { t.tty with keyboardStream := stream } ch block
  have hlflag : (Tty.canonStore ch block { t.tty with keyboardStream := stream }).lflag = 571 ∧
      (Tty.canonStore ch block { t.tty with keyboardStream := stream }).foregroundProcesses =
        t.tty.foregroundProcesses := by
    have h571 := h.lflag
    unfold Tty.canonStore
    split_ifs
    · exact ⟨h571, rfl⟩
    · exact ⟨h571, rfl⟩
  have hspec : t.line.resume = if ch = 10 ∨ count - 1 = 0 then
      { t.line with
        taken := [], pending := stream.contents, left := none, lines := t.line.lines ++ [t.line.taken ++ [ch]] }
      else { t.line with taken := t.line.taken ++ [ch], pending := stream.contents, left := some (count - 1) } := by
    unfold Line.resume Terminal.line
    dsimp only
    rw [hwait, hcontents]
    rfl
  rw [hspec]
  dsimp only at heq hline hcount hkeyboard
  generalize Tty.canonStore ch block { t.tty with keyboardStream := stream } = u at *
  obtain ⟨hlflag, hgroup⟩ := hlflag
  rw [← hcount] at hline
  by_cases hlast : ch = 10 ∨ count - 1 = 0
  · rw [if_pos hlast] at heq ⊢
    obtain ⟨r, hreturn, hcanonical, hdelivered, hstored⟩ :=
      @canonEnd_stored u size (count - 1) caller (by have := hend hlast; omega) (by omega) h32
    rw [← heq, hreturn]
    constructor
    · refine ⟨⟨hsound.stream, hsound.vtime, hsound.canonPos, Nat.zero_le _⟩, hlflag, h.iflag, h.cc, ?_, h.count_le,
        h.buffer_pos, nofun, fun _ => rfl, ?_, fun c hc => absurd hc List.not_mem_nil, ?_, ?_⟩
      · show 1 ≤ u.keyboardStream.bufferSize
        rw [hkeyboard]
        omega
      · show 0 + u.keyboardStream.count ≤ t.count
        rw [hkeyboard]
        omega
      · show ∀ c ∈ u.keyboardStream.contents, _
        rw [hkeyboard]
        exact hrest
      · intro q hq
        rcases List.mem_append.mp hq with hq | hq
        · exact h.stored q hq
        · rw [List.mem_singleton.mp hq]
          exact hstored
    · unfold Terminal.settle Terminal.line
      dsimp only
      rw [List.filter_append, List.map_append, hkeyboard, hgroup, List.filter_singleton, hcanonical, hline.symm, ← hdelivered]
      rfl
  · rw [if_neg hlast] at heq ⊢
    rw [← heq]
    have h10 : ch ≠ 10 := fun h10 => hlast (.inl h10)
    constructor
    · refine ⟨hsound, hlflag, h.iflag, h.cc, ?_, h.count_le, h.buffer_pos, ?_, nofun, ?_, ?_, ?_, h.stored⟩
      · show 1 ≤ u.keyboardStream.bufferSize
        rw [hkeyboard]
        omega
      · intro w hw
        rw [← Option.some.inj hw]
        exact ⟨size, count - 1, caller, rfl, by omega, by
          show u.canonBufferCount + (count - 1) ≤ size
          omega, h32⟩
      · show u.canonBufferCount + u.keyboardStream.count ≤ t.count
        rw [hkeyboard, hcount]
        omega
      · show ∀ c ∈ slice u.canonBuffer 0 u.canonBufferCount, _
        rw [hline]
        intro c hc
        rcases List.mem_append.mp hc with hc | hc
        · exact h.taken c hc
        · rw [List.mem_singleton.mp hc]
          exact ⟨hfirst.1, hfirst.2, h10⟩
      · show ∀ c ∈ u.keyboardStream.contents, _
        rw [hkeyboard]
        exact hrest
    · unfold Terminal.settle Terminal.line
      dsimp only
      rw [hkeyboard, hgroup, hline]
      rfl

end Steps

/-! ## The screen -/

section Showing
variable {s : Screen}

theorem Screen.Ready.putc (h : s.Ready) (c color : UInt8) : (s.putc c color).Ready := by
  obtain ⟨hon, htext, hvideo⟩ := @putc_onScreen s c color (h.onScreen.loose h.textMode h.videoType)
  exact ⟨hon, htext, hvideo⟩

theorem Screen.Ready.putcs (h : s.Ready) (l : List UInt8) : ((l.map ScreenOp.putc).foldl Screen.apply s).Ready := by
  induction l generalizing s with
  | nil => exact h
  | cons c l ih => exact ih (h.putc c 7)

theorem Screen.Ready.puts (h : s.Ready) (m : Mem) (a : ℕ) (color : UInt8) : (s.puts m a color).Ready := by
  have hloop : ∀ fuel, ∀ b, ∀ u : Screen, u.Ready → (u.putsLoop m color fuel b).Ready := by
    intro fuel
    induction fuel with
    | zero => exact fun b u hu => hu
    | succ fuel ih =>
      intro b u hu
      rw [Screen.putsLoop]
      split_ifs
      · exact ih _ _ (hu.putc _ _)
      · exact hu
  unfold Screen.puts
  split_ifs
  · exact h
  · exact hloop _ _ _ h

theorem Screen.Ready.reset (h : s.Ready) : s.reset.Ready := by
  obtain ⟨vram, hcls, -⟩ := cls_eq h.onScreen.inside
  refine ⟨reset_onScreen h.onScreen.inside, ?_, ?_⟩
  · unfold Screen.reset
    rw [hcls]
    exact h.textMode
  · unfold Screen.reset
    rw [hcls]
    exact h.videoType

end Showing

/-! ## Runs -/

section Runs
variable {d e : Desk} {past : UInt8} {a : DeskAct}

/-- A call on one terminal that is seen as `l`. -/
theorem Desk.settle_spec (h : d.Sound) (k : Fin 3) {r : Effect} (hsound : r.term.Sound)
    (hops : ∃ l : List UInt8, r.ops = l.map .putc) :
    (d.settle k r).Sound ∧
      (d.settle k r).lines = { d.lines.set k r.term.line with signals := d.signals ++ r.signals } := by
  obtain ⟨l, hops⟩ := hops
  refine ⟨⟨fun j => ?_, ?_⟩, ?_⟩
  · unfold Desk.settle
    dsimp only
    by_cases hj : j = k
    · rw [hj, Function.update_self]
      exact hsound
    · rw [Function.update_of_ne hj]
      exact h.ttys j
  · unfold Desk.settle
    rw [hops]
    exact h.screen.putcs l
  · unfold Desk.settle Desk.lines Lines.set
    dsimp only
    have hline : (fun j => (Function.update d.ttys k r.term j).line) =
        Function.update (fun j => (d.ttys j).line) k r.term.line := by
      funext j
      by_cases hj : j = k
      · rw [hj, Function.update_self, Function.update_self]
      · rw [Function.update_of_ne hj, Function.update_of_ne hj]
    rw [hline]

/-- A call that sends no signal and shows nothing. -/
theorem Desk.settle_quiet (h : d.Sound) (k : Fin 3) {t : Terminal} {l : Line} (hsound : t.Sound) (hline : t.line = l) :
    (d.settle k ⟨t, [], []⟩).Sound ∧ (d.settle k ⟨t, [], []⟩).lines = d.lines.set k l := by
  obtain ⟨hdesk, hlines⟩ := d.settle_spec h k (r := ⟨t, [], []⟩) hsound ⟨[], rfl⟩
  refine ⟨hdesk, hlines.trans ?_⟩
  rw [← hline, List.append_nil]
  rfl

/-- No key is the escape character. -/
theorem getD_ne_escape (hpast : past ≠ 27) (n : ℕ) :
    azerMajKbdMap.getD n past ≠ 27 ∧ azerCtrlKbdMap.getD n past ≠ 27 ∧ azerKbdMap.getD n past ≠ 27 := by
  have hmap : ∀ l : List UInt8, (∀ c ∈ l, c ≠ 27) → l.getD n past ≠ 27 := by
    intro l hl
    rw [List.getD_eq_getElem?_getD]
    cases hget : l[n]? with
    | none => exact hpast
    | some c => exact hl c (List.mem_of_getElem? hget)
  exact ⟨hmap _ (by decide +kernel), hmap _ (by decide +kernel), hmap _ (by decide +kernel)⟩

theorem getchar_ne_escape (hpast : past ≠ 27) (k : Keyboard) (keycode : UInt8) :
    k.getchar past keycode ≠ 27 := by
  obtain ⟨hmaj, hctrl, hplain⟩ := @getD_ne_escape past hpast keycode.toNat
  unfold Keyboard.getchar
  split_ifs
  · decide
  · exact hmaj
  · exact hctrl
  · exact hplain

theorem keyboardInterrupt_spec (h : d.Sound) (hsmall : ∀ k, (d.ttys k).Small) (hpast : past ≠ 27) {f : Frame}
    {keycode : UInt8} (he : d.keyboardInterrupt f past keycode = some e) :
    e.Sound ∧ e.lines = d.lines.type past keycode := by
  unfold Desk.keyboardInterrupt at he
  unfold Lines.type
  dsimp only at he ⊢
  have hkeyboard : d.lines.keyboard = d.keyboard := rfl
  rw [hkeyboard]
  cases hswitch : (d.keyboard.note keycode).switch keycode with
  | some k =>
    simp only [hswitch, Option.some.injEq] at he ⊢
    subst he
    unfold Desk.ttySwitch
    split_ifs with hk
    · exact ⟨⟨h.ttys, h.screen.reset.puts _ _ _⟩, rfl⟩
    · exact ⟨⟨h.ttys, h.screen⟩, by rw [not_not.mp hk]; rfl⟩
  | none =>
    simp only [hswitch] at he ⊢
    by_cases hch : (d.keyboard.note keycode).getchar past keycode ≠ 0
    · rw [if_pos hch] at he ⊢
      obtain ⟨r, hr, rfl⟩ := Option.map_eq_some_iff.mp he
      obtain ⟨r', hinput, hsound, htype, hops⟩ := @ttyInput_spec (d.ttys d.current) f
        ((d.keyboard.note keycode).getchar past keycode) (h.ttys _) (hsmall _) ⟨hch, getchar_ne_escape hpast _ _⟩
      rw [hinput, Option.some.injEq] at hr
      subst hr
      obtain ⟨hdesk, hlines⟩ := Desk.settle_spec (d := { d with keyboard := d.keyboard.note keycode })
        ⟨h.ttys, h.screen⟩ d.current hsound hops
      refine ⟨hdesk, hlines.trans ?_⟩
      have hline : r'.term.line = ((d.ttys d.current).line.type ((d.keyboard.note keycode).getchar past keycode)).1 :=
        congrArg Prod.fst htype
      have hsignals : r'.signals = ((d.ttys d.current).line.type ((d.keyboard.note keycode).getchar past keycode)).2 :=
        congrArg Prod.snd htype
      rw [hline, hsignals]
      rfl
    · rw [if_neg hch, Option.some.injEq] at he
      rw [if_neg hch]
      subst he
      exact ⟨⟨h.ttys, h.screen⟩, rfl⟩

/-- One step of the code is one step of the abstract terminals. -/
theorem step_lines (h : d.Sound) (hcalm : d.Calm a) (hpast : past ≠ 27) (he : d.step past a = some e) :
    e.Sound ∧ e.lines = d.lines.step past a := by
  obtain ⟨hsmall, hcalm⟩ := hcalm
  cases a with
  | scan f keycode => exact keyboardInterrupt_spec h hsmall hpast he
  | write k f m p n =>
    obtain ⟨r, hr, rfl⟩ := Option.map_eq_some_iff.mp he
    obtain ⟨o, hwrite, hsound, hline⟩ := (d.ttys k).write_spec (f := f) (h.ttys k) (hsmall k) (k == d.current) hcalm.1 hcalm.2
    rw [hwrite, Option.some.injEq] at hr
    subst hr
    have hops : ∃ l : List UInt8, (if k == d.current then (slice m p n).map ScreenOp.putc else []) = l.map .putc := by
      split_ifs
      · exact ⟨_, rfl⟩
      · exact ⟨[], rfl⟩
    generalize (if k == d.current then (slice m p n).map ScreenOp.putc else []) = ops at hops
    obtain ⟨hdesk, hlines⟩ := d.settle_spec h k (r := ⟨(d.ttys k).setOut o, [], ops⟩) hsound hops
    refine ⟨hdesk, hlines.trans ?_⟩
    rw [List.append_nil]
    exact congrArg (d.lines.set k) hline
  | read k group count hcount caller =>
    unfold Desk.step at he
    cases hwait : (d.ttys k).waiting with
    | none =>
      simp only [hwait, Option.some.injEq] at he
      subst he
      obtain ⟨hsound, hline⟩ := (d.ttys k).read_spec (h.ttys k) hwait group hcount caller
      exact d.settle_quiet h k hsound hline
    | some w => simp only [hwait, reduceCtorEq] at he
  | resume k block =>
    unfold Desk.step at he
    cases hwait : (d.ttys k).waiting with
    | none => simp only [hwait, reduceCtorEq] at he
    | some w =>
      simp only [hwait] at he
      obtain ⟨o, ho, rfl⟩ := Option.map_eq_some_iff.mp he
      have hend : ∀ size count caller, (d.ttys k).waiting = some (.canonical size count caller) →
          (d.ttys k).tty.keyboardStream.buffer 0 = 10 ∨ count - 1 = 0 →
          (d.ttys k).tty.canonBufferCount + 1 ≤ count - 1 := by
        intro size count caller hcall
        simp only [hcall] at hcalm
        exact hcalm
      obtain ⟨hsound, hline⟩ := (d.ttys k).resume_spec (h.ttys k) (hsmall k) hwait hend ho
      exact d.settle_quiet h k hsound hline
  | setpgrp k group =>
    have he' := Option.some.inj he
    subst he'
    have hk := h.ttys k
    apply d.settle_quiet h k _ rfl
    exact ⟨⟨hk.tty.stream, hk.tty.vtime, hk.tty.canonPos, hk.tty.canonLe⟩, hk.lflag, hk.iflag, hk.cc, hk.stream_pos,
      hk.count_le, hk.buffer_pos, hk.waiting, hk.idle, hk.shown, hk.taken, hk.pending, hk.stored⟩

/-- The abstract terminals behind `ttys_init`. -/
def Lines.start : Lines where
  keyboard := ⟨false, false, false⟩
  line k := ⟨banner k, [], [], none, [], 0⟩
  current := 0
  signals := []

theorem length_banner (k : Fin 3) : (banner k).length = 20 := rfl

theorem Terminal.start_sound (block canon keyboard : Mem) (k : Fin 3) :
    (Terminal.start block canon keyboard k).Sound ∧
      (Terminal.start block canon keyboard k).line = ⟨banner k, [], [], none, [], 0⟩ := by
  have hsession := (Session.inv_start canon keyboard 0).tty
  refine ⟨⟨hsession, rfl, rfl, rfl, ?_, ?_, ?_, nofun, fun _ => rfl, Nat.zero_le _, fun c hc => absurd hc List.not_mem_nil,
    fun c hc => absurd hc List.not_mem_nil, fun r hr => absurd hr List.not_mem_nil⟩, ?_⟩
  · show 1 ≤ 100
    norm_num
  · show (banner k).length ≤ 1024
    rw [length_banner]
    norm_num
  · show 3 ≤ 1024
    norm_num
  · have htext := Logged.slice_puts (Logged.start block) 0 (banner k)
    exact congrArg (fun text => Line.mk text [] [] none [] 0) htext

theorem Desk.start_sound (blocks : Fin 3 → Mem × Mem × Mem) {screen : Screen} (hscreen : screen.Ready) :
    (Desk.start blocks screen).Sound ∧ (Desk.start blocks screen).lines = Lines.start := by
  have hstart := fun k => Terminal.start_sound (blocks k).1 (blocks k).2.1 (blocks k).2.2 k
  refine ⟨⟨fun k => (hstart k).1, hscreen⟩, ?_⟩
  have hlines := funext fun k => (hstart k).2
  exact congrArg (fun line => Lines.mk ⟨false, false, false⟩ line 0 []) hlines

theorem desk_simulates (hpast : past ≠ 27) :
    Trace.Simulates (Desk.step past) Desk.Calm Desk.Sound Desk.lines (Lines.step past) where
  keep _ _ _ hd hcalm he := (step_lines hd hcalm hpast he).1
  commute _ _ _ hd hcalm he := (step_lines hd hcalm hpast he).2

end Runs

/-! ## What the readers get -/

section Keystrokes
variable {past : UInt8} {k : Fin 3}

/-- The characters that the keys stand for, each with the terminal that is current. -/
def keystrokes (past : UInt8) : Keyboard → Fin 3 → List DeskAct → List (Fin 3 × UInt8)
  | _, _, [] => []
  | kb, cur, .scan _ keycode :: acts =>
    let kb := kb.note keycode
    match kb.switch keycode with
    | some k => keystrokes past kb k acts
    | none =>
      let ch := kb.getchar past keycode
      (if ch ≠ 0 then [(cur, if ch = 13 then 10 else ch)] else []) ++ keystrokes past kb cur acts
  | kb, cur, _ :: acts => keystrokes past kb cur acts

/-- The keystrokes of one terminal. -/
def typedOn (k : Fin 3) (keys : List (Fin 3 × UInt8)) : List UInt8 :=
  (keys.filter fun p => p.1 = k).map Prod.snd

/-- All characters that the reader has, or that wait for it. -/
def Line.received (l : Line) : List UInt8 := l.lines.flatten ++ l.taken ++ l.pending

/-- A character that is not an input of the reader. -/
def IsControl (c : UInt8) : Bool := c = 8 || c = 4 || (controlOf c).isSome

/-- The reader gets what is typed, once and in order. A control character is not among it, and the erase character
takes one more away. -/
structure Line.Accounts (l : Line) (typed : List UInt8) : Prop where
  sublist : l.received.Sublist typed
  length_le : typed.length ≤ l.received.length + 2 * typed.countP IsControl

variable {l : Line} {typed : List UInt8} {c : UInt8}

/-- A line with the same characters. -/
theorem Line.Accounts.of_eq {l' : Line} (h : l.Accounts typed) (heq : l'.received = l.received) : l'.Accounts typed :=
  ⟨heq ▸ h.sublist, heq ▸ h.length_le⟩

theorem Line.Accounts.control {l' : Line} (h : l.Accounts typed) (hc : IsControl c = true)
    (hsub : l'.received.Sublist l.received) (hlen : l.received.length ≤ l'.received.length + 1) :
    l'.Accounts (typed ++ [c]) := by
  have hlength := h.length_le
  refine ⟨hsub.trans (h.sublist.trans (List.sublist_append_left _ _)), ?_⟩
  rw [List.length_append, List.length_singleton, List.countP_append, List.countP_singleton, if_pos hc]
  omega

theorem Line.erase_received (l : Line) :
    l.erase.received.Sublist l.received ∧ l.received.length ≤ l.erase.received.length + 1 := by
  unfold Line.erase Line.received
  split_ifs
  · exact ⟨List.Sublist.refl _, Nat.le_succ _⟩
  · dsimp only
    refine ⟨((List.Sublist.refl _).append (List.dropLast_sublist _)).append (List.Sublist.refl _), ?_⟩
    simp only [List.length_append, List.length_dropLast]
    omega

/-- A key adds its character at the end, or it is a control character. -/
theorem Line.Accounts.type (h : l.Accounts typed) (c : UInt8) :
    (l.type c).1.Accounts (typed ++ [if c = 13 then 10 else c]) := by
  unfold Line.type Line.typePlain
  generalize (if c = 13 then 10 else c) = c
  by_cases h8 : c = 8
  · rw [if_pos h8]
    obtain ⟨hsub, hlen⟩ := l.erase_received
    exact h.control (by rw [h8]; decide) hsub hlen
  rw [if_neg h8]
  cases hsignal : (if l.group ≠ 0 then controlOf c else none) with
  | some p =>
    have hcontrol : (controlOf c).isSome = true := by
      split_ifs at hsignal
      rw [hsignal]
      rfl
    have hc : IsControl c = true := by
      unfold IsControl
      rw [hcontrol, Bool.or_true]
    exact h.control hc (List.Sublist.refl _) (Nat.le_succ _)
  | none =>
    dsimp only
    by_cases h4 : c = 4
    · rw [if_pos h4]
      exact h.control (by rw [h4]; decide) (List.Sublist.refl _) (Nat.le_succ _)
    · rw [if_neg h4]
      have hreceived : Line.received { l.show [c] with pending := l.pending ++ [c] } = l.received ++ [c] :=
        (List.append_assoc _ _ _).symm
      have hlength := h.length_le
      refine ⟨hreceived ▸ h.sublist.append (List.Sublist.refl _), ?_⟩
      rw [hreceived, List.length_append, List.length_append, List.countP_append, List.length_singleton]
      omega

theorem Line.resume_received (l : Line) : l.resume.received = l.received := by
  obtain ⟨text, taken, pending, left, lines, group⟩ := l
  unfold Line.resume Line.received
  cases left with
  | none => rfl
  | some n =>
    cases pending with
    | nil => rfl
    | cons c rest =>
      dsimp only
      split_ifs
      · simp
      · simp

theorem Line.read_received (group n : ℕ) (l : Line) : (l.read group n).received = l.received := by
  unfold Line.read Line.received
  split_ifs
  · rfl
  · rfl
  · simp

theorem typedOn_append (k : Fin 3) (xs ys : List (Fin 3 × UInt8)) :
    typedOn k (xs ++ ys) = typedOn k xs ++ typedOn k ys := by
  unfold typedOn
  rw [List.filter_append, List.map_append]

/-- What all terminals have received of the keys that were typed. -/
def Lines.Accounts (s : Lines) (keys : List (Fin 3 × UInt8)) : Prop := ∀ k, (s.line k).Accounts (typedOn k keys)

variable {s : Lines} {keys : List (Fin 3 × UInt8)}

theorem Lines.Accounts.set (h : s.Accounts keys) (heq : l.received = (s.line k).received) : (s.set k l).Accounts keys := by
  intro j
  unfold Lines.set
  dsimp only
  by_cases hj : j = k
  · rw [hj, Function.update_self]
    exact (h k).of_eq heq
  · rw [Function.update_of_ne hj]
    exact h j

theorem typedOn_self (k : Fin 3) (c : UInt8) : typedOn k [(k, c)] = [c] := by simp [typedOn]

theorem typedOn_of_ne {j : Fin 3} (h : j ≠ k) (c : UInt8) : typedOn j [(k, c)] = [] := by simp [typedOn, Ne.symm h]

/-- A key goes to the current terminal. -/
theorem Lines.Accounts.key (h : s.Accounts keys) (c : UInt8) :
    Lines.Accounts { s.set s.current ((s.line s.current).type c).1 with
      signals := s.signals ++ ((s.line s.current).type c).2 }
      (keys ++ [(s.current, if c = 13 then 10 else c)]) := by
  intro j
  rw [typedOn_append]
  unfold Lines.set
  dsimp only
  by_cases hj : j = s.current
  · rw [hj, Function.update_self, typedOn_self]
    exact (h s.current).type c
  · rw [Function.update_of_ne hj, typedOn_of_ne hj, List.append_nil]
    exact h j

/-- The steps up to the end of a run. -/
theorem Lines.Accounts.run (h : s.Accounts keys) (acts : List DeskAct) :
    (acts.foldl (Lines.step past) s).Accounts (keys ++ keystrokes past s.keyboard s.current acts) := by
  induction acts generalizing s keys with
  | nil =>
    unfold keystrokes
    rwa [List.append_nil]
  | cons a acts ih =>
    rw [List.foldl_cons]
    cases a with
    | write k f m p n => exact ih (h.set rfl)
    | read k group n hn caller => exact ih (h.set (Line.read_received _ _ _))
    | resume k block => exact ih (h.set (Line.resume_received _))
    | setpgrp k group => exact ih (h.set rfl)
    | scan f keycode =>
      unfold keystrokes Lines.step Lines.type
      dsimp only
      cases hswitch : (s.keyboard.note keycode).switch keycode with
      | some k => exact ih (s := { s with keyboard := s.keyboard.note keycode, current := k }) h
      | none =>
        dsimp only
        by_cases hch : (s.keyboard.note keycode).getchar past keycode ≠ 0
        · rw [if_pos hch, if_pos hch, ← List.append_assoc]
          exact ih (h.key _)
        · rw [if_neg hch, if_neg hch, List.nil_append]
          exact ih (s := { s with keyboard := s.keyboard.note keycode }) h

end Keystrokes

def calmFrame : Frame := ⟨⟨0, false⟩, fun _ => 0, fun _ => 0, fun _ => 0⟩

/-- A reader, the letter q, which it takes, the erase character and the newline. -/
def erasedLine : List DeskAct :=
  [.read 0 0 8 (by norm_num) fun _ => 0, .scan calmFrame 30, .resume 0 fun _ => 0, .scan calmFrame 14,
    .scan calmFrame 28, .resume 0 fun _ => 0]

def firstDesk : Desk := Desk.start (fun _ => ⟨fun _ => 0, fun _ => 0, fun _ => 0⟩) blankScreen

theorem erasedLine_calm : Trace.AllSteps (Desk.step 0) Desk.Calm firstDesk erasedLine := by decide +kernel

theorem firstDesk_ready : blankScreen.Ready :=
  ⟨⟨by decide, by decide, fun p hp => absurd hp List.not_mem_nil⟩, rfl, by decide⟩

end VkKernel.Io
