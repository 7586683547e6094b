import VkKernel.Lib.Trace
import VkKernel.ControlSequences

/-!
# The text screen

`vga_text_putc` moves the cursor and stores at it, and scrolls at the end of the screen.
`tty_write` sets the cursor where a sequence says, without a look at the size of the screen.
-/

namespace VkKernel.Io
open ByteMemory StoreLog

/-! ## The source -/

inductive VideoType
  | none
  | color
  | monochrome
deriving DecidableEq, Repr

def VGA_COLUMNS : ℕ := 80
def VGA_LINES : ℕ := 25

/-- `VGA_MEM_END - VGA_MEM_START`. -/
def vgaMemSize : ℕ := 0xFA0

/-- The memory of the screen from `VGA_MEM_START` on, and the cursor. -/
structure Screen where
  vram : Logged
  textMode : Bool
  videoType : VideoType
  cursorX : ℕ
  cursorY : ℕ

/-- Two bytes again and again, as far as the last line or the whole screen goes. -/
def fillPairs (a : ℕ) (c color : UInt8) : ℕ → Logged → Logged
  | 0, s => s
  | n + 1, s => fillPairs (a + 2) c color n ((s.put a c).put (a + 1) color)

/-- `vga_text_cls`. -/
def Screen.cls (s : Screen) : Screen := { s with vram := fillPairs 0 0 0xF (vgaMemSize / 2) s.vram }

/-- `vga_text_reset`. -/
def Screen.reset (s : Screen) : Screen := { s.cls with cursorX := 0, cursorY := 0 }

/-- `vga_text_scroll_up`. -/
def Screen.scrollUp (s : Screen) : Screen :=
  if s.textMode = false ∨ s.videoType = .none then s
  else
    let moved := s.vram.move 0 (VGA_COLUMNS * 2) (vgaMemSize - VGA_COLUMNS * 2)
    { s with
      vram := fillPairs (vgaMemSize - 2 * VGA_COLUMNS) 0 7 VGA_COLUMNS moved
      cursorY := if s.cursorY > 0 then s.cursorY - 1 else s.cursorY }

/-- The place of the cursor in the memory of the screen. -/
def Screen.current (s : Screen) : ℕ := 2 * s.cursorX + 2 * VGA_COLUMNS * s.cursorY

/-- `TEXT_CURSOR_X = 0` and `TEXT_CURSOR_Y++`, in a byte. -/
def Screen.newline (s : Screen) : Screen := { s with cursorX := 0, cursorY := (s.cursorY + 1) % 256 }

/-- The character itself. -/
def Screen.putChar (c color : UInt8) (s : Screen) : Screen :=
  if c = 10 then s.newline
  else if c = 9 then
    let nextCursor := (s.cursorX + 8 - s.cursorX % 8) % 256
    if nextCursor > VGA_COLUMNS - 1 then s.newline else { s with cursorX := nextCursor }
  else if c = 13 then { s with cursorX := 0 }
  else if c = 8 then
    if s.cursorX > 0 then
      let s := { s with cursorX := s.cursorX - 1 }
      { s with vram := s.vram.put s.current 0 }
    else if s.cursorY > 0 then { s with cursorY := s.cursorY - 1, cursorX := VGA_COLUMNS }
    else s
  else
    let vram := s.vram.put s.current c
    { s with
      vram := if s.videoType = .color then vram.put (s.current + 1) color else vram
      cursorX := (s.cursorX + 1) % 256 }

/-- `vga_text_putc`. -/
def Screen.putc (c color : UInt8) (s : Screen) : Screen :=
  if s.textMode = false ∨ s.videoType = .none then s
  else
    let s := s.putChar c color
    let s := if s.cursorX ≥ VGA_COLUMNS then s.newline else s
    if s.cursorY ≥ VGA_LINES then s.scrollUp else s

/-- What `tty_write` does to the screen, one call after the other. -/
def Screen.apply (s : Screen) : ScreenOp → Screen
  | .setCursor x y => { s with cursorX := x, cursorY := y }
  | .cls => s.cls
  | .putc c => s.putc c 7

/-! ## Runs -/

/-- The current terminal and the screen. -/
structure Console where
  tty : TtyOut
  screen : Screen

inductive Console.Act
  | write (w : Writer) (block m : Mem) (buffer count : ℕ)
  | putc (c color : UInt8)

def Console.step (s : Console) : Console.Act → Option Console
  | .write w block m buffer count =>
    (ttyWrite w block m buffer count s.tty).map fun r => ⟨r.2.1, r.2.2.foldl Screen.apply s.screen⟩
  | .putc c color => some { s with screen := s.screen.putc c color }

/-- A screen that `vga_setup` has found, behind `vga_text_reset`. -/
def Console.start (tty : TtyOut) (videoColor : Bool) (vram : Mem) (x y : ℕ) : Console where
  tty := { tty with current := true }
  screen := Screen.reset
    { vram := Logged.start vram
      textMode := true
      videoType := if videoColor then .color else .monochrome
      cursorX := x
      cursorY := y }

/-! ## The cursor -/

/-- The cursor is on the screen, and all stores were. -/
structure Screen.OnScreen (s : Screen) : Prop where
  x_lt : s.cursorX < 80
  y_lt : s.cursorY < 25
  inside : ∀ p ∈ s.vram.log, p < 0xFA0

/-- Behind the sequences of a write at `a` the cursor is on the screen, if `ok` says so of the cursor
before. A character brings it back. -/
def CursorSafe (m : Mem) (a count : ℕ) (ok : Prop) : Prop :=
  if strcfirst (cstring [27, 91]) (fun x => m (a + x)) 3 0 = 2 then
    let q := parseSequence m a
    if 3 + q.i ≤ count then
      if count - 3 - q.i ≠ 0 then
        CursorSafe m (a + 3 + q.i) (count - 3 - q.i) (if q.control = 72 then (q.n - 1) % 256 < 80 else ok)
      else if q.control = 72 then (q.n - 1) % 256 < 80 else ok
    else True
  else count ≠ 0 ∨ ok
termination_by count

/-- A write that ends with a cursor sequence ends with one inside the screen. -/
def Console.Safe (s : Console) : Console.Act → Prop
  | .write w _ m buffer count => mayWrite w s.tty → CursorSafe m buffer count True
  | .putc _ _ => True

/-- Where the cursor can be inside a write: on the screen, or anywhere on the first line. -/
structure Screen.Loose (s : Screen) : Prop where
  textMode : s.textMode = true
  videoType : s.videoType ≠ .none
  place : (s.cursorX < 80 ∧ s.cursorY < 25) ∨ (s.cursorX < 256 ∧ s.cursorY = 0)
  inside : ∀ p ∈ s.vram.log, p < 0xFA0

section Cursor
variable {s : Screen} {c color : UInt8}

theorem fillPairs_log {a n p : ℕ} {l : Logged} (h : p ∈ (fillPairs a c color n l).log) :
    p ∈ l.log ∨ p < a + 2 * n := by
  induction n generalizing a l with
  | zero => exact .inl h
  | succ n ih =>
    rcases ih h with hp | hp
    · rw [Logged.mem_log_put, Logged.mem_log_put] at hp
      rcases hp with hp | hp | hp
      · exact .inr (by omega)
      · exact .inr (by omega)
      · exact .inl hp
    · exact .inr (by omega)

theorem cls_inside (h : ∀ p ∈ s.vram.log, p < 0xFA0) : ∀ p ∈ s.cls.vram.log, p < 0xFA0 := by
  intro p hp
  rcases fillPairs_log hp with hp | hp
  · exact h p hp
  · exact hp

theorem cls_eq (h : ∀ p ∈ s.vram.log, p < 0xFA0) :
    ∃ vram : Logged, s.cls = { s with vram := vram } ∧ ∀ p ∈ vram.log, p < 0xFA0 := by
  have hinside := cls_inside h
  unfold Screen.cls at hinside ⊢
  exact ⟨_, rfl, hinside⟩

theorem reset_onScreen (h : ∀ p ∈ s.vram.log, p < 0xFA0) : s.reset.OnScreen := by
  obtain ⟨vram, hcls, hinside⟩ := cls_eq h
  unfold Screen.reset
  rw [hcls]
  exact ⟨by norm_num, by norm_num, hinside⟩

theorem Screen.Loose.current_lt (h : s.Loose) : s.current + 1 < 0xFA0 := by
  have hplace := h.place
  unfold Screen.current VGA_COLUMNS
  omega

theorem put_inside {p : ℕ} {l : Logged} {v : UInt8} (hl : ∀ p ∈ l.log, p < 0xFA0) (hp : p < 0xFA0) :
    ∀ q ∈ (l.put p v).log, q < 0xFA0 := by
  intro q hq
  rcases Logged.mem_log_put.mp hq with hq | hq
  · exact hq ▸ hp
  · exact hl q hq

/-- Behind a character, before the cursor is brought back. -/
structure Screen.Moved (s : Screen) : Prop where
  textMode : s.textMode = true
  videoType : s.videoType ≠ .none
  x_lt : s.cursorX < 256
  y_le : s.cursorY ≤ 25
  y_lt : 80 ≤ s.cursorX → s.cursorY < 25
  inside : ∀ p ∈ s.vram.log, p < 0xFA0

theorem Screen.Loose.newline (h : s.Loose) : s.newline.Moved := by
  have hplace := h.place
  refine ⟨h.textMode, h.videoType, ?_, ?_, ?_, h.inside⟩ <;> unfold Screen.newline <;> dsimp only <;> omega

theorem putChar_moved (h : s.Loose) : (s.putChar c color).Moved := by
  have hplace := h.place
  have hcurrent := h.current_lt
  unfold Screen.putChar
  by_cases hnewline : c = 10
  · rw [if_pos hnewline]
    exact h.newline
  rw [if_neg hnewline]
  by_cases htab : c = 9
  · rw [if_pos htab]
    dsimp only
    unfold VGA_COLUMNS
    split_ifs with hover
    · exact h.newline
    · exact ⟨h.textMode, h.videoType, by dsimp only; omega, by dsimp only; omega,
        by dsimp only; omega, h.inside⟩
  rw [if_neg htab]
  by_cases hreturn : c = 13
  · rw [if_pos hreturn]
    exact ⟨h.textMode, h.videoType, by dsimp only; omega, by dsimp only; omega, by dsimp only; omega, h.inside⟩
  rw [if_neg hreturn]
  by_cases hback : c = 8
  · rw [if_pos hback]
    split_ifs with hx hy
    · refine ⟨h.textMode, h.videoType, by dsimp only; omega, by dsimp only; omega, by dsimp only; omega, ?_⟩
      apply put_inside h.inside
      unfold Screen.current VGA_COLUMNS
      dsimp only
      omega
    · -- the cursor waits behind the end of the line above
      exact ⟨h.textMode, h.videoType, by dsimp only [VGA_COLUMNS]; omega, by dsimp only; omega,
        by dsimp only [VGA_COLUMNS]; omega, h.inside⟩
    · exact ⟨h.textMode, h.videoType, by omega, by omega, by omega, h.inside⟩
  rw [if_neg hback]
  refine ⟨h.textMode, h.videoType, by dsimp only; omega, by dsimp only; omega, by dsimp only; omega, ?_⟩
  have hput := put_inside (v := c) h.inside (by omega : s.current < 0xFA0)
  dsimp only
  split_ifs
  · exact put_inside hput hcurrent
  · exact hput

/-- The lines move up, and all stores are on the screen. -/
theorem scrollUp_inside (h : ∀ p ∈ s.vram.log, p < 0xFA0) : ∀ p ∈ s.scrollUp.vram.log, p < 0xFA0 := by
  intro p hp
  unfold Screen.scrollUp vgaMemSize VGA_COLUMNS at hp
  by_cases hready : s.textMode = false ∨ s.videoType = .none
  · rw [if_pos hready] at hp
    exact h p hp
  · rw [if_neg hready] at hp
    rcases fillPairs_log hp with hp | hp
    · rw [Logged.move_eq_puts (Nat.zero_le _), Logged.mem_log_puts, length_slice] at hp
      rcases hp with hp | hp
      · omega
      · exact h p hp
    · omega

theorem scrollUp_cursor (ht : s.textMode = true) (hv : s.videoType ≠ .none) :
    s.scrollUp.cursorX = s.cursorX ∧ s.scrollUp.cursorY = s.cursorY - 1 ∧
      s.scrollUp.textMode = true ∧ s.scrollUp.videoType ≠ .none := by
  have hready : ¬(s.textMode = false ∨ s.videoType = .none) := by
    rw [ht]
    exact fun h => h.elim nofun hv
  unfold Screen.scrollUp
  rw [if_neg hready]
  refine ⟨rfl, ?_, ht, hv⟩
  dsimp only
  split_ifs <;> omega

theorem Screen.Moved.wrapped (h : s.Moved) :
    (if s.cursorX ≥ VGA_COLUMNS then s.newline else s).Moved ∧
      (if s.cursorX ≥ VGA_COLUMNS then s.newline else s).cursorX < 80 := by
  have hx := h.x_lt
  have hy := h.y_le
  have hlt := h.y_lt
  unfold VGA_COLUMNS
  split_ifs with hover
  · have hy' := hlt hover
    unfold Screen.newline
    exact ⟨⟨h.textMode, h.videoType, by dsimp only; omega, by dsimp only; omega, by dsimp only; omega, h.inside⟩,
      by dsimp only; omega⟩
  · exact ⟨h, by omega⟩

/-- A character from anywhere on the first line, or on the screen, ends on the screen. -/
theorem putc_onScreen (h : s.Loose) :
    (s.putc c color).OnScreen ∧ (s.putc c color).textMode = true ∧ (s.putc c color).videoType ≠ .none := by
  have hready : ¬(s.textMode = false ∨ s.videoType = .none) := by
    rw [h.textMode]
    exact fun hn => hn.elim nofun h.videoType
  unfold Screen.putc
  rw [if_neg hready]
  dsimp only
  obtain ⟨hmoved, hx⟩ := (@putChar_moved s c color h).wrapped
  generalize (if (s.putChar c color).cursorX ≥ VGA_COLUMNS then (s.putChar c color).newline
    else s.putChar c color) = s' at hmoved hx
  have hy := hmoved.y_le
  unfold VGA_LINES
  split_ifs with hover
  · obtain ⟨hx', hy', htext, hvideo⟩ := scrollUp_cursor hmoved.textMode hmoved.videoType
    exact ⟨⟨by omega, by omega, scrollUp_inside hmoved.inside⟩, htext, hvideo⟩
  · exact ⟨⟨hx, by omega, hmoved.inside⟩, hmoved.textMode, hmoved.videoType⟩

theorem Screen.OnScreen.loose (h : s.OnScreen) (htext : s.textMode = true) (hvideo : s.videoType ≠ .none) :
    s.Loose := ⟨htext, hvideo, .inl ⟨h.x_lt, h.y_lt⟩, h.inside⟩

theorem Screen.Loose.onScreen (h : s.Loose) (hx : s.cursorX < 80) : s.OnScreen := by
  have hplace := h.place
  exact ⟨hx, by omega, h.inside⟩

/-- Text on the screen. -/
theorem foldl_putc (l : List UInt8) (h : s.Loose) :
    ((l.map ScreenOp.putc).foldl Screen.apply s).Loose ∧
      (((l.map ScreenOp.putc).foldl Screen.apply s).cursorX < 80 ↔ l.length ≠ 0 ∨ s.cursorX < 80) := by
  induction l generalizing s with
  | nil =>
    refine ⟨h, ?_⟩
    rw [List.length_nil]
    exact (or_iff_right (not_not_intro rfl)).symm
  | cons c l ih =>
    obtain ⟨hon, htext, hvideo⟩ := @putc_onScreen s c 7 h
    obtain ⟨hloose, hx⟩ := ih (hon.loose htext hvideo)
    refine ⟨hloose, ?_⟩
    rw [List.map_cons, List.foldl_cons]
    exact iff_of_true (hx.mpr (.inr hon.x_lt)) (.inl nofun)

/-- A sequence sets the cursor on the first line. -/
theorem foldl_sequence {m : Mem} {a : ℕ} (h : s.Loose) :
    ((parseSequence m a).ops.foldl Screen.apply s).Loose ∧
      ((parseSequence m a).ops.foldl Screen.apply s).cursorX =
        if (parseSequence m a).control = 72 then ((parseSequence m a).n - 1) % 256 else s.cursorX := by
  unfold Sequence.ops
  rw [parseSequence_m]
  split_ifs
  · exact ⟨⟨h.textMode, h.videoType, .inr ⟨Nat.mod_lt _ (by decide), rfl⟩, h.inside⟩, rfl⟩
  · rw [List.foldl_cons, List.foldl_nil, Screen.apply]
    obtain ⟨vram, hcls, hinside⟩ := cls_eq h.inside
    rw [hcls]
    exact ⟨⟨h.textMode, h.videoType, h.place, hinside⟩, rfl⟩
  · exact ⟨h, rfl⟩

/-- What a write leaves of the cursor. -/
theorem ttyWrite_cursor {w : Writer} {t t' : TtyOut} {block m : Mem} {a n : ℕ} {ops : List ScreenOp}
    {e : ErrorT} (hw : mayWrite w t) (hcurrent : t.current = true) (h : s.Loose)
    (hres : ttyWrite w block m a n t = some (e, t', ops)) :
    t'.current = true ∧ (ops.foldl Screen.apply s).Loose ∧
      ((ops.foldl Screen.apply s).cursorX < 80 ↔ CursorSafe m a n (s.cursorX < 80)) := by
  induction n using Nat.strong_induction_on generalizing a t t' ops e s with
  | _ n ih =>
    rw [CursorSafe]
    by_cases hesc : m a = 27 ∧ m (a + 1) = 91
    · obtain ⟨hloose, hx⟩ := @foldl_sequence s m a h
      have hcurrent' : ((parseSequence m a).apply t).current = true := by
        obtain ⟨pos, heq⟩ := apply_eq (parseSequence m a) t
        rw [heq]
        exact hcurrent
      have hcursor : (if (parseSequence m a).control = 72 then ((parseSequence m a).n - 1) % 256 < 80
          else s.cursorX < 80) ↔ ((parseSequence m a).ops.foldl Screen.apply s).cursorX < 80 := by
        rw [hx]
        split_ifs <;> rfl
      rw [if_pos (escape_iff.mpr hesc)]
      rw [ttyWrite_sequence hw hesc] at hres
      dsimp only at hres ⊢
      rw [propext hcursor]
      split_ifs at hres ⊢ with hroom hrest
      · obtain ⟨⟨e', u, o⟩, hrec, heq⟩ := Option.map_eq_some_iff.mp hres
        simp only [Prod.mk.injEq] at heq
        obtain ⟨rfl, rfl, rfl⟩ := heq
        rw [List.foldl_append]
        exact ih _ (by omega) (apply_mayWrite hw) hcurrent' hloose hrec
      · simp only [Option.some.injEq, Prod.mk.injEq] at hres
        obtain ⟨-, rfl, rfl⟩ := hres
        exact ⟨hcurrent', hloose, Iff.rfl⟩
    · rw [if_neg fun hs => hesc (escape_iff.mp hs)]
      rw [ttyWrite_text hw hesc] at hres
      simp only [Option.some.injEq, Prod.mk.injEq] at hres
      have hops : (t.append (slice m a n) block).2 = (slice m a n).map ScreenOp.putc := by
        have hcurrent' : (t.grow (slice m a n).length block).current = true := by
          unfold TtyOut.grow
          split_ifs <;> exact hcurrent
        unfold TtyOut.append
        exact if_pos hcurrent'
      have htty : (t.append (slice m a n) block).1.current = true := by
        unfold TtyOut.append TtyOut.grow
        dsimp only
        split_ifs <;> exact hcurrent
      rw [hres.2] at hops htty
      dsimp only at hops htty
      obtain ⟨hloose, hx⟩ := foldl_putc (slice m a n) h
      rw [length_slice] at hx
      rw [hops]
      exact ⟨htty, hloose, hx⟩

end Cursor

/-! ## All runs -/

structure Console.Inv (s : Console) : Prop where
  current : s.tty.current = true
  textMode : s.screen.textMode = true
  videoType : s.screen.videoType ≠ .none
  onScreen : s.screen.OnScreen

theorem Console.Inv.loose {s : Console} (h : s.Inv) : s.screen.Loose := h.onScreen.loose h.textMode h.videoType

theorem Console.inv_start (tty : TtyOut) (videoColor : Bool) (vram : Mem) (x y : ℕ) :
    (Console.start tty videoColor vram x y).Inv := by
  refine ⟨rfl, rfl, ?_, reset_onScreen fun p hp => absurd hp List.not_mem_nil⟩
  cases videoColor <;> exact nofun

/-- A step keeps the cursor on the screen exactly if it is safe. -/
theorem Console.step_iff {s s' : Console} {a : Console.Act} (h : s.Inv) (hstep : s.step a = some s') :
    (s.Safe a → s'.Inv) ∧ (s'.screen.OnScreen → s.Safe a) := by
  cases a with
  | write w block m buffer count =>
    obtain ⟨⟨e, t', ops⟩, hres, rfl⟩ := Option.map_eq_some_iff.mp hstep
    by_cases hw : mayWrite w s.tty
    · obtain ⟨hcurrent, hloose, hx⟩ := ttyWrite_cursor hw h.current h.loose hres
      have hok : (s.screen.cursorX < 80) = True := eq_true h.onScreen.x_lt
      rw [hok] at hx
      exact ⟨fun hsafe => ⟨hcurrent, hloose.textMode, hloose.videoType, hloose.onScreen (hx.mpr (hsafe hw))⟩,
        fun hon _ => hx.mp hon.x_lt⟩
    · rw [ttyWrite, if_pos hw] at hres
      simp only [Option.some.injEq, Prod.mk.injEq] at hres
      obtain ⟨-, rfl, rfl⟩ := hres
      exact ⟨fun _ => h, fun _ hw' => absurd hw' hw⟩
  | putc c color =>
    unfold Console.step at hstep
    rw [Option.some.injEq] at hstep
    subst hstep
    obtain ⟨hon, htext, hvideo⟩ := @putc_onScreen s.screen c color h.loose
    exact ⟨fun _ => ⟨h.current, htext, hvideo, hon⟩, fun _ => trivial⟩

/-- The cursor is on the screen throughout a run exactly if every write of the run is safe. -/
theorem onScreen_iff (tty : TtyOut) (videoColor : Bool) (vram : Mem) (x y : ℕ) (acts : List Console.Act) :
    Trace.Always Console.step (fun s => s.screen.OnScreen) (Console.start tty videoColor vram x y) acts ↔
      Trace.AllSteps Console.step Console.Safe (Console.start tty videoColor vram x y) acts := by
  apply Trace.always_iff_allSteps (J := Console.Inv)
  · exact fun s hs => hs.onScreen
  · exact fun s a s' hs hsafe hstep => (Console.step_iff hs hstep).1 hsafe
  · exact fun s a s' hs hsafe hstep hon => hsafe ((Console.step_iff hs hstep).2 hon)
  · exact Console.inv_start tty videoColor vram x y

/-- Column 81. -/
def cursorEightyOne : Csi := ⟨(takeDigits [56, 49]).1, none, cursorFinal⟩

/-- A write of that sequence. -/
theorem not_onScreen_column :
    ¬Trace.Always Console.step (fun s => s.screen.OnScreen) (Console.start emptyTty true (fun _ => 0) 0 0)
      [.write ⟨0, false⟩ (fun _ => 0) (cstring [27, 91, 56, 49, 72]) 0 5] := by
  intro h
  have hwrite : ttyWrite ⟨0, false⟩ (fun _ => 0) (cstring [27, 91, 56, 49, 72]) 0 5 emptyTty =
      some (.none, cursorEightyOne.sequence.apply emptyTty, cursorEightyOne.sequence.ops) :=
    @ttyWrite_one ⟨0, false⟩ emptyTty (fun _ => 0) (cstring [27, 91, 56, 49, 72]) 0 cursorEightyOne []
      (.inl rfl) rfl (show 5 < 2 ^ 32 by norm_num) rfl
  have hcursor := (h.2 _ (congrArg (Option.map _) hwrite)).head.x_lt
  exact absurd hcursor (by decide)

end VkKernel.Io
