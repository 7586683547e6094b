import VkKernel.Lib.Simulation
import VkKernel.Kprintf
import VkKernel.TtyRead

/-!
# From the keyboard to the reader

The keyboard interrupt turns a key into a character of the current terminal. `tty_input` shows it,
sends a signal or takes back the last character that the reader has, and puts all others into the
stream of the terminal.
-/

namespace VkKernel.Io
open ByteMemory StoreLog

/-! ## Input of a terminal -/

def VEOF : ℕ := 1
def VEOL : ℕ := 2
def VERASE : ℕ := 3
def VINTR : ℕ := 4
def VKILL : ℕ := 5
def VSTART : ℕ := 8
def VSTOP : ℕ := 9
def VSUSP : ℕ := 10

def ICRNL : ℕ := 2
def IGNCR : ℕ := 8
def INLCR : ℕ := 32
def ISTRIP : ℕ := 128

def ISIG : ℕ := 1
def ECHO : ℕ := 8
def ECHOE : ℕ := 16
def ECHONL : ℕ := 64

def SIGCONT : ℕ := 5
def SIGINT : ℕ := 9
def SIGKILL : ℕ := 10
def SIGSTOP : ℕ := 14
def SIGTSTP : ℕ := 16

/-- `tty_t`, and the call of `tty_read` that waits on it. -/
structure Terminal where
  tty : Tty
  buffer : Mem
  count : ℕ
  bufferSize : ℕ
  charWidth : ℕ
  cursorPos : ℕ
  iflag : ℕ
  cc : ℕ → UInt8
  waiting : Option Waiting
  returns : List Return

/-- The part that `tty_write` uses. -/
def Terminal.out (current : Bool) (t : Terminal) : TtyOut where
  buffer := t.buffer
  count := t.count
  bufferSize := t.bufferSize
  charWidth := t.charWidth
  cursorPos := t.cursorPos
  lflag := t.tty.lflag
  foregroundProcesses := t.tty.foregroundProcesses
  current := current

def Terminal.setOut (o : TtyOut) (t : Terminal) : Terminal :=
  { t with buffer := o.buffer, count := o.count, bufferSize := o.bufferSize, cursorPos := o.cursorPos }

/-- What a call does: the terminal, the signals to a group and the screen. -/
structure Effect where
  term : Terminal
  signals : List (ℕ × ℕ)
  ops : List ScreenOp

/-- What the interrupt finds: the process that it interrupts, the stack of `tty_input` from its character on,
and the two blocks that may be allocated. -/
structure Frame where
  writer : Writer
  stack : Mem
  block : Mem
  streamBlock : Mem

/-- `tty_write` of the first `n` bytes at `m`. -/
def Terminal.write (f : Frame) (current : Bool) (m : Mem) (a n : ℕ) (t : Terminal) : Option Effect :=
  (ttyWrite f.writer f.block m a n (t.out current)).map fun r => ⟨t.setOut r.2.1, [], r.2.2⟩

/-- The branch of `VERASE`. -/
def Terminal.erase (t : Terminal) : Effect :=
  let terase := t.tty.canonBuffer (t.tty.canonBufferCount - 1)
  if t.tty.lflag &&& ICANON ≠ 0 ∧ t.tty.lflag &&& ECHOE ≠ 0 ∧ t.tty.canonBufferCount ≠ 0 ∧
      terase ≠ t.cc VEOF ∧ terase ≠ t.cc VEOL ∧ terase ≠ 10 then
    { term :=
        { t with
          tty :=
            { t.tty with
              canonBufferCount := t.tty.canonBufferCount - 1
              canonBuffer := Function.update t.tty.canonBuffer (t.tty.canonBufferCount - 1) 0 }
          count := sub32 t.count 1
          buffer := Function.update t.buffer (sub32 t.count 1) 0 }
      signals := []
      ops := if t.tty.lflag &&& ECHO ≠ 0 then [.putc 8] else [] }
  else ⟨t, [], []⟩

/-- The signal of a character, and what is shown of it. -/
def Terminal.signalOf (c : UInt8) (t : Terminal) : Option (ℕ × List UInt8) :=
  if t.tty.lflag &&& ISIG ≠ 0 ∧ t.tty.foregroundProcesses ≠ 0 then
    if c = t.cc VINTR then some (SIGINT, [94, 67, 10])
    else if c = t.cc VKILL then some (SIGKILL, [94, 85, 10])
    else if c = t.cc VSTART then some (SIGCONT, [94, 81, 10])
    else if c = t.cc VSTOP then some (SIGSTOP, [94, 83, 10])
    else if c = t.cc VSUSP then some (SIGTSTP, [94, 90, 10])
    else none
  else none

/-- The character as the input flags change it. -/
def Terminal.translate (c : UInt8) (t : Terminal) : Option UInt8 :=
  let c := if t.iflag &&& ISTRIP ≠ 0 then c &&& 127 else c
  let c := if t.iflag &&& INLCR ≠ 0 ∧ c = 10 then 13 else c
  if t.iflag &&& IGNCR ≠ 0 ∧ c = 13 then none
  else some (if t.iflag &&& ICRNL ≠ 0 ∧ c = 13 then 10 else c)

/-- `tty_write` of the character, if it is shown. -/
def Terminal.echo (f : Frame) (current : Bool) (c : UInt8) (t : Terminal) : Option Effect :=
  if t.tty.lflag &&& ECHO ≠ 0 ∨ (c = 10 ∧ t.tty.lflag &&& ICANON &&& ECHONL ≠ 0) then
    t.write f current (Function.update f.stack 0 c) 0 1
  else some ⟨t, [], []⟩

/-- The end of `tty_input`, for a character that is an input of the reader. -/
def Terminal.put (f : Frame) (current : Bool) (c : UInt8) (t : Terminal) : Option Effect :=
  (t.echo f current c).bind fun r =>
    (iostreamWrite [c] f.streamBlock (fun _ => 0) r.term.tty.keyboardStream).map fun reply =>
      { r with term := { r.term with tty := { r.term.tty with keyboardStream := reply.stream } } }

/-- `tty_input`. -/
def ttyInput (f : Frame) (current : Bool) (c : UInt8) (t : Terminal) : Option Effect :=
  match t.translate c with
  | none => some ⟨t, [], []⟩
  | some c =>
    if c = t.cc VERASE then some t.erase
    else
      match t.signalOf c with
      | some (sig, mark) =>
        let r := if t.tty.lflag &&& ECHO ≠ 0 then t.write f current (cstring mark) 0 3 else some ⟨t, [], []⟩
        r.map fun r => { r with signals := [(t.tty.foregroundProcesses, sig)] }
      | none => if c = t.cc VEOF then some ⟨t, [], []⟩ else t.put f current c

/-! ## The keyboard -/

structure Keyboard where
  maj : Bool
  ctrl : Bool
  alt : Bool
deriving DecidableEq, Repr

def azerKbdMap : List UInt8 :=
  [0, 0, 38, 130, 34, 39, 40, 45, 138, 95, 135, 133, 41, 61, 8, 9, 97, 122, 101, 114, 116, 121, 117, 105,
    111, 112, 94, 36, 10, 0, 113, 115, 100, 102, 103, 104, 106, 107, 108, 109, 151, 0, 0, 42, 119, 120, 99,
    118, 98, 110, 44, 59, 58, 33, 0, 0, 0, 32, 0, 0, 0, 0, 0, 0, 0, 0, 0, 0, 0, 0, 0, 0, 0, 0, 0, 0, 0, 0,
    0, 0, 0, 0, 0, 0, 0, 0, 60]

def azerMajKbdMap : List UInt8 :=
  [0, 0, 49, 50, 51, 52, 53, 54, 55, 56, 57, 48, 167, 43, 8, 9, 65, 90, 69, 82, 84, 89, 85, 73, 79, 80, 249,
    156, 10, 0, 81, 83, 68, 70, 71, 72, 74, 75, 76, 77, 37, 0, 0, 230, 87, 88, 67, 86, 66, 78, 63, 46, 47,
    245, 0, 0, 0, 32, 0, 0, 0, 0, 0, 0, 0, 0, 0, 0, 0, 0, 0, 0, 0, 0, 0, 0, 0, 0, 0, 0, 0, 0, 0, 0, 0, 0, 62]

def azerCtrlKbdMap : List UInt8 :=
  [0, 0, 0, 0, 0, 0, 0, 0, 0, 0, 0, 0, 0, 0, 0, 0, 0, 26, 0, 0, 0, 0, 21, 0, 0, 0, 0, 0, 0, 0, 17, 19, 4, 0, 0,
    8, 0, 0, 0, 0, 0, 0, 0, 0, 0, 0, 3, 0, 0, 0, 0, 0, 0, 0, 0, 0, 0, 0, 0, 0, 0, 0, 0, 0, 0, 0, 0, 0, 0, 0, 0,
    0, 0, 0, 0, 0, 0, 0, 0, 0, 0, 0, 0, 0, 0, 0, 0]

/-- `getchar`. The keycode 87 passes the test, and the byte behind the map is read. -/
def Keyboard.getchar (past : UInt8) (keycode : UInt8) (k : Keyboard) : UInt8 :=
  if keycode.toNat > 87 then 0
  else if k.maj then azerMajKbdMap.getD keycode.toNat past
  else if k.ctrl then azerCtrlKbdMap.getD keycode.toNat past
  else azerKbdMap.getD keycode.toNat past

/-- The flags behind a keycode. -/
def Keyboard.note (keycode : UInt8) (k : Keyboard) : Keyboard where
  maj := if keycode = 42 ∨ keycode = 170 ∨ keycode = 58 then !k.maj else k.maj
  ctrl := if keycode = 0x1D then true else if keycode = 0x9D then false else k.ctrl
  alt := if keycode = 0x38 then true else if keycode = 0xB8 then false else k.alt

/-- The terminal that the keys ask for. -/
def Keyboard.switch (keycode : UInt8) (k : Keyboard) : Option (Fin 3) :=
  if k.ctrl && k.alt then
    if keycode = 0x3B then some 0
    else if keycode = 0x3C then some 1
    else if keycode = 0x3D then some 2
    else none
  else none

/-- The keyboard, the terminals, the current one of them, the screen and the signals that were sent. -/
structure Desk where
  keyboard : Keyboard
  ttys : Fin 3 → Terminal
  current : Fin 3
  screen : Screen
  signals : List (ℕ × ℕ)

/-- `tty_switch`. -/
def Desk.ttySwitch (k : Fin 3) (d : Desk) : Desk :=
  if k ≠ d.current then
    { d with current := k, screen := d.screen.reset.puts (d.ttys k).buffer 0 7 }
  else d

/-- What a call on the terminal `k` leaves. -/
def Desk.settle (k : Fin 3) (d : Desk) (r : Effect) : Desk :=
  { d with
    ttys := Function.update d.ttys k r.term
    screen := r.ops.foldl Screen.apply d.screen
    signals := d.signals ++ r.signals }

/-- `keyboard_interrupt`. -/
def Desk.keyboardInterrupt (f : Frame) (past keycode : UInt8) (d : Desk) : Option Desk :=
  let d := { d with keyboard := d.keyboard.note keycode }
  match d.keyboard.switch keycode with
  | some k => some (d.ttySwitch k)
  | none =>
    let ch := d.keyboard.getchar past keycode
    if ch ≠ 0 then (ttyInput f true ch (d.ttys d.current)).map (d.settle d.current) else some d

/-- What happens on the terminals. A process writes, or reads, and a call that waits goes on; `tty_ioctl` changes
the foreground group. -/
inductive DeskAct
  | scan (f : Frame) (keycode : UInt8)
  | write (k : Fin 3) (f : Frame) (m : Mem) (a n : ℕ)
  | read (k : Fin 3) (group count : ℕ) (hcount : count < 2 ^ 32) (caller : Mem)
  | resume (k : Fin 3) (block : Mem)
  | setpgrp (k : Fin 3) (group : ℕ)

def Terminal.settle (t : Terminal) : Tty × (Waiting ⊕ Return) → Terminal
  | (tty, .inl w) => { t with tty := tty, waiting := some w }
  | (tty, .inr r) => { t with tty := tty, waiting := none, returns := t.returns ++ [r] }

/-- One call of `tty_read` at a time waits on a terminal. -/
def Desk.step (past : UInt8) (d : Desk) : DeskAct → Option Desk
  | .scan f keycode => d.keyboardInterrupt f past keycode
  | .write k f m a n => ((d.ttys k).write f (k == d.current) m a n).map (d.settle k)
  | .read k group count _ caller =>
    match (d.ttys k).waiting with
    | none => some (d.settle k ⟨(d.ttys k).settle (ttyRead group count caller (d.ttys k).tty), [], []⟩)
    | some _ => none
  | .resume k block =>
    match (d.ttys k).waiting with
    | none => none
    | some w => (ttyResume block (d.ttys k).tty w).map fun o => d.settle k ⟨(d.ttys k).settle o, [], []⟩
  | .setpgrp k group =>
    some (d.settle k ⟨{ d.ttys k with tty := { (d.ttys k).tty with foregroundProcesses := group } }, [], []⟩)

/-- The control characters that `tty_init` sets. -/
def initialCc (i : ℕ) : UInt8 :=
  if i = VEOF then 4 else if i = VERASE then 8 else if i = VINTR then 3 else if i = VKILL then 21
  else if i = 6 then 1 else if i = 7 then 28 else if i = VSTART then 17 else if i = VSTOP then 19
  else if i = VSUSP then 26 else 0

/-- The name of a terminal, and what `tty_init` writes to it. -/
def banner (k : Fin 3) : List UInt8 :=
  [86, 75, 32, 48, 46, 48, 45, 105, 110, 100, 101, 118, 32, 40] ++
    [116, 116, 121, UInt8.ofNat (49 + k)] ++ [41, 10]

/-- A terminal behind `tty_init`, with what its blocks hold from before. -/
def Terminal.start (block canon keyboard : Mem) (k : Fin 3) : Terminal where
  tty := (Session.start canon keyboard 0).tty
  buffer := ((Logged.start block).puts 0 (banner k)).mem
  count := (banner k).length
  bufferSize := 1024
  charWidth := 80
  cursorPos := 0
  iflag := 3
  cc := initialCc
  waiting := none
  returns := []

/-- The terminals behind `ttys_init`, in front of a screen. -/
def Desk.start (blocks : Fin 3 → Mem × Mem × Mem) (screen : Screen) : Desk where
  keyboard := ⟨false, false, false⟩
  ttys k := Terminal.start (blocks k).1 (blocks k).2.1 (blocks k).2.2 k
  current := 0
  screen := screen
  signals := []

end VkKernel.Io
