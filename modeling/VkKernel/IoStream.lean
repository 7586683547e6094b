import VkKernel.Lib.StoreLog
import VkKernel.Lib.Trace
import VkKernel.State

/-!
# I/O streams

A stream keeps its bytes at the start of a block, and a read moves the rest down. The block is
doubled once when a write does not fit, and `iostream_read` tests its attributes with `|`.
-/

namespace VkKernel.Io
open ByteMemory StoreLog

/-! ## The stream -/

def attrBlockingRead : ℕ := 1
def attrBlockingWrite : ℕ := 2
def attrAutoexpand : ℕ := 4
def attrOneByte : ℕ := 8

/-- `io_stream_t`, without the list of the threads that wait. -/
structure IoStream where
  buffer : Mem
  bufferSize : ℕ
  count : ℕ
  attributes : ℕ

/-- `iostream_alloc`, with what the block holds from before. -/
def iostreamAlloc (block : Mem) : IoStream := ⟨block, 100, 0, attrBlockingRead ||| attrAutoexpand⟩

/-- `krealloc`. Behind the old contents is what the new block holds from before. -/
def krealloc (ptr : Mem) (oldSize size : ℕ) (block : Mem) : Mem := fun x =>
  if x < oldSize ∧ x < size then ptr x else block x

inductive ErrorT
  | none
  | fileFsInternal
  | fileOut
  | eof
  | io
  | unknownError
deriving DecidableEq, Repr

/-- What a call returns and where it stores. -/
structure Reply where
  status : ErrorT
  stream : IoStream
  /-- The places in the buffer of the stream. -/
  stored : List ℕ
  caller : Logged
  /-- The bytes that the caller gets. -/
  delivered : List UInt8

/-- `!attributes & IOSTREAM_ATTR_BLOCKING_READ`, where `!` comes first. -/
def notBlockingRead (attributes : ℕ) : Prop := (if attributes = 0 then 1 else 0) &&& attrBlockingRead ≠ 0

instance (attributes : ℕ) : Decidable (notBlockingRead attributes) := inferInstanceAs (Decidable (_ ≠ _))

/-- The bytes behind the first `n` ones move down. -/
def IoStream.shift (s : IoStream) (n : ℕ) : IoStream × List ℕ :=
  let moved := (Logged.start s.buffer).move 0 n (s.count - n)
  ({ s with buffer := moved.mem, count := s.count - n }, moved.log)

/-- `iostream_getch`. There is no byte while the thread has to wait. -/
def iostreamGetch (s : IoStream) : Option (UInt8 × IoStream × List ℕ) :=
  if s.count ≠ 0 then some (s.buffer 0, s.shift 1)
  else if notBlockingRead s.attributes then some (0, s, [])
  else none

/-- The end of `iostream_write`, for a buffer with room. -/
def IoStream.append (bytes : List UInt8) (caller : Mem) (s : IoStream) : Reply :=
  let copied := (Logged.start s.buffer).puts s.count bytes
  ⟨.none, { s with buffer := copied.mem, count := u32 (s.count + bytes.length) }, copied.log,
    Logged.start caller, []⟩

/-- `iostream_write`. There is no reply while it waits for room. -/
def iostreamWrite (bytes : List UInt8) (block caller : Mem) (s : IoStream) : Option Reply :=
  if u32 (s.count + bytes.length) > s.bufferSize then
    if s.attributes &&& attrAutoexpand ≠ 0 then
      let size := u32 (s.bufferSize * 2)
      some (IoStream.append bytes caller
        { s with bufferSize := size, buffer := krealloc s.buffer s.bufferSize size block })
    else if s.attributes &&& attrBlockingWrite ≠ 0 then none
    else some ⟨.fileOut, s, [], Logged.start caller, []⟩
  else some (IoStream.append bytes caller s)

/-- `iostream_read`. There is no reply while the thread has to wait. -/
def iostreamRead (count : ℕ) (caller : Mem) (s : IoStream) : Option Reply :=
  if s.attributes ||| attrOneByte ≠ 0 ∧ count > 1 then
    some ⟨.fileFsInternal, s, [], Logged.start caller, []⟩
  else if s.count ≠ 0 then
    let countmin := if count > s.count then s.count else count
    let copied := (Logged.start caller).puts 0 (slice s.buffer 0 countmin)
    -- the zeroes go behind the caller's bytes, not behind the copied ones
    let filled := if s.count < count then copied.puts count (List.replicate (count - s.count) 0) else copied
    let (stream, stored) := s.shift countmin
    some ⟨.none, stream, stored, filled, slice filled.mem 0 countmin⟩
  else if notBlockingRead s.attributes then some ⟨.eof, s, [], Logged.start caller, []⟩
  else none

/-! ## Runs -/

/-- A call, with the contents of the memory that it finds. -/
inductive Call
  | write (bytes : List UInt8) (block : Mem)
  | read (count : ℕ) (caller : Mem)
  | getch

/-- The bytes that a call writes. -/
def Call.written : Call → List UInt8
  | .write bytes _ => bytes
  | _ => []

/-- The size of the caller's buffer. -/
def Call.size : Call → ℕ
  | .write bytes _ => bytes.length
  | .read count _ => count
  | .getch => 1

/-- The bytes that a call asks for. -/
def Call.wanted : Call → ℕ
  | .write _ _ => 0
  | c => c.size

/-- At least one byte, and a count of 32 bits. -/
def Call.Valid (c : Call) : Prop := 1 ≤ c.size ∧ c.size < 2 ^ 32

def Call.reply (s : IoStream) : Call → Option Reply
  | .write bytes block => iostreamWrite bytes block (fun _ => 0) s
  | .read count caller => iostreamRead count caller s
  | .getch => (iostreamGetch s).map fun (c, stream, stored) =>
    ⟨.none, stream, stored, Logged.start fun _ => 0, [c]⟩

/-- A call that has been made. -/
structure Event where
  call : Call
  before : IoStream
  reply : Reply

/-- A stream, and the calls so far. -/
structure History where
  stream : IoStream
  events : List Event

def History.written (h : History) : List UInt8 := (h.events.map fun e => e.call.written).flatten
def History.delivered (h : History) : List UInt8 := (h.events.map fun e => e.reply.delivered).flatten

def History.step (h : History) (c : { c : Call // c.Valid }) : Option History :=
  (c.val.reply h.stream).map fun r => ⟨r.stream, h.events ++ [⟨c.val, h.stream, r⟩]⟩

/-- The stream of `iostream_alloc`. -/
def History.start (block : Mem) : History := ⟨iostreamAlloc block, []⟩

/-! ## The byte queue -/

/-- The bytes of the stream, the oldest one first. -/
def IoStream.contents (s : IoStream) : List UInt8 := slice s.buffer 0 s.count

/-- One call does what a queue of bytes does, and stores where it may. -/
structure Event.Answers (e : Event) : Prop where
  status : e.reply.status = .none
  count_le : e.reply.stream.count ≤ e.reply.stream.bufferSize
  delivered : e.reply.delivered = e.before.contents.take e.call.wanted
  stored : ∀ y ∈ e.reply.stored, y < e.reply.stream.bufferSize
  caller : ∀ y ∈ e.reply.caller.log, y < e.call.size

/-- All calls so far did, and the bytes read are the first ones of those written. -/
structure History.IsQueue (h : History) : Prop where
  count_le : h.stream.count ≤ h.stream.bufferSize
  answers : ∀ e ∈ h.events, e.Answers
  delivered : h.delivered <+: h.written

/-- A read of one byte, or a write that fits after doubling the buffer at most once. -/
def IoStream.Fits (s : IoStream) : Call → Prop
  | .write bytes _ => s.count + bytes.length ≤ s.bufferSize ∨
      (s.count + bytes.length ≤ 2 * s.bufferSize ∧ 2 * s.bufferSize < 2 ^ 32)
  | .read count _ => count = 1
  | .getch => True

/-- What the calls keep of a stream that expands. -/
structure IoStream.Sound (s : IoStream) : Prop where
  autoexpand : s.attributes &&& attrAutoexpand ≠ 0
  size : s.bufferSize < 2 ^ 32
  count_le : s.count ≤ s.bufferSize

section Calls
variable {s : IoStream} {bytes : List UInt8} {block caller : Mem} {n : ℕ} {r : Reply}

theorem contents_split (h : n ≤ s.count) :
    s.contents = slice s.buffer 0 n ++ slice s.buffer n (s.count - n) := by
  have hadd := slice_add s.buffer 0 n (s.count - n)
  rw [Nat.add_sub_cancel' h, Nat.zero_add] at hadd
  exact hadd

theorem take_contents (h : n ≤ s.count) : s.contents.take n = slice s.buffer 0 n := by
  rw [contents_split h]
  exact List.take_left' (length_slice _ _ _)

theorem shift_contents (h : n ≤ s.count) : (s.shift n).1.contents = s.contents.drop n := by
  have hmove : (s.shift n).1.contents = slice s.buffer n (s.count - n) := by
    unfold IoStream.shift IoStream.contents
    dsimp only
    rw [Logged.move_eq_puts (Nat.zero_le n)]
    have hslice := Logged.slice_puts (Logged.start s.buffer) 0 (slice s.buffer n (s.count - n))
    rwa [length_slice] at hslice
  rw [hmove, contents_split h]
  exact (List.drop_left' (length_slice _ _ _)).symm

theorem shift_stored {y : ℕ} (h : y ∈ (s.shift n).2) : y < s.count - n := by
  unfold IoStream.shift at h
  dsimp only at h
  rw [Logged.move_eq_puts (Nat.zero_le n), Logged.mem_log_puts, length_slice] at h
  rcases h with h | h
  · omega
  · exact absurd h List.not_mem_nil

/-- A read takes the oldest bytes away. -/
theorem shift_sound (h : s.Sound) : (s.shift n).1.Sound :=
  ⟨h.autoexpand, h.size, (Nat.sub_le _ _).trans h.count_le⟩

theorem append_contents (h : s.count + bytes.length < 2 ^ 32) :
    (IoStream.append bytes caller s).stream.contents = s.contents ++ bytes := by
  unfold IoStream.append IoStream.contents
  dsimp only
  rw [u32_of_lt h, slice_add, Nat.zero_add, Logged.slice_puts]
  apply congrArg (· ++ bytes)
  exact slice_congr fun x _ hx => Logged.puts_mem_of_out (by omega)

theorem mem_append_stored {y : ℕ} :
    y ∈ (IoStream.append bytes caller s).stored ↔ s.count ≤ y ∧ y < s.count + bytes.length := by
  unfold IoStream.append
  dsimp only
  rw [Logged.mem_log_puts]
  exact or_iff_left List.not_mem_nil

theorem not_notBlockingRead (h : s.Sound) : ¬notBlockingRead s.attributes := by
  have hzero : s.attributes ≠ 0 := by
    intro hzero
    apply h.autoexpand
    rw [hzero, Nat.zero_and]
  unfold notBlockingRead
  rw [if_neg hzero, Nat.zero_and]
  exact not_not_intro rfl

/-- A byte comes from the start of the buffer. -/
theorem getch_eq_some {c : UInt8} {t : IoStream × List ℕ} (h : s.Sound) (hget : iostreamGetch s = some (c, t)) :
    s.count ≠ 0 ∧ c = s.buffer 0 ∧ t = s.shift 1 := by
  unfold iostreamGetch at hget
  by_cases hcount : s.count ≠ 0
  · rw [if_pos hcount, Option.some.injEq, Prod.mk.injEq] at hget
    exact ⟨hcount, hget.1.symm, hget.2.symm⟩
  · rw [if_neg hcount, if_neg (not_notBlockingRead h)] at hget
    exact absurd hget nofun

/-- The byte is the oldest one. -/
theorem getch_contents {c : UInt8} {stream : IoStream} {stored : List ℕ} (h : s.Sound)
    (hget : iostreamGetch s = some (c, stream, stored)) : stream.Sound ∧ s.contents = c :: stream.contents := by
  obtain ⟨hcount, hc, hshift⟩ := getch_eq_some h hget
  have hstream : stream = (s.shift 1).1 := congrArg Prod.fst hshift
  have hpos : 1 ≤ s.count := Nat.pos_of_ne_zero hcount
  have hfirst : s.contents.take 1 = [c] := by
    rw [take_contents hpos, hc]
    rfl
  refine ⟨hstream ▸ shift_sound h, ?_⟩
  rw [hstream, shift_contents hpos, ← List.singleton_append, ← hfirst, List.take_append_drop]

/-- One call answers as a queue does, and the bytes go on as in a queue. -/
structure Keeps (c : Call) (s : IoStream) (r : Reply) : Prop where
  answers : Event.Answers ⟨c, s, r⟩
  sound : r.stream.Sound
  kept : s.contents ++ c.written = r.delivered ++ r.stream.contents

/-- A call that takes the oldest byte away. -/
theorem keeps_of_shift {c : Call} (h : s.Sound) (hcount : s.count ≠ 0) (hwanted : c.wanted = 1)
    (hwritten : c.written = []) (hstatus : r.status = .none) (hstream : r.stream = (s.shift 1).1)
    (hstored : r.stored = (s.shift 1).2) (hdelivered : r.delivered = slice s.buffer 0 1)
    (hcaller : ∀ y ∈ r.caller.log, y < c.size) : Keeps c s r := by
  have hpos : 1 ≤ s.count := Nat.pos_of_ne_zero hcount
  have hsound : (s.shift 1).1.Sound := shift_sound h
  refine ⟨⟨hstatus, ?_, ?_, fun y hy => ?_, hcaller⟩, hstream ▸ hsound, ?_⟩
  · dsimp only
    rw [hstream]
    exact hsound.count_le
  · dsimp only
    rw [hwanted, take_contents hpos, hdelivered]
  · dsimp only at hy ⊢
    rw [hstored] at hy
    rw [hstream]
    have hsmall : y < (s.shift 1).1.count := shift_stored hy
    have := hsound.count_le
    omega
  · rw [hwritten, List.append_nil, hdelivered, hstream, shift_contents hpos, ← take_contents hpos,
      List.take_append_drop]

theorem getch_keeps (h : s.Sound) (hr : Call.reply s .getch = some r) : Keeps .getch s r := by
  have hget : ∃ c stream stored, iostreamGetch s = some (c, stream, stored) ∧
      r = ⟨.none, stream, stored, Logged.start fun _ => 0, [c]⟩ := by
    obtain ⟨⟨c, stream, stored⟩, hget, heq⟩ := Option.map_eq_some_iff.mp hr
    exact ⟨c, stream, stored, hget, heq.symm⟩
  obtain ⟨c, stream, stored, hget, hreply⟩ := hget
  obtain ⟨hcount, hc, hshift⟩ := getch_eq_some h hget
  subst hreply
  refine keeps_of_shift h hcount rfl rfl rfl (congrArg Prod.fst hshift) (congrArg Prod.snd hshift) ?_
    fun y hy => absurd hy List.not_mem_nil
  rw [hc]
  rfl

/-- A read of one byte. -/
theorem read_keeps (h : s.Sound) (hr : iostreamRead 1 caller s = some r) :
    Keeps (.read 1 caller) s r := by
  unfold iostreamRead at hr
  rw [if_neg (fun hone => absurd hone.2 (lt_irrefl 1))] at hr
  by_cases hcount : s.count ≠ 0
  · have hpos : ¬1 > s.count := by omega
    have hfull : ¬s.count < 1 := by omega
    rw [if_pos hcount] at hr
    dsimp only at hr
    rw [if_neg hpos, if_neg hfull, Option.some.injEq] at hr
    subst hr
    have hslice := Logged.slice_puts (Logged.start caller) 0 (slice s.buffer 0 1)
    rw [length_slice] at hslice
    apply keeps_of_shift h hcount rfl rfl rfl rfl rfl hslice
    intro y hy
    rw [Logged.mem_log_puts, length_slice] at hy
    rcases hy with hy | hy
    · exact hy.2
    · exact absurd hy List.not_mem_nil
  · rw [if_neg hcount, if_neg (not_notBlockingRead h)] at hr
    exact absurd hr nofun

/-- The attribute test lets no other read through. -/
theorem read_fits (h : 1 ≤ n) (hr : iostreamRead n caller s = some r)
    (ha : Event.Answers ⟨.read n caller, s, r⟩) : n = 1 := by
  by_contra hn
  have htest : s.attributes ||| attrOneByte ≠ 0 ∧ n > 1 := by
    refine ⟨fun hzero => ?_, by omega⟩
    have hbit := @Nat.right_le_or s.attributes attrOneByte
    rw [hzero] at hbit
    exact absurd hbit (by decide)
  unfold iostreamRead at hr
  rw [if_pos htest, Option.some.injEq] at hr
  have hstatus := ha.status
  rw [← hr] at hstatus
  exact absurd hstatus nofun

theorem append_keeps {s' : IoStream} (h : s'.Sound) (hcontents : s'.contents = s.contents)
    (hfit : s'.count + bytes.length ≤ s'.bufferSize) :
    Keeps (.write bytes block) s (IoStream.append bytes caller s') := by
  have h32 : s'.count + bytes.length < 2 ^ 32 := lt_of_le_of_lt hfit h.size
  have hcount : (IoStream.append bytes caller s').stream.count = s'.count + bytes.length := u32_of_lt h32
  have hle : (IoStream.append bytes caller s').stream.count ≤ s'.bufferSize := hcount.trans_le hfit
  refine ⟨⟨rfl, hle, rfl, fun y hy => ?_, fun y hy => absurd hy List.not_mem_nil⟩,
    ⟨h.autoexpand, h.size, hle⟩, ?_⟩
  · have hplace := mem_append_stored.mp hy
    exact lt_of_lt_of_le hplace.2 hfit
  · rw [append_contents h32, hcontents]
    rfl

theorem write_delivered (hr : iostreamWrite bytes block caller s = some r) : r.delivered = [] := by
  unfold iostreamWrite at hr
  split_ifs at hr
  all_goals
    rw [Option.some.injEq] at hr
    subst hr
    rfl

/-- A write that fits, with or without the doubling. -/
theorem write_keeps (h : s.Sound) (hfit : s.Fits (.write bytes block))
    (hr : iostreamWrite bytes block (fun _ => 0) s = some r) : Keeps (.write bytes block) s r := by
  have hcount := h.count_le
  have hsize := h.size
  unfold iostreamWrite at hr
  by_cases hroom : s.count + bytes.length ≤ s.bufferSize
  · rw [u32_of_lt (by omega), if_neg (by omega), Option.some.injEq] at hr
    exact hr ▸ append_keeps h rfl hroom
  · have hdouble := hfit.resolve_left hroom
    have hdoubled : u32 (s.bufferSize * 2) = 2 * s.bufferSize := by
      rw [Nat.mul_comm]
      exact u32_of_lt hdouble.2
    rw [u32_of_lt (by omega), if_pos (by omega), if_pos h.autoexpand] at hr
    dsimp only at hr
    rw [hdoubled, Option.some.injEq] at hr
    rw [← hr]
    apply append_keeps
    · exact ⟨h.autoexpand, hdouble.2, by dsimp only; omega⟩
    · apply slice_congr
      intro x _ hx
      exact if_pos (by dsimp only at hx; omega)
    · exact hdouble.1

/-- A write that does not fit stores its last byte behind the buffer. -/
theorem write_fits (h : s.Sound) (hpos : 1 ≤ bytes.length)
    (hr : iostreamWrite bytes block (fun _ => 0) s = some r)
    (ha : Event.Answers ⟨.write bytes block, s, r⟩) : s.Fits (.write bytes block) := by
  have hsize := h.size
  have hstored := ha.stored
  unfold iostreamWrite at hr
  split_ifs at hr with hover
  · rw [Option.some.injEq] at hr
    rw [← hr] at hstored
    have hlast := hstored (s.count + bytes.length - 1) (mem_append_stored.mpr (by dsimp only; omega))
    have hlast' : s.count + bytes.length - 1 < u32 (s.bufferSize * 2) := hlast
    unfold IoStream.Fits
    unfold u32 at hlast'
    omega
  · exact absurd h.autoexpand (by assumption)
  · rw [Option.some.injEq] at hr
    rw [← hr] at hstored
    have hlast := hstored (s.count + bytes.length - 1) (mem_append_stored.mpr (by omega))
    have hlast' : s.count + bytes.length - 1 < s.bufferSize := hlast
    exact .inl (by omega)

/-- A step of a sound stream keeps it a queue exactly if the call fits. -/
theorem keeps_iff_fits {c : Call} (h : s.Sound) (hc : c.Valid) (hr : Call.reply s c = some r) :
    (s.Fits c → Keeps c s r) ∧ (Event.Answers ⟨c, s, r⟩ → s.Fits c) := by
  cases c with
  | write bytes block => exact ⟨fun hfit => write_keeps h hfit hr, write_fits h hc.1 hr⟩
  | read count caller =>
    refine ⟨fun hfit => ?_, read_fits hc.1 hr⟩
    have hone : count = 1 := hfit
    subst hone
    exact read_keeps h hr
  | getch => exact ⟨fun _ => getch_keeps h hr, fun _ => trivial⟩

end Calls

/-! ## Runs of calls -/

/-- A sound stream after calls that answered. -/
structure History.Inv (h : History) : Prop where
  sound : h.stream.Sound
  answers : ∀ e ∈ h.events, e.Answers
  kept : h.written = h.delivered ++ h.stream.contents

theorem History.Inv.isQueue {h : History} (hinv : h.Inv) : h.IsQueue :=
  ⟨hinv.sound.count_le, hinv.answers, _, hinv.kept.symm⟩

theorem History.inv_start (block : Mem) : (History.start block).Inv := by
  have hbit : (attrBlockingRead ||| attrAutoexpand) &&& attrAutoexpand ≠ 0 := by decide
  refine ⟨⟨hbit, by norm_num [History.start, iostreamAlloc], Nat.zero_le _⟩,
    fun e he => absurd he List.not_mem_nil, rfl⟩

theorem History.Inv.step {h h' : History} {c : { c : Call // c.Valid }} (hinv : h.Inv)
    (hfit : h.stream.Fits c.val) (hstep : h.step c = some h') : h'.Inv := by
  unfold History.step at hstep
  rw [Option.map_eq_some_iff] at hstep
  obtain ⟨r, hr, rfl⟩ := hstep
  have hkeeps := (keeps_iff_fits hinv.sound c.property hr).1 hfit
  refine ⟨hkeeps.sound, fun e he => ?_, ?_⟩
  · rw [List.mem_append, List.mem_singleton] at he
    rcases he with he | he
    · exact hinv.answers e he
    · exact he ▸ hkeeps.answers
  · have hkept := hinv.kept
    unfold History.written History.delivered at hkept ⊢
    dsimp only
    rw [List.map_append, List.map_append, List.flatten_append, List.flatten_append, hkept]
    simp only [List.map_cons, List.map_nil, List.flatten_cons, List.flatten_nil, List.append_nil,
      List.append_assoc]
    rw [hkeeps.kept]

theorem History.fits_of_isQueue {h h' : History} {c : { c : Call // c.Valid }} (hinv : h.Inv)
    (hstep : h.step c = some h') (hq : h'.IsQueue) : h.stream.Fits c.val := by
  unfold History.step at hstep
  rw [Option.map_eq_some_iff] at hstep
  obtain ⟨r, hr, rfl⟩ := hstep
  apply (keeps_iff_fits hinv.sound c.property hr).2
  exact hq.answers _ (List.mem_append_right _ (List.mem_singleton_self _))

/-- A stream is a queue throughout a run exactly if every call of the run fits. -/
theorem isQueue_iff (block : Mem) (calls : List { c : Call // c.Valid }) :
    Trace.Always History.step History.IsQueue (History.start block) calls ↔
      Trace.AllSteps History.step (fun h c => h.stream.Fits c.val) (History.start block) calls := by
  apply Trace.always_iff_allSteps (J := History.Inv)
  · exact fun h hinv => hinv.isQueue
  · exact fun h c h' hinv hfit hstep => hinv.step hfit hstep
  · exact fun h c h' hinv hfit hstep hq => hfit (History.fits_of_isQueue hinv hstep hq)
  · exact History.inv_start block

/-- Two bytes are written, and a read of two bytes is refused. -/
theorem not_isQueue_read_two :
    ¬Trace.Always History.step History.IsQueue (History.start fun _ => 0)
      [⟨.write [1, 2] fun _ => 0, by norm_num [Call.Valid, Call.size]⟩,
        ⟨.read 2 fun _ => 0, by norm_num [Call.Valid, Call.size]⟩] := by
  intro h
  have hwritten := h.2 _ rfl
  have hread := (hwritten.2 _ rfl).head
  have hstatus := (hread.answers _ (List.mem_append_right _ (List.mem_singleton_self _))).status
  exact absurd hstatus nofun

end VkKernel.Io
