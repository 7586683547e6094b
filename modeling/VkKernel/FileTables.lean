import VkKernel.Lib.Trace
import VkKernel.State

/-!
# File descriptor tables

The array `files` of a process holds pointers to `fd_t` objects, which count the slots
that point to them. The words of the array are those of the memory behind `files`, so
slots behind `files_size` can be read, and a table that has grown holds in its new slots
what the memory held before, but for the bytes that are cleared.
-/

namespace VkKernel
open Trace

/-- Slots are addresses of `fd_t` objects, 0 being the null pointer. -/
structure FdTable where
  files : ℕ → ℕ
  filesSize : ℕ
  filesCount : ℕ

/-- `descriptors` are the `fd_t` objects that are allocated. `outside` and `misplaced` are
ghost state: a slot behind the end of a table has been used, and a system call has
returned the number of a slot that does not hold the new descriptor. -/
structure FdState where
  tables : ℕ → FdTable
  processes : Finset ℕ
  instances : ℕ → ℕ
  descriptors : Finset ℕ
  outside : Bool
  misplaced : Bool

/-- `n--` on 32 bits. -/
def decr32 (n : ℕ) : ℕ := if n = 0 then 2 ^ 32 - 1 else n - 1

/-- `memset(files + start, 0, n)`, `start` being a number of slots and `n` of bytes. -/
def clearSlots (start n : ℕ) (files : ℕ → ℕ) : ℕ → ℕ := fun i =>
  if i < start ∨ start + (n + 3) / 4 ≤ i then files i
  else if 4 * (i - start) + 4 ≤ n then 0
  else files i / 256 ^ (n % 4) * 256 ^ (n % 4)

namespace FdTable

/-- The array after `krealloc`, where `g` is what the new memory holds. -/
def double (t : FdTable) (g : ℕ → ℕ) : FdTable :=
  { t with
    files := fun i => if i < t.filesSize then t.files i else g i
    filesSize := 2 * t.filesSize }

/-- The growth in `syscall_open`: the sizes are those of `fd_t` objects, five words each. -/
def growOpen (t : FdTable) (g : ℕ → ℕ) : FdTable :=
  { t.double g with
    files := clearSlots (5 * t.filesSize) (20 * t.filesSize) (t.double g).files }

/-- The growth in `syscall_dup`: as many bytes are cleared as there are new slots. -/
def growDup (t : FdTable) (g : ℕ → ℕ) : FdTable :=
  { t.double g with files := clearSlots t.filesSize t.filesSize (t.double g).files }

/-- The loop in `syscall_dup` for a chosen slot. -/
def growTo (n : ℕ) (g : ℕ → ℕ → ℕ) : ℕ → FdTable → Option FdTable
  | 0, _ => none
  | fuel + 1, t => if t.filesSize < n then growTo n g fuel (t.growDup (g t.filesSize)) else some t

/-- The loop that looks for a free slot. -/
def freeSlot (files : ℕ → ℕ) : ℕ → ℕ → ℕ
  | 0, i => i
  | n + 1, i => if files i = 0 then i else freeSlot files n (i + 1)

def slotFor (t : FdTable) : ℕ := freeSlot t.files (t.filesSize - 3) 3

/-- The descriptor is put into a free slot if there is one, and counted. -/
def place (t : FdTable) (f : ℕ) : FdTable :=
  { t with
    files := if t.slotFor < t.filesSize then Function.update t.files t.slotFor f else t.files
    filesCount := t.filesCount + 1 }

end FdTable

namespace FdState

def setTable (s : FdState) (p : ℕ) (t : FdTable) : FdState :=
  { s with tables := Function.update s.tables p t }

/-- The state with other `fd_t` objects. -/
def withFds (s : FdState) (instances : ℕ → ℕ) (descriptors : Finset ℕ) : FdState :=
  { s with instances := instances, descriptors := descriptors }

/-- `close_file` -/
def closeFile (s : FdState) (f : ℕ) : FdState :=
  s.withFds (Function.update s.instances f (decr32 (s.instances f)))
    (if decr32 (s.instances f) = 0 then s.descriptors.erase f else s.descriptors)

/-- `f->instances++` -/
def addInstance (s : FdState) (f : ℕ) : FdState :=
  s.withFds (Function.update s.instances f (s.instances f + 1)) s.descriptors

/-- Use slot `i` of a table of this size. -/
def useSlot (s : FdState) (i size : ℕ) : FdState := { s with outside := s.outside || decide (size ≤ i) }

/-- The end of `syscall_open`, `syscall_openio` and `syscall_dup`: the descriptor is put
into the table `t`, and the number of its slot is returned. -/
def placeIn (s : FdState) (p : ℕ) (t : FdTable) (f : ℕ) : FdState :=
  { s.setTable p (t.place f) with
    misplaced := s.misplaced ||
      !decide (t.slotFor < t.filesSize ∧ (t.place f).files t.slotFor = f) }

/-- A new `fd_t` object. -/
def allocFd (s : FdState) (f n : ℕ) : FdState :=
  s.withFds (Function.update s.instances f n) (insert f s.descriptors)

end FdState

/-- A system call of process `p`. `file` and `addr` are the addresses of new `fd_t` objects,
`word` is what the memory of a new object held at its field `instances`, and `g` is what
the memory of a grown array held. `lookup` stands for the calls that only use a slot,
with or without evaluating both sides of the check. -/
inductive FdCall
  | openFile (p file : ℕ) (g : ℕ → ℕ)
  | close (p ebx : ℕ)
  | openio (p file word : ℕ) (g : ℕ → ℕ)
  | dup (p ebx ecx : ℕ) (g : ℕ → ℕ → ℕ)
  | lookup (p ebx : ℕ) (both : Bool)
  | fork (p child : ℕ) (addr : ℕ → ℕ)
  | exit (p : ℕ)

namespace FdState

/-- `syscall_open` after `open_file` has returned `file`. -/
def syscallOpen (s : FdState) (p file : ℕ) (g : ℕ → ℕ) : FdState :=
  if file = 0 then s
  else
    let t := s.tables p
    let t := if t.filesCount = t.filesSize then t.growOpen g else t
    (s.allocFd file 1).placeIn p t file

def syscallClose (s : FdState) (p ebx : ℕ) : FdState :=
  let t := s.tables p
  if 3 ≤ ebx ∧ ebx ≤ t.filesSize then
    let s := s.useSlot ebx t.filesSize
    if t.files ebx ≠ 0 then
      (s.setTable p { t with
        files := Function.update t.files ebx 0
        filesCount := decr32 t.filesCount }).closeFile (t.files ebx)
    else s
  else s

/-- `syscall_openio`, which does not set `instances`. -/
def syscallOpenio (s : FdState) (p file word : ℕ) (g : ℕ → ℕ) : FdState :=
  let t := s.tables p
  let t := if t.filesCount = t.filesSize then t.double g else t
  (s.allocFd file word).placeIn p t file

/-- `syscall_dup` to the slot `ecx`; the slot is not counted. -/
def dupTo (s : FdState) (p oldf ecx : ℕ) (t : FdTable) : FdState :=
  let s := (s.useSlot ecx t.filesSize).addInstance oldf
  let s := if t.files ecx ≠ 0 then s.closeFile (t.files ecx) else s
  s.setTable p { t with files := Function.update t.files ecx oldf }

def syscallDup (s : FdState) (p ebx ecx : ℕ) (g : ℕ → ℕ → ℕ) : Option FdState :=
  let t := s.tables p
  let s := s.useSlot ebx t.filesSize
  let oldf := t.files ebx
  if t.filesSize < ebx ∨ oldf = 0 then some s
  else if ecx ≠ 0 then
    if ecx < 3 then some s else (FdTable.growTo ecx g ecx t).map (s.dupTo p oldf ecx)
  else
    let t := if t.filesCount = t.filesSize then t.growDup (g t.filesSize) else t
    some ((s.addInstance oldf).placeIn p t oldf)

/-- The calls that look up a descriptor: the check is
`(files_size < ebx) | (!files[ebx])`, or the same with `||`. -/
def lookup (s : FdState) (p ebx : ℕ) (both : Bool) : FdState :=
  let t := s.tables p
  if both = false ∧ t.filesSize < ebx then s else s.useSlot ebx t.filesSize

/-- The descriptors that `fork` copies, each with its count. -/
def copyFds (s : FdState) (files addr : ℕ → ℕ) (n : ℕ) : FdState :=
  (List.range n).foldl
    (fun s i => if files i ≠ 0 then s.allocFd (addr i) (s.instances (files i)) else s) s

def forkTables (s : FdState) (p child : ℕ) (addr : ℕ → ℕ) : FdState :=
  let t := s.tables p
  let s := s.copyFds t.files addr t.filesSize
  { s with
    tables := Function.update s.tables child
      { t with files := fun i => if i < t.filesSize ∧ t.files i ≠ 0 then addr i else 0 }
    processes := insert child s.processes }

/-- The loop of `exit_process` over the files. -/
def closeAll (s : FdState) (files : ℕ → ℕ) (n : ℕ) : FdState :=
  (List.range n).foldl (fun s i => if files i ≠ 0 then s.closeFile (files i) else s) s

/-- The part of `exit_process` that closes the files; the table is not used any more. -/
def exitTables (s : FdState) (p : ℕ) : FdState :=
  let t := s.tables p
  let s := s.closeAll t.files t.filesSize
  { s with processes := s.processes.erase p }

/-- Objects that are allocated are new. -/
def step (s : FdState) : FdCall → Option FdState
  | .openFile p file g =>
    if p ∈ s.processes ∧ file ∉ s.descriptors then some (s.syscallOpen p file g) else none
  | .close p ebx => if p ∈ s.processes then some (s.syscallClose p ebx) else none
  | .openio p file word g =>
    if p ∈ s.processes ∧ file ≠ 0 ∧ file ∉ s.descriptors then some (s.syscallOpenio p file word g)
    else none
  | .dup p ebx ecx g => if p ∈ s.processes then s.syscallDup p ebx ecx g else none
  | .lookup p ebx both => if p ∈ s.processes then some (s.lookup p ebx both) else none
  | .fork p child addr =>
    if p ∈ s.processes ∧ child ∉ s.processes ∧
        (∀ i < (s.tables p).filesSize, addr i ≠ 0 ∧ addr i ∉ s.descriptors) ∧
        (∀ i < (s.tables p).filesSize, ∀ j < (s.tables p).filesSize, addr i = addr j → i = j) then
      some (s.forkTables p child addr)
    else none
  | .exit p => if p ∈ s.processes ∧ p ≠ 1 then some (s.exitTables p) else none

end FdState

/-- How many of the first `n` words satisfy `P`. -/
def tally (n : ℕ) (files : ℕ → ℕ) (P : ℕ → Prop) [DecidablePred P] : ℕ :=
  ((Finset.range n).filter fun i => P (files i)).card

namespace FdState

/-- The slots of all processes that point to the object. -/
def slots (s : FdState) (f : ℕ) : ℕ :=
  ∑ p ∈ s.processes, tally (s.tables p).filesSize (s.tables p).files (· = f)

/-- The tables count their slots, the objects count the slots that point to them and are
allocated as long as there are some, and all calls have used and returned slots of the
tables. -/
structure Sound (s : FdState) : Prop where
  filesCount : ∀ p ∈ s.processes,
    (s.tables p).filesCount = tally (s.tables p).filesSize (s.tables p).files (· ≠ 0)
  instances : ∀ f ∈ s.descriptors, s.instances f = s.slots f
  allocated : ∀ f, f ≠ 0 → (f ∈ s.descriptors ↔ 0 < s.slots f)
  outside : s.outside = false
  misplaced : s.misplaced = false

/-- The new slots of a table that is full are null. -/
def GrowsClean (t t' : FdTable) : Prop :=
  t.filesCount = t.filesSize → ∀ i < 2 * t.filesSize, t.filesSize ≤ i → t'.files i = 0

/-- The calls do not reach the end of the table, a table grows into memory that happens to
be cleared, a new stream gets memory that happens to hold 1, a chosen slot is in use,
and a process forks while no descriptor is in two slots. -/
def Careful (s : FdState) : FdCall → Prop
  | .openFile p file g => file ≠ 0 → GrowsClean (s.tables p) ((s.tables p).growOpen g)
  | .close p ebx => ebx ≠ (s.tables p).filesSize
  | .openio p _ word g => word = 1 ∧ GrowsClean (s.tables p) ((s.tables p).double g)
  | .dup p ebx ecx g =>
    ebx < (s.tables p).filesSize ∧ ((s.tables p).files ebx ≠ 0 →
      (ecx = 0 → GrowsClean (s.tables p) ((s.tables p).growDup (g (s.tables p).filesSize))) ∧
      (3 ≤ ecx → ecx < (s.tables p).filesSize ∧ (s.tables p).files ecx ≠ 0))
  | .lookup p ebx both =>
    if both then ebx < (s.tables p).filesSize else ebx ≠ (s.tables p).filesSize
  | .fork p _ _ => ∀ i < (s.tables p).filesSize, (s.tables p).files i ≠ 0 →
      s.instances ((s.tables p).files i) = 1
  | .exit _ => True

/-- The invariant of careful runs: the first three slots are in use. -/
structure Inv (s : FdState) : Prop extends Sound s where
  three : ∀ p ∈ s.processes, 3 ≤ (s.tables p).filesSize ∧ ∀ i < 3, (s.tables p).files i ≠ 0
  null : 0 ∉ s.descriptors

end FdState

/-! ## Counting slots -/

section Tally

variable {n : ℕ} {files files' : ℕ → ℕ} {P : ℕ → Prop} [DecidablePred P]

theorem tally_zero : tally 0 files P = 0 := rfl

theorem tally_succ : tally (n + 1) files P = tally n files P + if P (files n) then 1 else 0 := by
  unfold tally
  rw [Finset.range_add_one, Finset.filter_insert]
  split
  · rw [Finset.card_insert_of_notMem (by simp)]
  · rfl

theorem tally_congr (h : ∀ i < n, files' i = files i) : tally n files' P = tally n files P := by
  unfold tally
  congr 1
  apply Finset.filter_congr
  intro i hi
  rw [h i (Finset.mem_range.mp hi)]

theorem tally_update {i v : ℕ} (hi : i < n) :
    tally n (Function.update files i v) P + (if P (files i) then 1 else 0) =
      tally n files P + if P v then 1 else 0 := by
  induction n with
  | zero => omega
  | succ n ih =>
    rw [tally_succ, tally_succ]
    by_cases hin : i = n
    · have hsame : tally n (Function.update files i v) P = tally n files P :=
        tally_congr fun j hj => Function.update_of_ne (by omega) ..
      rw [hsame, hin, Function.update_self]
      omega
    · rw [Function.update_of_ne (Ne.symm hin)]
      have h := ih (by omega)
      omega

theorem tally_add (m : ℕ) :
    tally (n + m) files P = tally n files P + tally m (fun i => files (n + i)) P := by
  induction m with
  | zero => rfl
  | succ m ih =>
    rw [← Nat.add_assoc, tally_succ, tally_succ, ih, Nat.add_assoc]

theorem tally_eq_zero (h : ∀ i < n, ¬P (files i)) : tally n files P = 0 := by
  unfold tally
  rw [Finset.card_eq_zero, Finset.filter_eq_empty_iff]
  intro i hi
  exact h i (Finset.mem_range.mp hi)

theorem tally_pos {i : ℕ} (hi : i < n) (h : P (files i)) : 0 < tally n files P := by
  unfold tally
  exact Finset.card_pos.mpr ⟨i, Finset.mem_filter.mpr ⟨Finset.mem_range.mpr hi, h⟩⟩

theorem tally_eq_self (h : ∀ i < n, P (files i)) : tally n files P = n := by
  unfold tally
  rw [Finset.filter_true_of_mem fun i hi => h i (Finset.mem_range.mp hi), Finset.card_range]

end Tally

namespace FdTable

variable {t t' : FdTable}

/-- The table has grown to twice its size. -/
structure Doubles (t t' : FdTable) : Prop where
  filesSize : t'.filesSize = 2 * t.filesSize
  filesCount : t'.filesCount = t.filesCount
  files : ∀ i < t.filesSize, t'.files i = t.files i

theorem double_files {g : ℕ → ℕ} {i : ℕ} (hi : i < t.filesSize) : (t.double g).files i = t.files i :=
  if_pos hi

theorem doubles_double (t : FdTable) (g : ℕ → ℕ) : t.Doubles (t.double g) :=
  ⟨rfl, rfl, fun _ hi => double_files hi⟩

theorem doubles_growOpen (t : FdTable) (g : ℕ → ℕ) : t.Doubles (t.growOpen g) := by
  refine ⟨rfl, rfl, fun i hi => ?_⟩
  have hbefore : i < 5 * t.filesSize := by omega
  exact (if_pos (Or.inl hbefore)).trans (double_files hi)

theorem doubles_growDup (t : FdTable) (g : ℕ → ℕ) : t.Doubles (t.growDup g) :=
  ⟨rfl, rfl, fun _ hi => (if_pos (Or.inl hi)).trans (double_files hi)⟩

theorem freeSlot_spec (files : ℕ → ℕ) (n i : ℕ) :
    i ≤ freeSlot files n i ∧ freeSlot files n i ≤ i + n ∧
      (freeSlot files n i < i + n → files (freeSlot files n i) = 0) ∧
      ∀ j, i ≤ j → j < freeSlot files n i → files j ≠ 0 := by
  induction n generalizing i with
  | zero => exact ⟨le_rfl, le_rfl, fun h => absurd h (lt_irrefl _), fun j hj hj' => by
      rw [freeSlot] at hj'
      omega⟩
  | succ n ih =>
    rw [freeSlot]
    by_cases hi : files i = 0
    · rw [if_pos hi]
      exact ⟨le_rfl, by omega, fun _ => hi, fun j hj hj' => by omega⟩
    · rw [if_neg hi]
      obtain ⟨hle, hle', hzero, hused⟩ := ih (i + 1)
      refine ⟨by omega, by omega, fun h => hzero (by omega), fun j hj hj' => ?_⟩
      by_cases hji : j = i
      · rw [hji]
        exact hi
      · exact hused j (by omega) hj'

/-- There is a free slot behind the first three in a table that has a null slot. -/
theorem slotFor_spec (hsize : 3 ≤ t.filesSize) (hthree : ∀ i < 3, t.files i ≠ 0) :
    3 ≤ t.slotFor ∧ (t.slotFor < t.filesSize → t.files t.slotFor = 0) ∧
      (tally t.filesSize t.files (· ≠ 0) < t.filesSize → t.slotFor < t.filesSize) := by
  obtain ⟨hle, hle', hzero, hused⟩ := freeSlot_spec t.files (t.filesSize - 3) 3
  refine ⟨hle, fun h => hzero (by change t.slotFor < _; omega), fun h => ?_⟩
  by_contra hnot
  have hall : tally t.filesSize t.files (· ≠ 0) = t.filesSize := by
    apply tally_eq_self
    intro i hi
    by_cases hi3 : i < 3
    · exact hthree i hi3
    · apply hused i (by omega)
      change i < t.slotFor
      omega
  omega

theorem place_files (hslot : t.slotFor < t.filesSize) (f : ℕ) :
    (t.place f).files = Function.update t.files t.slotFor f := if_pos hslot

/-- A descriptor in a free slot. -/
theorem tally_place {P : ℕ → Prop} [DecidablePred P] (hslot : t.slotFor < t.filesSize)
    (hnull : t.files t.slotFor = 0) (hP : ¬P 0) (f : ℕ) :
    tally (t.place f).filesSize (t.place f).files P =
      tally t.filesSize t.files P + if P f then 1 else 0 := by
  have h := @tally_update t.filesSize t.files P _ t.slotFor f hslot
  rw [hnull, if_neg hP, Nat.add_zero] at h
  rw [place_files hslot]
  exact h

end FdTable

namespace FdState

open FdTable

variable {s s' : FdState}

/-! ## Descriptors that are put into a table -/

/-- The slots that point to an object after the table of one process has changed. -/
theorem slots_update {p f : ℕ} {t : FdTable} (hp : p ∈ s.processes)
    (htables : s'.tables = Function.update s.tables p t) (hproc : s'.processes = s.processes) :
    s'.slots f + tally (s.tables p).filesSize (s.tables p).files (· = f) =
      s.slots f + tally t.filesSize t.files (· = f) := by
  unfold slots
  rw [hproc, htables, ← Finset.add_sum_erase _ _ hp, ← Finset.add_sum_erase s.processes _ hp,
    Function.update_self]
  have hrest : ∀ q ∈ s.processes.erase p,
      tally (Function.update s.tables p t q).filesSize (Function.update s.tables p t q).files (· = f) =
        tally (s.tables q).filesSize (s.tables q).files (· = f) := by
    intro q hq
    rw [Function.update_of_ne (Finset.ne_of_mem_erase hq)]
  rw [Finset.sum_congr rfl hrest]
  omega

/-- A table with a null slot and the slots of another one. -/
structure Room (t t' : FdTable) : Prop where
  filesCount : t'.filesCount = t.filesCount
  three_le : 3 ≤ t'.filesSize
  three : ∀ i < 3, t'.files i ≠ 0
  tally_eq : ∀ (P : ℕ → Prop) [DecidablePred P], ¬P 0 →
    tally t'.filesSize t'.files P = tally t.filesSize t.files P
  room : tally t'.filesSize t'.files (· ≠ 0) < t'.filesSize

theorem Room.slot {t t' : FdTable} (h : Room t t') :
    3 ≤ t'.slotFor ∧ t'.slotFor < t'.filesSize ∧ t'.files t'.slotFor = 0 := by
  obtain ⟨hle, hnull, hlt⟩ := slotFor_spec h.three_le h.three
  exact ⟨hle, hlt h.room, hnull (hlt h.room)⟩

theorem tally_le (n : ℕ) (files : ℕ → ℕ) (P : ℕ → Prop) [DecidablePred P] : tally n files P ≤ n :=
  (Finset.card_filter_le _ _).trans (Finset.card_range n).le

theorem Inv.room {p : ℕ} {t : FdTable} (h : s.Inv) (hp : p ∈ s.processes)
    (hd : (s.tables p).Doubles t) (hclean : GrowsClean (s.tables p) t) :
    Room (s.tables p) (if (s.tables p).filesCount = (s.tables p).filesSize then t else s.tables p) := by
  obtain ⟨hthree, hused⟩ := h.three p hp
  have hcount := h.filesCount p hp
  by_cases hfull : (s.tables p).filesCount = (s.tables p).filesSize
  · rw [if_pos hfull]
    have htally : ∀ (P : ℕ → Prop) [DecidablePred P], ¬P 0 →
        tally t.filesSize t.files P = tally (s.tables p).filesSize (s.tables p).files P := by
      intro P _ hP
      have hnew : tally (s.tables p).filesSize (fun i => t.files ((s.tables p).filesSize + i)) P = 0 := by
        apply tally_eq_zero
        intro i hi
        rw [hclean hfull _ (by omega) (by omega)]
        exact hP
      rw [hd.filesSize, two_mul, tally_add, tally_congr hd.files, hnew, Nat.add_zero]
    refine ⟨hd.filesCount, by rw [hd.filesSize]; omega, fun i hi => ?_, htally, ?_⟩
    · rw [hd.files i (by omega)]
      exact hused i hi
    · rw [htally _ (not_not.mpr rfl), ← hcount, hd.filesSize]
      omega
  · rw [if_neg hfull]
    refine ⟨rfl, hthree, hused, fun P _ _ => rfl, ?_⟩
    have hle := tally_le (s.tables p).filesSize (s.tables p).files (· ≠ 0)
    omega

/-- The objects are counted by `n`, and allocated as long as it is not 0. -/
structure Counts (s : FdState) (n : ℕ → ℕ) : Prop where
  instances : ∀ x ∈ s.descriptors, s.instances x = n x
  allocated : ∀ x, x ≠ 0 → (x ∈ s.descriptors ↔ 0 < n x)
  null : 0 ∉ s.descriptors

theorem Counts.congr {n m : ℕ → ℕ} (h : s.Counts n) (hm : ∀ x, x ≠ 0 → m x = n x) : s.Counts m where
  instances x hx := by
    rw [hm x fun hx0 => h.null (hx0 ▸ hx)]
    exact h.instances x hx
  allocated x hx := by
    rw [hm x hx]
    exact h.allocated x hx
  null := h.null

theorem Counts.alloc {n : ℕ → ℕ} {f : ℕ} (h : s.Counts n) (hf : f ≠ 0) (hnew : f ∉ s.descriptors) :
    (s.allocFd f 1).Counts fun x => n x + if f = x then 1 else 0 := by
  have hzero : n f = 0 := by
    have hnot := mt (h.allocated f hf).mpr hnew
    omega
  refine ⟨fun x hx => ?_, fun x hx => ?_, ?_⟩
  · change Function.update s.instances f 1 x = _
    by_cases hfx : f = x
    · rw [← hfx, Function.update_self, if_pos rfl, hzero]
    · rw [Function.update_of_ne (Ne.symm hfx), if_neg hfx]
      exact h.instances x ((Finset.mem_insert.mp hx).resolve_left (Ne.symm hfx))
  · change x ∈ insert f s.descriptors ↔ _
    rw [Finset.mem_insert]
    by_cases hfx : f = x
    · rw [if_pos hfx]
      exact iff_of_true (Or.inl hfx.symm) (by omega)
    · rw [if_neg hfx, or_iff_right (Ne.symm hfx), h.allocated x hx, Nat.add_zero]
  · exact fun hmem => (Finset.mem_insert.mp hmem).elim (fun h0 => hf h0.symm) h.null

theorem Counts.addInstance {n : ℕ → ℕ} {f : ℕ} (h : s.Counts n) (hf : f ∈ s.descriptors) :
    (s.addInstance f).Counts fun x => n x + if f = x then 1 else 0 := by
  refine ⟨fun x hx => ?_, fun x hx => ?_, h.null⟩
  · change Function.update s.instances f (s.instances f + 1) x = _
    by_cases hfx : f = x
    · rw [← hfx, Function.update_self, if_pos rfl, h.instances f hf]
    · rw [Function.update_of_ne (Ne.symm hfx), if_neg hfx]
      exact h.instances x hx
  · change x ∈ s.descriptors ↔ _
    by_cases hfx : f = x
    · rw [if_pos hfx]
      exact iff_of_true (hfx ▸ hf) (by omega)
    · rw [if_neg hfx, h.allocated x hx, Nat.add_zero]

theorem Counts.closeFile {n : ℕ → ℕ} {f : ℕ} (h : s.Counts n) (hf : f ∈ s.descriptors) :
    (s.closeFile f).Counts fun x => n x - if f = x then 1 else 0 := by
  have hf0 : f ≠ 0 := fun h0 => h.null (h0 ▸ hf)
  have hpos := (h.allocated f hf0).mp hf
  have hdecr : decr32 (s.instances f) = n f - 1 := by
    rw [h.instances f hf]
    exact if_neg hpos.ne'
  have hmem : ∀ x, x ∈ (s.closeFile f).descriptors ↔ x ∈ s.descriptors ∧ (f = x → n f ≠ 1) := by
    intro x
    change x ∈ (if decr32 (s.instances f) = 0 then s.descriptors.erase f else s.descriptors) ↔ _
    rw [hdecr]
    by_cases hone : n f - 1 = 0
    · rw [if_pos hone, Finset.mem_erase, and_comm]
      refine and_congr_right fun _ => ⟨fun hne hfx => absurd hfx.symm hne, fun hne hfx => ?_⟩
      exact hne hfx.symm (by omega)
    · rw [if_neg hone]
      exact (and_iff_left fun _ => by omega).symm
  refine ⟨fun x hx => ?_, fun x hx => ?_, fun h0 => h.null ((hmem 0).mp h0).1⟩
  · change Function.update s.instances f (decr32 (s.instances f)) x = _
    by_cases hfx : f = x
    · rw [← hfx, Function.update_self, if_pos rfl, hdecr]
    · rw [Function.update_of_ne (Ne.symm hfx), if_neg hfx]
      exact h.instances x ((hmem x).mp hx).1
  · rw [hmem, h.allocated x hx]
    by_cases hfx : f = x
    · subst hfx
      rw [if_pos rfl]
      constructor
      · intro hn
        have hne := hn.2 rfl
        omega
      · intro hn
        exact ⟨by omega, fun _ => by omega⟩
    · rw [if_neg hfx]
      exact and_iff_left fun h => absurd h hfx

theorem Inv.counts (h : s.Inv) : s.Counts s.slots := ⟨h.instances, h.allocated, h.null⟩

theorem Inv.mem_descriptors {p i : ℕ} (h : s.Inv) (hp : p ∈ s.processes)
    (hi : i < (s.tables p).filesSize) (hne : (s.tables p).files i ≠ 0) :
    (s.tables p).files i ∈ s.descriptors := by
  rw [h.allocated _ hne]
  have hpos : 0 < tally (s.tables p).filesSize (s.tables p).files (· = (s.tables p).files i) :=
    tally_pos hi rfl
  exact hpos.trans_le (Finset.single_le_sum (f := fun q => tally (s.tables q).filesSize
    (s.tables q).files (· = (s.tables p).files i)) (fun _ _ => Nat.zero_le _) hp)

/-- The slots after a descriptor has been put into a free slot. -/
theorem slots_placeIn {p f x : ℕ} {t : FdTable} {I : ℕ → ℕ} {D : Finset ℕ} (hp : p ∈ s.processes)
    (hroom : Room (s.tables p) t) (hx : x ≠ 0) :
    ((s.withFds I D).placeIn p t f).slots x = s.slots x + if f = x then 1 else 0 := by
  obtain ⟨-, hlt, hzero⟩ := hroom.slot
  have htables : ((s.withFds I D).placeIn p t f).tables = Function.update s.tables p (t.place f) := rfl
  have hsum := slots_update (f := x) hp htables rfl
  rw [tally_place (P := (· = x)) hlt hzero hx.symm, hroom.tally_eq (· = x) hx.symm] at hsum
  omega

/-- One more slot points to the object `f`, and its count says so. -/
theorem Inv.placeIn {p f : ℕ} {t : FdTable} {I : ℕ → ℕ} {D : Finset ℕ} (h : s.Inv)
    (hp : p ∈ s.processes) (hroom : Room (s.tables p) t) (hf : f ≠ 0)
    (hc : (s.withFds I D).Counts fun x => s.slots x + if f = x then 1 else 0) :
    ((s.withFds I D).placeIn p t f).Inv := by
  obtain ⟨hthree, hlt, hzero⟩ := hroom.slot
  have hfiles := place_files hlt f
  have htables : ((s.withFds I D).placeIn p t f).tables = Function.update s.tables p (t.place f) := rfl
  refine ⟨⟨fun q hq => ?_, fun x hx => ?_, fun x hx => ?_, h.outside, ?_⟩, fun q hq => ?_, hc.null⟩
  · rw [htables]
    by_cases hqp : q = p
    · rw [hqp, Function.update_self, tally_place (P := (· ≠ 0)) hlt hzero (not_not.mpr rfl),
        if_pos hf, hroom.tally_eq (· ≠ 0) (not_not.mpr rfl), ← h.filesCount p hp]
      exact congrArg (· + 1) hroom.filesCount
    · rw [Function.update_of_ne hqp]
      exact h.filesCount q hq
  · have hx0 : x ≠ 0 := fun h0 => hc.null (h0 ▸ hx)
    rw [slots_placeIn hp hroom hx0]
    exact hc.instances x hx
  · rw [slots_placeIn hp hroom hx]
    exact hc.allocated x hx
  · have hplaced : t.slotFor < t.filesSize ∧ (t.place f).files t.slotFor = f := by
      rw [hfiles, Function.update_self]
      exact ⟨hlt, rfl⟩
    change (s.misplaced || !decide _) = false
    rw [h.misplaced, decide_eq_true hplaced]
    rfl
  · rw [htables]
    by_cases hqp : q = p
    · rw [hqp, Function.update_self]
      refine ⟨hroom.three_le, fun i hi => ?_⟩
      rw [hfiles, Function.update_of_ne (by omega)]
      exact hroom.three i hi
    · rw [Function.update_of_ne hqp]
      exact h.three q hq

/-- A table that has grown over memory that is not clear does not count its slots. -/
theorem Inv.placeIn_not_sound {p f : ℕ} {t : FdTable} {I : ℕ → ℕ} {D : Finset ℕ} (h : s.Inv)
    (hp : p ∈ s.processes) (hd : (s.tables p).Doubles t) (hclean : ¬GrowsClean (s.tables p) t)
    (hf : f ≠ 0) :
    ¬((s.withFds I D).placeIn p
      (if (s.tables p).filesCount = (s.tables p).filesSize then t else s.tables p) f).Sound := by
  intro hsound
  unfold GrowsClean at hclean
  push Not at hclean
  obtain ⟨hfull, i, hi, hle, hne⟩ := hclean
  rw [if_pos hfull] at hsound
  obtain ⟨hthree, hused⟩ := h.three p hp
  have hmisplaced : s.misplaced = false := h.misplaced
  have hthree' : 3 ≤ t.filesSize := by
    rw [hd.filesSize]
    omega
  have hused' : ∀ j < 3, t.files j ≠ 0 := by
    intro j hj
    rw [hd.files j (by omega)]
    exact hused j hj
  have hplaced : t.slotFor < t.filesSize := by
    have hm := hsound.misplaced
    change (s.misplaced || !decide _) = false at hm
    rw [hmisplaced, Bool.false_or, Bool.not_eq_false', decide_eq_true_eq] at hm
    exact hm.1
  have hcount := hsound.filesCount p hp
  have htable : ((s.withFds I D).placeIn p t f).tables p = t.place f :=
    Function.update_self ..
  have hold := h.filesCount p hp
  have hzero := (slotFor_spec hthree' hused').2.1 hplaced
  have htally : tally t.filesSize t.files (· ≠ 0) = (s.tables p).filesSize +
      tally (s.tables p).filesSize (fun j => t.files ((s.tables p).filesSize + j)) (· ≠ 0) := by
    rw [hd.filesSize, two_mul, tally_add, tally_congr hd.files, ← hold, hfull]
  have hpos : 0 < tally (s.tables p).filesSize (fun j => t.files ((s.tables p).filesSize + j))
      (· ≠ 0) := by
    apply tally_pos (i := i - (s.tables p).filesSize) (by omega)
    rw [Nat.add_sub_cancel' hle]
    exact hne
  rw [htable, tally_place (P := (· ≠ 0)) hplaced hzero (not_not.mpr rfl), if_pos hf, htally] at hcount
  have hcount' : (t.place f).filesCount = t.filesCount + 1 := rfl
  have hsame := hd.filesCount
  omega

theorem useSlot_of_lt {i n : ℕ} (h : i < n) : s.useSlot i n = s := by
  unfold useSlot
  rw [decide_eq_false (Nat.not_le.mpr h), Bool.or_false]

/-! ## `syscall_open` and `syscall_openio` -/

theorem Inv.syscallOpen {p file : ℕ} {g : ℕ → ℕ} (h : s.Inv) (hp : p ∈ s.processes)
    (hnew : file ∉ s.descriptors)
    (hc : file ≠ 0 → GrowsClean (s.tables p) ((s.tables p).growOpen g)) :
    (s.syscallOpen p file g).Inv := by
  unfold FdState.syscallOpen
  by_cases hfile : file = 0
  · rw [if_pos hfile]
    exact h
  · rw [if_neg hfile]
    exact h.placeIn hp (h.room hp (doubles_growOpen _ g) (hc hfile)) hfile
      (h.counts.alloc hfile hnew)

theorem Inv.syscallOpen_not_sound {p file : ℕ} {g : ℕ → ℕ} (h : s.Inv) (hp : p ∈ s.processes)
    (hc : ¬(file ≠ 0 → GrowsClean (s.tables p) ((s.tables p).growOpen g))) :
    ¬(s.syscallOpen p file g).Sound := by
  obtain ⟨hfile, hclean⟩ := Classical.not_imp.mp hc
  unfold FdState.syscallOpen
  rw [if_neg hfile]
  exact h.placeIn_not_sound hp (doubles_growOpen _ g) hclean hfile

theorem Inv.syscallOpenio {p file : ℕ} {g : ℕ → ℕ} (h : s.Inv) (hp : p ∈ s.processes)
    (hfile : file ≠ 0) (hnew : file ∉ s.descriptors)
    (hclean : GrowsClean (s.tables p) ((s.tables p).double g)) : (s.syscallOpenio p file 1 g).Inv :=
  h.placeIn hp (h.room hp (doubles_double _ g) hclean) hfile (h.counts.alloc hfile hnew)

/-- A stream whose count is not set is counted wrongly. -/
theorem Inv.syscallOpenio_not_sound {p file word : ℕ} {g : ℕ → ℕ} (h : s.Inv) (hp : p ∈ s.processes)
    (hfile : file ≠ 0) (hnew : file ∉ s.descriptors)
    (hc : ¬(word = 1 ∧ GrowsClean (s.tables p) ((s.tables p).double g))) :
    ¬(s.syscallOpenio p file word g).Sound := by
  by_cases hclean : GrowsClean (s.tables p) ((s.tables p).double g)
  · intro hsound
    have hroom := h.room hp (doubles_double _ g) hclean
    have hzero : s.slots file = 0 := by
      have hnot := mt (h.allocated file hfile).mpr hnew
      omega
    have hcount := hsound.instances file (Finset.mem_insert_self ..)
    have hslots : (s.syscallOpenio p file word g).slots file =
        s.slots file + if file = file then 1 else 0 := slots_placeIn hp hroom hfile
    have hword : (s.syscallOpenio p file word g).instances file = word := Function.update_self ..
    rw [hslots, hword, hzero, if_pos rfl] at hcount
    exact hc ⟨by omega, hclean⟩
  · exact h.placeIn_not_sound hp (doubles_double _ g) hclean hfile

/-! ## `syscall_close` -/

/-- The descriptor in slot `i` is replaced by `v`, and the objects are counted anew. -/
theorem Inv.setSlot {p i v : ℕ} {t : FdTable} {I : ℕ → ℕ} {D : Finset ℕ} (h : s.Inv)
    (hp : p ∈ s.processes) (hi : i < (s.tables p).filesSize) (hthree : 3 ≤ i)
    (hfiles : t.files = Function.update (s.tables p).files i v)
    (hsize : t.filesSize = (s.tables p).filesSize)
    (hcount : t.filesCount + (if (s.tables p).files i ≠ 0 then 1 else 0) =
      (s.tables p).filesCount + if v ≠ 0 then 1 else 0)
    (hc : (s.withFds I D).Counts fun x =>
      s.slots x + (if v = x then 1 else 0) - if (s.tables p).files i = x then 1 else 0) :
    ((s.withFds I D).setTable p t).Inv := by
  have htables : ((s.withFds I D).setTable p t).tables = Function.update s.tables p t := rfl
  have hslots : ∀ x, ((s.withFds I D).setTable p t).slots x =
      s.slots x + (if v = x then 1 else 0) - if (s.tables p).files i = x then 1 else 0 := by
    intro x
    have hsum := slots_update (f := x) hp htables rfl
    have htally := @tally_update _ (s.tables p).files (· = x) _ i v hi
    rw [hfiles, hsize] at hsum
    omega
  refine ⟨⟨fun q hq => ?_, fun x hx => ?_, fun x hx => ?_, h.outside, h.misplaced⟩, fun q hq => ?_,
    hc.null⟩
  · rw [htables]
    by_cases hqp : q = p
    · rw [hqp, Function.update_self, hfiles, hsize]
      have htally := @tally_update _ (s.tables p).files (· ≠ 0) _ i v hi
      have hold := h.filesCount p hp
      omega
    · rw [Function.update_of_ne hqp]
      exact h.filesCount q hq
  · rw [hslots]
    exact hc.instances x hx
  · rw [hslots]
    exact hc.allocated x hx
  · rw [htables]
    by_cases hqp : q = p
    · rw [hqp, Function.update_self, hfiles, hsize]
      refine ⟨(h.three p hp).1, fun j hj => ?_⟩
      rw [Function.update_of_ne (by omega)]
      exact (h.three p hp).2 j hj
    · rw [Function.update_of_ne hqp]
      exact h.three q hq

theorem Inv.syscallClose {p ebx : ℕ} (h : s.Inv) (hp : p ∈ s.processes)
    (hc : ebx ≠ (s.tables p).filesSize) : (s.syscallClose p ebx).Inv := by
  unfold FdState.syscallClose
  dsimp only
  by_cases hrange : 3 ≤ ebx ∧ ebx ≤ (s.tables p).filesSize
  · have hlt : ebx < (s.tables p).filesSize := lt_of_le_of_ne hrange.2 hc
    rw [if_pos hrange, useSlot_of_lt hlt]
    by_cases hne : (s.tables p).files ebx ≠ 0
    · rw [if_pos hne]
      have hcounts := (h.counts.closeFile (h.mem_descriptors hp hlt hne)).congr
        (m := fun x => s.slots x + (if 0 = x then 1 else 0) -
          if (s.tables p).files ebx = x then 1 else 0) fun x hx => by
            rw [if_neg (Ne.symm hx)]
            rfl
      refine h.setSlot (t := { s.tables p with
        files := Function.update (s.tables p).files ebx 0
        filesCount := decr32 (s.tables p).filesCount }) hp hlt hrange.1 rfl rfl ?_ hcounts
      have hcount := h.filesCount p hp
      have hpos : 0 < tally (s.tables p).filesSize (s.tables p).files (· ≠ 0) := tally_pos hlt hne
      rw [if_pos hne, if_neg (not_not.mpr rfl), decr32, if_neg (by omega)]
      dsimp only
      omega
    · rw [if_neg hne]
      exact h
  · rw [if_neg hrange]
    exact h

/-- A state in which a slot behind the end has been used. -/
theorem not_sound_of_outside (h : s.outside = true) : ¬s.Sound := by
  intro hsound
  rw [hsound.outside] at h
  cases h

theorem outside_useSlot {i n : ℕ} (h : n ≤ i) : (s.useSlot i n).outside = true := by
  unfold useSlot
  rw [decide_eq_true h, Bool.or_true]

theorem Inv.syscallClose_not_sound {p ebx : ℕ} (h : s.Inv) (hp : p ∈ s.processes)
    (hc : ebx = (s.tables p).filesSize) : ¬(s.syscallClose p ebx).Sound := by
  have hrange : 3 ≤ ebx ∧ ebx ≤ (s.tables p).filesSize := ⟨hc ▸ (h.three p hp).1, hc.le⟩
  have hout : (s.useSlot ebx (s.tables p).filesSize).outside = true := outside_useSlot hc.ge
  apply not_sound_of_outside
  unfold FdState.syscallClose
  dsimp only
  rw [if_pos hrange]
  split
  · exact hout
  · exact hout

/-! ## `syscall_dup` and the calls that use a slot -/

theorem Inv.addInstance_counts {p i : ℕ} (h : s.Inv) (hp : p ∈ s.processes)
    (hi : i < (s.tables p).filesSize) (hne : (s.tables p).files i ≠ 0) :
    (s.addInstance ((s.tables p).files i)).Counts fun x =>
      s.slots x + if (s.tables p).files i = x then 1 else 0 :=
  h.counts.addInstance (h.mem_descriptors hp hi hne)

/-- A slot in use gets another descriptor. -/
theorem Inv.dupTo {p i ecx : ℕ} (h : s.Inv) (hp : p ∈ s.processes)
    (hi : i < (s.tables p).filesSize) (hne : (s.tables p).files i ≠ 0) (hthree : 3 ≤ ecx)
    (hlt : ecx < (s.tables p).filesSize) (hused : (s.tables p).files ecx ≠ 0) :
    (s.dupTo p ((s.tables p).files i) ecx (s.tables p)).Inv := by
  unfold FdState.dupTo
  dsimp only
  rw [useSlot_of_lt hlt, if_pos hused]
  refine h.setSlot (t := { s.tables p with
    files := Function.update (s.tables p).files ecx ((s.tables p).files i) }) hp hlt hthree rfl rfl ?_
    ((h.addInstance_counts hp hi hne).closeFile (h.mem_descriptors hp hlt hused))
  rw [if_pos hused, if_pos hne]

theorem growTo_spec {n fuel : ℕ} {g : ℕ → ℕ → ℕ} {t t' : FdTable}
    (h : growTo n g fuel t = some t') : t.filesSize ≤ t'.filesSize ∧ n ≤ t'.filesSize ∧
      t'.filesCount = t.filesCount ∧ (n ≤ t.filesSize → t' = t) ∧
      ∀ i < t.filesSize, t'.files i = t.files i := by
  induction fuel generalizing t with
  | zero => cases h
  | succ fuel ih =>
    rw [growTo] at h
    by_cases hlt : t.filesSize < n
    · rw [if_pos hlt] at h
      have hd := doubles_growDup t (g t.filesSize)
      have hsize := hd.filesSize
      obtain ⟨hle, hn, hcount, -, hfiles⟩ := ih h
      refine ⟨by omega, hn, hcount.trans hd.filesCount, fun h' => by omega, fun i hi => ?_⟩
      rw [hfiles i (by omega), hd.files i hi]
    · rw [if_neg hlt, Option.some.injEq] at h
      rw [← h]
      exact ⟨le_rfl, by omega, rfl, fun _ => rfl, fun i _ => rfl⟩

theorem dupTo_outside {p f ecx : ℕ} {t : FdTable} :
    (s.dupTo p f ecx t).outside = (s.outside || decide (t.filesSize ≤ ecx)) := by
  unfold FdState.dupTo
  dsimp only
  split <;> rfl

theorem dupTo_table {p f ecx : ℕ} {t : FdTable} :
    (s.dupTo p f ecx t).tables p = { t with files := Function.update t.files ecx f } ∧
      (s.dupTo p f ecx t).processes = s.processes := by
  unfold FdState.dupTo
  dsimp only
  refine ⟨Function.update_self .., ?_⟩
  split <;> rfl

/-- A descriptor in a slot that was not in use is not counted. -/
theorem Inv.dupTo_not_sound {p f ecx fuel : ℕ} {g : ℕ → ℕ → ℕ} {t : FdTable} (h : s.Inv)
    (hp : p ∈ s.processes) (hf : f ≠ 0)
    (hc : ¬(ecx < (s.tables p).filesSize ∧ (s.tables p).files ecx ≠ 0))
    (ht : growTo ecx g fuel (s.tables p) = some t) : ¬(s.dupTo p f ecx t).Sound := by
  obtain ⟨hle, hn, hcount, hsame, hfiles⟩ := growTo_spec ht
  obtain ⟨htable, hproc⟩ := @dupTo_table s p f ecx t
  by_cases hend : t.filesSize ≤ ecx
  · apply not_sound_of_outside
    rw [dupTo_outside, decide_eq_true hend, Bool.or_true]
  · intro hsound
    have hnew := hsound.filesCount p (hproc ▸ hp)
    have hold := h.filesCount p hp
    rw [htable] at hnew
    dsimp only at hnew
    by_cases hin : ecx < (s.tables p).filesSize
    · rw [hsame hin.le] at hnew
      have hnull : (s.tables p).files ecx = 0 := by
        by_contra hne
        exact hc ⟨hin, hne⟩
      have htally := @tally_update _ (s.tables p).files (· ≠ 0) _ ecx f hin
      rw [hnull, if_neg (not_not.mpr rfl), if_pos hf] at htally
      omega
    · -- the slot is one of the new ones
      obtain ⟨m, hm⟩ := Nat.exists_eq_add_of_le hle
      have hbefore : tally (s.tables p).filesSize (Function.update t.files ecx f) (· ≠ 0) =
          tally (s.tables p).filesSize (s.tables p).files (· ≠ 0) := by
        apply tally_congr
        intro i hi
        rw [Function.update_of_ne (by omega), hfiles i hi]
      have hpos : 0 < tally m
          (fun i => Function.update t.files ecx f ((s.tables p).filesSize + i)) (· ≠ 0) := by
        apply tally_pos (i := ecx - (s.tables p).filesSize) (by omega)
        rw [Nat.add_sub_cancel' (by omega), Function.update_self]
        exact hf
      rw [hm, tally_add, hbefore] at hnew
      omega

theorem Inv.syscallDup {p ebx ecx : ℕ} {g : ℕ → ℕ → ℕ} (h : s.Inv) (hp : p ∈ s.processes)
    (hc : s.Careful (.dup p ebx ecx g)) (hs : s.syscallDup p ebx ecx g = some s') : s'.Inv := by
  obtain ⟨hlt, hc⟩ := hc
  unfold FdState.syscallDup at hs
  dsimp only at hs
  rw [useSlot_of_lt hlt] at hs
  by_cases hne : (s.tables p).files ebx = 0
  · rw [if_pos (Or.inr hne), Option.some.injEq] at hs
    exact hs ▸ h
  · obtain ⟨hdefault, hchosen⟩ := hc hne
    rw [if_neg (by omega)] at hs
    by_cases hecx : ecx = 0
    · rw [if_neg (not_not.mpr hecx), Option.some.injEq] at hs
      rw [← hs]
      exact h.placeIn hp (h.room hp (doubles_growDup _ _) (hdefault hecx)) hne
        (h.addInstance_counts hp hlt hne)
    · rw [if_pos hecx] at hs
      by_cases hsmall : ecx < 3
      · rw [if_pos hsmall, Option.some.injEq] at hs
        exact hs ▸ h
      · obtain ⟨hlt', hused⟩ := hchosen (by omega)
        rw [if_neg hsmall, Option.map_eq_some_iff] at hs
        obtain ⟨t, ht, rfl⟩ := hs
        rw [(growTo_spec ht).2.2.2.1 hlt'.le]
        exact h.dupTo hp hlt hne (by omega) hlt' hused

theorem Inv.syscallDup_not_sound {p ebx ecx : ℕ} {g : ℕ → ℕ → ℕ} (h : s.Inv) (hp : p ∈ s.processes)
    (hc : ¬s.Careful (.dup p ebx ecx g)) (hs : s.syscallDup p ebx ecx g = some s') : ¬s'.Sound := by
  unfold FdState.syscallDup at hs
  dsimp only at hs
  by_cases hlt : ebx < (s.tables p).filesSize
  · have hdup : ¬((s.tables p).files ebx ≠ 0 →
        (ecx = 0 → GrowsClean (s.tables p) ((s.tables p).growDup (g (s.tables p).filesSize))) ∧
        (3 ≤ ecx → ecx < (s.tables p).filesSize ∧ (s.tables p).files ecx ≠ 0)) :=
      fun hd => hc ⟨hlt, hd⟩
    obtain ⟨hne, hdup⟩ := Classical.not_imp.mp hdup
    rw [useSlot_of_lt hlt, if_neg (by omega)] at hs
    by_cases hecx : ecx = 0
    · rw [if_neg (not_not.mpr hecx), Option.some.injEq] at hs
      have hclean : ¬GrowsClean (s.tables p) ((s.tables p).growDup (g (s.tables p).filesSize)) :=
        fun hclean => hdup ⟨fun _ => hclean, fun h3 => by omega⟩
      rw [← hs]
      exact h.placeIn_not_sound hp (doubles_growDup _ _) hclean hne
    · rw [if_pos hecx] at hs
      by_cases hsmall : ecx < 3
      · exact absurd ⟨fun h0 => absurd h0 hecx, fun h3 => by omega⟩ hdup
      · rw [if_neg hsmall, Option.map_eq_some_iff] at hs
        obtain ⟨t, ht, rfl⟩ := hs
        exact h.dupTo_not_sound hp hne (fun hd => hdup ⟨fun h0 => absurd h0 hecx, fun _ => hd⟩) ht
  · -- a slot behind the end has been used before anything else is done
    have hout : (s.useSlot ebx (s.tables p).filesSize).outside = true :=
      outside_useSlot (Nat.not_lt.mp hlt)
    apply not_sound_of_outside
    split_ifs at hs with herr hchosen hsmall
    · rw [Option.some.injEq] at hs
      exact hs ▸ hout
    · rw [Option.some.injEq] at hs
      exact hs ▸ hout
    · rw [Option.map_eq_some_iff] at hs
      obtain ⟨t, -, rfl⟩ := hs
      rw [dupTo_outside, hout, Bool.true_or]
    all_goals
      rw [Option.some.injEq] at hs
      rw [← hs]
      exact hout

theorem Inv.lookup {p ebx : ℕ} {both : Bool} (h : s.Inv)
    (hc : s.Careful (.lookup p ebx both)) : (s.lookup p ebx both).Inv := by
  unfold FdState.lookup
  cases both with
  | true =>
    have hlt : ebx < (s.tables p).filesSize := hc
    rw [if_neg (by simp), useSlot_of_lt hlt]
    exact h
  | false =>
    have hne : ebx ≠ (s.tables p).filesSize := hc
    dsimp only
    by_cases hlt : (s.tables p).filesSize < ebx
    · rw [if_pos ⟨rfl, hlt⟩]
      exact h
    · rw [if_neg fun hb => hlt hb.2, useSlot_of_lt (by omega)]
      exact h

theorem lookup_not_sound {p ebx : ℕ} {both : Bool} (hc : ¬s.Careful (.lookup p ebx both)) :
    ¬(s.lookup p ebx both).Sound := by
  apply not_sound_of_outside
  unfold FdState.lookup
  cases both with
  | true =>
    have hle : ¬ebx < (s.tables p).filesSize := hc
    rw [if_neg (by simp)]
    exact outside_useSlot (by omega)
  | false =>
    have heq : ¬ebx ≠ (s.tables p).filesSize := hc
    rw [if_neg fun hb => by omega]
    exact outside_useSlot (by omega)

/-! ## `exit_process` -/

theorem closeAll_succ (files : ℕ → ℕ) (n : ℕ) :
    s.closeAll files (n + 1) = if files n ≠ 0 then (s.closeAll files n).closeFile (files n)
      else s.closeAll files n := by
  unfold closeAll
  rw [List.range_succ, List.foldl_append]
  rfl

theorem closeAll_rest (files : ℕ → ℕ) (n : ℕ) :
    (s.closeAll files n).tables = s.tables ∧ (s.closeAll files n).processes = s.processes ∧
      (s.closeAll files n).outside = s.outside ∧ (s.closeAll files n).misplaced = s.misplaced := by
  induction n with
  | zero => exact ⟨rfl, rfl, rfl, rfl⟩
  | succ n ih =>
    rw [closeAll_succ]
    split
    · exact ih
    · exact ih

theorem Counts.closeAll {c : ℕ → ℕ} {files : ℕ → ℕ} {n : ℕ} (h : s.Counts c)
    (hle : ∀ x, x ≠ 0 → tally n files (· = x) ≤ c x) :
    (s.closeAll files n).Counts fun x => c x - tally n files (· = x) := by
  induction n with
  | zero => exact h
  | succ n ih =>
    have hstep : ∀ x, tally (n + 1) files (· = x) =
        tally n files (· = x) + if files n = x then 1 else 0 := fun x => tally_succ
    have hih := ih fun x hx => by
      have hx' := hle x hx
      rw [hstep] at hx'
      omega
    rw [closeAll_succ]
    by_cases hne : files n ≠ 0
    · rw [if_pos hne]
      have hmem : files n ∈ (s.closeAll files n).descriptors := by
        rw [hih.allocated _ hne]
        have hx' := hle (files n) hne
        rw [hstep, if_pos rfl] at hx'
        omega
      refine (hih.closeFile hmem).congr fun x _ => ?_
      rw [hstep]
      omega
    · rw [if_neg hne]
      refine hih.congr fun x hx => ?_
      rw [hstep, not_not.mp hne, if_neg hx.symm, Nat.add_zero]

theorem Inv.exitTables {p : ℕ} (h : s.Inv) (hp : p ∈ s.processes) : (s.exitTables p).Inv := by
  obtain ⟨htables, hproc, hout, hmis⟩ :=
    @closeAll_rest s (s.tables p).files (s.tables p).filesSize
  have htables' : (s.exitTables p).tables = s.tables := htables
  have hproc' : (s.exitTables p).processes = s.processes.erase p := congrArg (Finset.erase · p) hproc
  have hslots : ∀ x, (s.exitTables p).slots x =
      s.slots x - tally (s.tables p).filesSize (s.tables p).files (· = x) := by
    intro x
    unfold slots
    rw [htables', hproc', ← Finset.add_sum_erase s.processes _ hp, Nat.add_sub_cancel_left]
  have hcounts : (s.closeAll (s.tables p).files (s.tables p).filesSize).Counts fun x =>
      s.slots x - tally (s.tables p).filesSize (s.tables p).files (· = x) := by
    refine h.counts.closeAll fun x _ => ?_
    exact Finset.single_le_sum (f := fun q => tally (s.tables q).filesSize
      (s.tables q).files (· = x)) (fun _ _ => Nat.zero_le _) hp
  have hsub : ∀ q ∈ (s.exitTables p).processes, q ∈ s.processes := by
    intro q hq
    rw [hproc'] at hq
    exact Finset.mem_of_mem_erase hq
  refine ⟨⟨fun q hq => ?_, fun x hx => ?_, fun x hx => ?_, hout.trans h.outside,
    hmis.trans h.misplaced⟩, fun q hq => ?_, hcounts.null⟩
  · rw [htables']
    exact h.filesCount q (hsub q hq)
  · rw [hslots]
    exact hcounts.instances x hx
  · rw [hslots]
    exact hcounts.allocated x hx
  · rw [htables']
    exact h.three q (hsub q hq)

/-! ## `fork` -/

/-- The slots of the child. -/
def childFiles (files addr : ℕ → ℕ) : ℕ → ℕ := fun i => if files i ≠ 0 then addr i else 0

theorem copyFds_succ (files addr : ℕ → ℕ) (n : ℕ) :
    s.copyFds files addr (n + 1) = if files n ≠ 0 then
        (s.copyFds files addr n).allocFd (addr n) ((s.copyFds files addr n).instances (files n))
      else s.copyFds files addr n := by
  unfold copyFds
  rw [List.range_succ, List.foldl_append]
  rfl

theorem copyFds_rest (files addr : ℕ → ℕ) (n : ℕ) :
    (s.copyFds files addr n).tables = s.tables ∧ (s.copyFds files addr n).processes = s.processes ∧
      (s.copyFds files addr n).outside = s.outside ∧
      (s.copyFds files addr n).misplaced = s.misplaced := by
  induction n with
  | zero => exact ⟨rfl, rfl, rfl, rfl⟩
  | succ n ih =>
    rw [copyFds_succ]
    split
    · exact ih
    · exact ih

section Fork

variable {files addr : ℕ → ℕ} {n : ℕ} (hnew : ∀ i < n, addr i ≠ 0 ∧ addr i ∉ s.descriptors)
  (hinj : ∀ i < n, ∀ j < n, addr i = addr j → i = j)
include hnew

/-- The objects that there were keep their counts. -/
theorem copyFds_instances {x : ℕ} (hx : x ∈ s.descriptors) :
    (s.copyFds files addr n).instances x = s.instances x := by
  induction n with
  | zero => rfl
  | succ n ih =>
    have hold := ih fun i hi => hnew i (by omega)
    rw [copyFds_succ]
    split
    · refine (Function.update_of_ne ?_ ..).trans hold
      rintro rfl
      exact (hnew n (by omega)).2 hx
    · exact hold

include hinj

/-- A copy has the count of the original. -/
theorem copyFds_copy (hmem : ∀ i < n, files i ≠ 0 → files i ∈ s.descriptors) {i : ℕ} (hi : i < n)
    (hne : files i ≠ 0) : addr i ∈ (s.copyFds files addr n).descriptors ∧
      (s.copyFds files addr n).instances (addr i) = s.instances (files i) := by
  induction n with
  | zero => omega
  | succ n ih =>
    rw [copyFds_succ]
    by_cases hin : i = n
    · subst hin
      rw [if_pos hne]
      refine ⟨Finset.mem_insert_self .., (Function.update_self ..).trans ?_⟩
      exact copyFds_instances (fun j hj => hnew j (by omega)) (hmem i hi hne)
    · obtain ⟨hold, hcount⟩ := ih (fun j hj => hnew j (by omega))
        (fun j hj k hk => hinj j (by omega) k (by omega)) (fun j hj => hmem j (by omega)) (by omega)
      split
      · refine ⟨Finset.mem_insert_of_mem hold, (Function.update_of_ne ?_ ..).trans hcount⟩
        exact fun he => hin (hinj i hi n (by omega) he)
      · exact ⟨hold, hcount⟩

omit hnew in
theorem tally_childFiles {i : ℕ} (hi : i < n) (hne : files i ≠ 0) (h0 : addr i ≠ 0) :
    tally n (childFiles files addr) (· = addr i) = 1 := by
  unfold tally
  rw [Finset.card_eq_one]
  refine ⟨i, ?_⟩
  ext j
  rw [Finset.mem_filter, Finset.mem_range, Finset.mem_singleton]
  unfold childFiles
  constructor
  · rintro ⟨hj, heq⟩
    split at heq
    · exact hinj j hj i hi heq
    · exact absurd heq.symm h0
  · rintro rfl
    exact ⟨hi, if_pos hne⟩

/-- Copies of objects that are each in one slot are counted by the slots of the child. -/
theorem Counts.copyFds {c : ℕ → ℕ} (h : s.Counts c)
    (hmem : ∀ i < n, files i ≠ 0 → files i ∈ s.descriptors)
    (hone : ∀ i < n, files i ≠ 0 → s.instances (files i) = 1) :
    (s.copyFds files addr n).Counts fun x => c x + tally n (childFiles files addr) (· = x) := by
  induction n with
  | zero => exact h
  | succ n ih =>
    have hnew' : ∀ i < n, addr i ≠ 0 ∧ addr i ∉ s.descriptors := fun i hi => hnew i (by omega)
    have hih := ih hnew' (fun j hj k hk => hinj j (by omega) k (by omega))
      (fun j hj => hmem j (by omega)) (fun j hj => hone j (by omega))
    have hstep : ∀ x, tally (n + 1) (childFiles files addr) (· = x) =
        tally n (childFiles files addr) (· = x) + if childFiles files addr n = x then 1 else 0 :=
      fun x => tally_succ
    rw [copyFds_succ]
    by_cases hne : files n ≠ 0
    · obtain ⟨haddr, hfree⟩ := hnew n (by omega)
      have hzero : c (addr n) + tally n (childFiles files addr) (· = addr n) = 0 := by
        have hc0 : c (addr n) = 0 := by
          have hnot := mt (h.allocated (addr n) haddr).mpr hfree
          omega
        rw [hc0, tally_eq_zero]
        intro j hj
        unfold childFiles
        split
        · exact fun he => absurd (hinj j (by omega) n (by omega) he) (by omega)
        · exact haddr.symm
      have hfree' : addr n ∉ (s.copyFds files addr n).descriptors := by
        rw [hih.allocated _ haddr]
        omega
      rw [if_pos hne, copyFds_instances hnew' (hmem n (by omega) hne), hone n (by omega) hne]
      refine (hih.alloc haddr hfree').congr fun x _ => ?_
      have hself : childFiles files addr n = addr n := if_pos hne
      rw [hstep, hself]
      omega
    · rw [if_neg hne]
      refine hih.congr fun x hx => ?_
      have hself : childFiles files addr n = 0 := if_neg hne
      rw [hstep, hself, if_neg hx.symm]
      rfl

end Fork

/-- What `fork` leaves and what it adds. -/
theorem forkTables_eq {p child : ℕ} {addr : ℕ → ℕ} (hchild : child ∉ s.processes) :
    (s.forkTables p child addr).processes = insert child s.processes ∧
      (∀ q ∈ s.processes, (s.forkTables p child addr).tables q = s.tables q) ∧
      ((s.forkTables p child addr).tables child).filesSize = (s.tables p).filesSize ∧
      ((s.forkTables p child addr).tables child).filesCount = (s.tables p).filesCount ∧
      ∀ i < (s.tables p).filesSize, ((s.forkTables p child addr).tables child).files i =
        childFiles (s.tables p).files addr i := by
  obtain ⟨htables, hproc, -⟩ := @copyFds_rest s (s.tables p).files addr (s.tables p).filesSize
  have hself : (s.forkTables p child addr).tables child = { s.tables p with
      files := fun i => if i < (s.tables p).filesSize ∧ (s.tables p).files i ≠ 0 then addr i else 0 } :=
    Function.update_self ..
  refine ⟨congrArg (insert child) hproc, fun q hq => ?_, by rw [hself], by rw [hself],
    fun i hi => ?_⟩
  · have hne : q ≠ child := fun he => hchild (he ▸ hq)
    exact (Function.update_of_ne hne ..).trans (congrFun htables q)
  · rw [hself]
    unfold childFiles
    dsimp only
    by_cases hne : (s.tables p).files i ≠ 0
    · rw [if_pos ⟨hi, hne⟩, if_pos hne]
    · rw [if_neg fun hb => hne hb.2, if_neg hne]

theorem slots_forkTables {p child : ℕ} {addr : ℕ → ℕ} (hchild : child ∉ s.processes) (x : ℕ) :
    (s.forkTables p child addr).slots x =
      s.slots x + tally (s.tables p).filesSize (childFiles (s.tables p).files addr) (· = x) := by
  obtain ⟨hproc, hold, hsize, -, hfiles⟩ := @forkTables_eq s p child addr hchild
  unfold slots
  rw [hproc, Finset.sum_insert hchild, hsize, tally_congr hfiles, Nat.add_comm]
  congr 1
  apply Finset.sum_congr rfl
  intro q hq
  rw [hold q hq]

theorem Inv.forkTables {p child : ℕ} {addr : ℕ → ℕ} (h : s.Inv) (hp : p ∈ s.processes)
    (hchild : child ∉ s.processes)
    (hnew : ∀ i < (s.tables p).filesSize, addr i ≠ 0 ∧ addr i ∉ s.descriptors)
    (hinj : ∀ i < (s.tables p).filesSize, ∀ j < (s.tables p).filesSize, addr i = addr j → i = j)
    (hc : s.Careful (.fork p child addr)) : (s.forkTables p child addr).Inv := by
  obtain ⟨hproc, hold, hsize, hcount, hfiles⟩ := @forkTables_eq s p child addr hchild
  obtain ⟨-, -, hout, hmis⟩ := @copyFds_rest s (s.tables p).files addr (s.tables p).filesSize
  have hcounts := h.counts.copyFds hnew hinj (fun i hi hne => h.mem_descriptors hp hi hne) hc
  have hnull : ∀ i < (s.tables p).filesSize,
      (childFiles (s.tables p).files addr i ≠ 0 ↔ (s.tables p).files i ≠ 0) := by
    intro i hi
    unfold childFiles
    split
    · rename_i hne
      exact iff_of_true (hnew i hi).1 hne
    · rename_i hne
      exact iff_of_false (not_not.mpr rfl) hne
  refine ⟨⟨fun q hq => ?_, fun x hx => ?_, fun x hx => ?_, hout.trans h.outside,
    hmis.trans h.misplaced⟩, fun q hq => ?_, hcounts.null⟩
  · rw [hproc, Finset.mem_insert] at hq
    by_cases hqc : q = child
    · rw [hqc, hcount, hsize, tally_congr hfiles, h.filesCount p hp]
      unfold tally
      congr 1
      apply Finset.filter_congr
      intro i hi
      exact (hnull i (Finset.mem_range.mp hi)).symm
    · rw [hold q (hq.resolve_left hqc)]
      exact h.filesCount q (hq.resolve_left hqc)
  · rw [slots_forkTables hchild]
    exact hcounts.instances x hx
  · rw [slots_forkTables hchild]
    exact hcounts.allocated x hx
  · rw [hproc, Finset.mem_insert] at hq
    by_cases hqc : q = child
    · obtain ⟨hthree, hused⟩ := h.three p hp
      rw [hqc, hsize]
      refine ⟨hthree, fun i hi => ?_⟩
      rw [hfiles i (by omega)]
      exact (hnull i (by omega)).mpr (hused i hi)
    · rw [hold q (hq.resolve_left hqc)]
      exact h.three q (hq.resolve_left hqc)

/-- The copy of a descriptor that is in several slots is in one slot. -/
theorem Inv.forkTables_not_sound {p child : ℕ} {addr : ℕ → ℕ} (h : s.Inv) (hp : p ∈ s.processes)
    (hchild : child ∉ s.processes)
    (hnew : ∀ i < (s.tables p).filesSize, addr i ≠ 0 ∧ addr i ∉ s.descriptors)
    (hinj : ∀ i < (s.tables p).filesSize, ∀ j < (s.tables p).filesSize, addr i = addr j → i = j)
    (hc : ¬s.Careful (.fork p child addr)) : ¬(s.forkTables p child addr).Sound := by
  intro hsound
  apply hc
  intro i hi hne
  obtain ⟨hmem, hcopy⟩ := copyFds_copy hnew hinj (fun j hj hj' => h.mem_descriptors hp hj hj') hi hne
  have hcount := hsound.instances (addr i) hmem
  have hzero : s.slots (addr i) = 0 := by
    have hnot := mt (h.allocated (addr i) (hnew i hi).1).mpr (hnew i hi).2
    omega
  rw [slots_forkTables hchild, hzero, tally_childFiles hinj hi hne (hnew i hi).1] at hcount
  exact hcopy.symm.trans hcount

/-! ## Runs -/

theorem Inv.step {a : FdCall} (h : s.Inv) (hc : s.Careful a) (hs : s.step a = some s') : s'.Inv := by
  unfold FdState.step at hs
  cases a with
  | openFile p file g =>
    obtain ⟨⟨hp, hnew⟩, hs⟩ := Option.ite_none_right_eq_some.mp hs
    exact Option.some.inj hs ▸ h.syscallOpen hp hnew hc
  | close p ebx =>
    obtain ⟨hp, hs⟩ := Option.ite_none_right_eq_some.mp hs
    exact Option.some.inj hs ▸ h.syscallClose hp hc
  | openio p file word g =>
    obtain ⟨⟨hp, hfile, hnew⟩, hs⟩ := Option.ite_none_right_eq_some.mp hs
    obtain ⟨rfl, hclean⟩ := hc
    exact Option.some.inj hs ▸ h.syscallOpenio hp hfile hnew hclean
  | dup p ebx ecx g =>
    obtain ⟨hp, hs⟩ := Option.ite_none_right_eq_some.mp hs
    exact h.syscallDup hp hc hs
  | lookup p ebx both =>
    obtain ⟨hp, hs⟩ := Option.ite_none_right_eq_some.mp hs
    exact Option.some.inj hs ▸ h.lookup hc
  | fork p child addr =>
    obtain ⟨⟨hp, hchild, hnew, hinj⟩, hs⟩ := Option.ite_none_right_eq_some.mp hs
    exact Option.some.inj hs ▸ h.forkTables hp hchild hnew hinj hc
  | exit p =>
    obtain ⟨⟨hp, -⟩, hs⟩ := Option.ite_none_right_eq_some.mp hs
    exact Option.some.inj hs ▸ h.exitTables hp

theorem Inv.step_not_sound {a : FdCall} (h : s.Inv) (hc : ¬s.Careful a) (hs : s.step a = some s') :
    ¬s'.Sound := by
  unfold FdState.step at hs
  cases a with
  | openFile p file g =>
    obtain ⟨⟨hp, hnew⟩, hs⟩ := Option.ite_none_right_eq_some.mp hs
    exact Option.some.inj hs ▸ h.syscallOpen_not_sound hp hc
  | close p ebx =>
    obtain ⟨hp, hs⟩ := Option.ite_none_right_eq_some.mp hs
    exact Option.some.inj hs ▸ h.syscallClose_not_sound hp (not_not.mp hc)
  | openio p file word g =>
    obtain ⟨⟨hp, hfile, hnew⟩, hs⟩ := Option.ite_none_right_eq_some.mp hs
    exact Option.some.inj hs ▸ h.syscallOpenio_not_sound hp hfile hnew hc
  | dup p ebx ecx g =>
    obtain ⟨hp, hs⟩ := Option.ite_none_right_eq_some.mp hs
    exact h.syscallDup_not_sound hp hc hs
  | lookup p ebx both =>
    obtain ⟨hp, hs⟩ := Option.ite_none_right_eq_some.mp hs
    exact Option.some.inj hs ▸ lookup_not_sound hc
  | fork p child addr =>
    obtain ⟨⟨hp, hchild, hnew, hinj⟩, hs⟩ := Option.ite_none_right_eq_some.mp hs
    exact Option.some.inj hs ▸ h.forkTables_not_sound hp hchild hnew hinj hc
  | exit p => exact absurd trivial hc

end FdState

/-- The state that `spawn_init_process` sets up: the descriptor `std` is in the first three
of five slots. -/
structure FdState.Spawned (s : FdState) (std : ℕ) : Prop where
  processes : s.processes = {1}
  filesSize : (s.tables 1).filesSize = 5
  filesCount : (s.tables 1).filesCount = 3
  std_ne : std ≠ 0
  files : ∀ i < 5, (s.tables 1).files i = if i < 3 then std else 0
  descriptors : s.descriptors = {std}
  instances : s.instances std = 3
  outside : s.outside = false
  misplaced : s.misplaced = false

theorem FdState.Spawned.inv {s : FdState} {std : ℕ} (h : s.Spawned std) : s.Inv := by
  have htally : ∀ (P : ℕ → Prop) [DecidablePred P], ¬P 0 →
      tally (s.tables 1).filesSize (s.tables 1).files P = if P std then 3 else 0 := by
    intro P _ hP
    rw [h.filesSize, tally_congr h.files]
    simp only [tally_succ, tally_zero]
    simp [hP]
    split <;> rfl
  have hslots : ∀ x, x ≠ 0 → s.slots x = if std = x then 3 else 0 := by
    intro x hx
    unfold FdState.slots
    rw [h.processes, Finset.sum_singleton]
    exact htally (· = x) hx.symm
  refine ⟨⟨fun p hp => ?_, fun x hx => ?_, fun x hx => ?_, h.outside, h.misplaced⟩, fun p hp => ?_, ?_⟩
  · rw [h.processes, Finset.mem_singleton] at hp
    rw [hp, htally (· ≠ 0) (not_not.mpr rfl), if_pos h.std_ne, h.filesCount]
  · rw [h.descriptors, Finset.mem_singleton] at hx
    rw [hx, hslots std h.std_ne, if_pos rfl, h.instances]
  · rw [h.descriptors, Finset.mem_singleton, hslots x hx]
    by_cases hstd : std = x
    · rw [if_pos hstd]
      exact iff_of_true hstd.symm (by decide)
    · rw [if_neg hstd]
      exact iff_of_false (Ne.symm hstd) (by decide)
  · rw [h.processes, Finset.mem_singleton] at hp
    rw [hp, h.filesSize]
    refine ⟨by decide, fun i hi => ?_⟩
    rw [h.files i (by omega), if_pos hi]
    exact h.std_ne
  · rw [h.descriptors, Finset.mem_singleton]
    exact h.std_ne.symm

/-- All states of a sequence of system calls are sound if and only if all the calls are
careful. -/
theorem fileTables_sound_iff_careful (s : FdState) (std : ℕ) (h : s.Spawned std) (l : List FdCall) :
    Always FdState.step FdState.Sound s l ↔ AllSteps FdState.step FdState.Careful s l :=
  always_iff_allSteps (fun _ h => h.toSound) (fun _ _ _ h hc hs => h.step hc hs)
    (fun _ _ _ h hc hs => h.step_not_sound hc hs) h.inv l

/-- The tables of process 1, with the descriptor 16. -/
def initTables : FdState where
  tables _ := ⟨fun i => if i < 3 then 16 else 0, 5, 3⟩
  processes := {1}
  instances f := if f = 16 then 3 else 0
  descriptors := {16}
  outside := false
  misplaced := false

theorem initTables_spawned : initTables.Spawned 16 :=
  ⟨rfl, rfl, rfl, by decide, fun i _ => rfl, rfl, rfl, rfl, rfl⟩

/-- A file is opened, its descriptor duplicated, and both are closed. -/
theorem fileTables_sound_open_dup_close :
    Always FdState.step FdState.Sound initTables
      [.openFile 1 32 (fun _ => 0), .dup 1 3 0 (fun _ _ => 0), .close 1 3, .close 1 4] := by
  refine (fileTables_sound_iff_careful initTables 16 initTables_spawned _).mpr ?_
  refine .cons rfl (fun _ hfull => absurd hfull (by decide)) (.cons rfl ⟨by decide, fun _ => ⟨?_, ?_⟩⟩
    (.cons rfl (Nat.ne_of_lt ?_) (.cons rfl (Nat.ne_of_lt ?_) trivial)))
  · exact fun _ hfull => absurd hfull (by decide)
  · exact fun h => absurd h (by decide)
  · decide
  · decide

/-- A descriptor is duplicated to a free slot, which is not counted. -/
theorem fileTables_dup_not_counted :
    ∃ s, run FdState.step initTables [.dup 1 0 4 fun _ _ => 0] = some s ∧ ¬s.Sound := by
  refine ⟨_, rfl, fun h => ?_⟩
  have hcount := h.filesCount 1 (by decide)
  revert hcount
  decide

end VkKernel
