import VkKernel.BlockLayer
import VkKernel.Paging

/-!
# Stores through user pointers

The system calls that fill memory of the caller: which bytes they store, starting at a
pointer that the caller passes. `ptr_validate` looks at the first of these bytes only.
The values of the bytes are left out, and so is what the calls do to other memory.
-/

namespace VkKernel.Syscalls

/-- A run of bytes that is stored. Addresses wrap around. -/
structure Store where
  addr : ℕ
  size : ℕ
deriving DecidableEq, Repr

def Store.bytes (s : Store) : Set ℕ := {x | ∃ i < s.size, x = u32 (s.addr + i)}

/-- Stores behind a pointer, given by their offsets and lengths. -/
def storesAt (ptr : ℕ) (fields : List (ℕ × ℕ)) : List Store :=
  fields.map fun f => ⟨u32 (ptr + f.1), f.2⟩

inductive SysCode
  | none
  | unknown
  | fileNotFound
  | fileIsDirectory
  | fileUnsupportedFileSystem
  | fileFsInternal
  | fileOut
  | eof
  | invalidPid
  | isAnotherSession
  | hasNoChild
  | invalidPtr
  | permission
  | noTty
  | noDevice
  | io
  | driver (e : ErrorT)
deriving DecidableEq, Repr

/-- The stores of a call and the code that it returns, if it does not wait for ever. -/
structure Effect where
  stores : List Store
  code : Option SysCode
deriving DecidableEq, Repr

def Effect.fail (e : SysCode) : Effect := ⟨[], some e⟩

/-- `ptr_validate` -/
def ptrValidate (g : Paging) (pd ptr : ℕ) : Bool :=
  if ptr ≥ 0xC0000000 then false
  else if !isMapped ptr pd g then false
  else true

/-! ## Terminals and streams -/

/-- What happens to a terminal while a process waits for a character of it: there is one,
the erase character is typed, or another reader leaves the line buffer as given. -/
inductive TtyEvent
  | char (c : UInt8)
  | erase
  | reader (canonBuffer : List UInt8)
deriving DecidableEq, Repr

/-- A terminal, as the calling process sees it. The line buffer has the last character
first, and `streamCount` characters can be read without waiting. -/
structure Tty where
  isForeground : Bool
  isOwn : Bool
  sameSession : Bool
  canTakeOver : ℕ → Bool
  icanon : Bool
  echoe : Bool
  vmin : ℕ
  vtime : ℕ
  veof : UInt8
  veol : UInt8
  canonBuffer : List UInt8
  streamCount : ℕ
  events : List TtyEvent

/-- The erase character in `tty_input`. -/
def Tty.erase (t : Tty) (canonBuffer : List UInt8) : List UInt8 :=
  match canonBuffer with
  | [] => []
  | c :: l =>
    if t.icanon ∧ t.echoe ∧ c ≠ t.veof ∧ c ≠ t.veol ∧ c ≠ 10 then l else canonBuffer

/-- The loop of `tty_read` in canonical mode: what is left of `count`, and the line buffer.
It ends with the line or the count, and there is no result while it waits. -/
def Tty.readLine (t : Tty) : List TtyEvent → ℕ → List UInt8 → Option (ℕ × List UInt8)
  | _, 0, buf => some (0, buf)
  | [], _ + 1, _ => none
  | .char c :: events, count + 1, buf =>
    if c = 10 then some (count, c :: buf) else t.readLine events count (c :: buf)
  | .erase :: events, count + 1, buf => t.readLine events (count + 1) (t.erase buf)
  | .reader buf' :: events, count + 1, _ => t.readLine events (count + 1) buf'

/-- The number of characters that can be read. -/
def Tty.typed (t : Tty) : ℕ := t.events.countP fun | .char _ => true | _ => false

def Tty.read (t : Tty) (buffer count : ℕ) : Effect :=
  if !t.isForeground then .fail .io
  else if t.icanon then
    match t.readLine t.events count t.canonBuffer with
    | none => ⟨[], none⟩
    | some (left, buf) =>
      let n := u32 buf.length
      -- the line is copied, and the buffer cleared behind it
      ⟨storesAt buffer [(0, n), (n, sub32 left n)], some .none⟩
  else if t.vmin = 0 ∧ t.vtime = 0 then
    ⟨storesAt buffer (if t.streamCount ≠ 0 then [(0, min count t.streamCount)] else []),
      some .none⟩
  else if t.vmin > 0 ∧ t.vtime = 0 then
    let n := min t.vmin count
    ⟨storesAt buffer ((List.range (min n t.typed)).map fun off => (off, 1)),
      if n ≤ t.typed then some .none else none⟩
  else .fail .unknown

/-- `tty_ioctl`. The pointer is used as it is. -/
def Tty.ioctl (t : Tty) (func arg : ℕ) : Effect :=
  if func = 1 then
    if !t.isOwn then .fail .noTty
    else if !t.sameSession then .fail .isAnotherSession
    else if !t.canTakeOver arg then .fail .permission
    else ⟨[], some .none⟩
  else if func = 2 then
    if !t.isOwn then .fail .noTty else ⟨storesAt arg [(0, 4)], some .none⟩
  else .fail .unknown

/-- `iostream_read`, where `available` bytes are on the stream once there are some, and 0
if none ever come. The attribute for one byte is or-ed in, so longer requests fail. -/
def iostreamRead (available buffer count : ℕ) : Effect :=
  if count > 1 then .fail .fileFsInternal
  else if available ≠ 0 then
    ⟨storesAt buffer ((0, min count available) ::
      if available < count then [(count, count - available)] else []), some .none⟩
  else ⟨[], none⟩

/-! ## Files -/

/-- How the driver of a file answers a request for some bytes: with an error code, having
stored a run of bytes from the front of the buffer. -/
abbrev Driver := ℕ → ErrorT × ℕ

inductive Device
  | directory
  | blockdev (d : Driver)
  | blockdevPart (d : Driver)
  | tty (t : Tty)
  | iostream (available : ℕ)

inductive Node
  | ramfs
  | fat32 (d : Driver)
  | ext2 (d : Driver)
  | iso9660 (d : Driver)
  | devfs (d : Device)

/-- An entry of `files`. `entries` is what `read_directory` returns, as the lengths of the
names. -/
structure File where
  isDirectory : Bool
  length : ℕ
  offset : ℕ
  node : Node
  path : List UInt8
  entries : Except SysCode (List ℕ)

def Driver.read (d : Driver) (buffer count : ℕ) : Effect :=
  ⟨storesAt buffer [(0, (d count).2)],
    some (if (d count).1 = .none then .none else .driver (d count).1)⟩

/-- `devfs_read_file` -/
def Device.read (d : Device) (buffer count : ℕ) : Effect :=
  match d with
  | .blockdev d => d.read buffer count
  | .blockdevPart d => d.read buffer count
  | .tty t => t.read buffer (u32 count)
  | .iostream available => iostreamRead available buffer (u32 count)
  | .directory => .fail .fileFsInternal

/-- The count that is left of a request in `read_file`: files of length 0 are special. -/
def File.request (f : File) (count : ℕ) : ℕ :=
  if f.length ≠ 0 ∧ (count + f.offset) % 2 ^ 64 > f.length then f.length - f.offset else count

/-- `read_file` -/
def File.read (f : File) (buffer count : ℕ) : Effect :=
  if f.isDirectory then .fail .fileIsDirectory
  else if f.length ≠ 0 ∧ f.offset ≥ f.length then ⟨storesAt buffer [(0, 1)], some .eof⟩
  else
    let count := f.request count
    if count = 0 then ⟨storesAt buffer [(0, 1)], some .none⟩
    else match f.node with
      | .fat32 d => d.read buffer count
      | .iso9660 d => d.read buffer count
      | .ext2 d => if count ≥ 2 ^ 32 then .fail .fileOut else d.read buffer count
      | .devfs d => d.read buffer count
      | .ramfs => .fail .fileUnsupportedFileSystem

/-! ## The system calls -/

structure Child where
  pid : ℤ
  gid : ℤ
  isZombie : Bool
deriving DecidableEq, Repr

/-- A process that `syscall_getpinfo` is asked about. -/
structure Process where
  isCaller : Bool
  isChild : Bool
  currentDir : List UInt8
deriving DecidableEq, Repr

/-- What the calls read of the caller and the system. Both arrays are read one place
behind their end. `laterChildren` are the children each time the caller wakes up. -/
structure Caller where
  pageDirectory : ℕ
  filesSize : ℕ
  files : ℕ → Option File
  processesSize : ℕ
  processes : ℕ → Option Process
  self : Process
  gid : ℤ
  children : List Child
  laterChildren : List (List Child)

def Caller.file (p : Caller) (ebx : ℕ) : Option File :=
  if p.filesSize < ebx then none else p.files ebx

/-- A register read as a signed number. -/
def int32 (n : ℕ) : ℤ := if n < 2 ^ 31 then n else n - 2 ^ 32

def syscallRead (g : Paging) (p : Caller) (ebx ecx edx : ℕ) : Effect :=
  match p.file ebx with
  | none => .fail .fileNotFound
  | some f => if !ptrValidate g p.pageDirectory ecx then .fail .invalidPtr else f.read ecx edx

/-- The members of `stat_t`: offset and size. -/
def statFields : List (ℕ × ℕ) :=
  [(0, 2), (2, 2), (4, 4), (8, 4), (12, 4), (16, 4), (20, 4), (24, 4), (28, 4), (32, 4),
    (36, 4), (40, 4), (44, 4)]

/-- The inode number is stored again for two of the file systems. -/
def Node.statFields : Node → List (ℕ × ℕ)
  | .ext2 _ => [(2, 2)]
  | .iso9660 _ => [(2, 2)]
  | _ => []

def syscallStat (g : Paging) (p : Caller) (ebx edx : ℕ) : Effect :=
  match p.file ebx with
  | none => .fail .fileNotFound
  | some f =>
    if !ptrValidate g p.pageDirectory edx then .fail .invalidPtr
    else ⟨storesAt edx (statFields ++ f.node.statFields), some .none⟩

/-- `ecx` is 1 for the type of the device and 2 for the path, which `strncpy` ends with a
zero byte before the call does. -/
def syscallFinfo (g : Paging) (p : Caller) (ebx ecx edx : ℕ) : Effect :=
  match p.file ebx with
  | none => .fail .fileNotFound
  | some f =>
    if !ptrValidate g p.pageDirectory edx then .fail .invalidPtr
    else if ecx = 1 then ⟨storesAt edx [(0, 4)], some .none⟩
    else if ecx = 2 then
      let pathLen := f.path.length
      ⟨storesAt edx [(0, pathLen), (pathLen, 1), (pathLen, 1)], some .none⟩
    else .fail .unknown

def syscallReaddir (g : Paging) (p : Caller) (ebx ecx edx : ℕ) : Effect :=
  match p.file ebx with
  | none => .fail .fileNotFound
  | some f =>
    if !ptrValidate g p.pageDirectory edx then .fail .invalidPtr
    else match f.entries with
      | .error e => .fail e
      | .ok l =>
        match l[ecx]? with
        | none => .fail .fileOut
        | some nameLen =>
          let minsize := if nameLen < 255 then nameLen else 255
          ⟨storesAt edx [(0, 4), (4, minsize), (4 + minsize, 1)], some .none⟩

/-- The child that is waited for, by the sign of `pid`. -/
def Child.matches (c : Child) (ebx : ℕ) (gid : ℤ) : Bool :=
  c.isZombie &&
    if int32 ebx < -1 then c.gid = int32 (sub32 0 ebx)
    else if int32 ebx = -1 then true
    else if int32 ebx = 0 then c.gid = gid
    else c.pid = int32 ebx

/-- `syscall_wait` looks for a zombie again each time it wakes up. -/
def syscallWait (g : Paging) (p : Caller) (ebx ecx : ℕ) : Effect :=
  if ecx ≠ 0 ∧ !ptrValidate g p.pageDirectory ecx then .fail .invalidPtr
  else if p.children = [] then .fail .hasNoChild
  else match (p.children :: p.laterChildren).findSome? (·.find? (·.matches ebx p.gid)) with
    | none => ⟨[], none⟩
    | some _ => ⟨storesAt ecx (if ecx ≠ 0 then [(0, 4)] else []), some .none⟩

/-- The process that `ebx` names, if the caller may look at it. -/
def Caller.process (p : Caller) (ebx : ℕ) : Except SysCode Process :=
  if int32 ebx < 0 ∨ int32 ebx > int32 p.processesSize then .error .invalidPid
  else match (if ebx = 0 then some p.self else p.processes ebx) with
    | none => .error .permission
    | some q => if !q.isCaller && !q.isChild then .error .permission else .ok q

/-- `ecx` is 1 for the number of the process, 2 for that of its parent, 4 for that of its
group and 3 for the working directory. -/
def syscallGetpinfo (g : Paging) (p : Caller) (ebx ecx edx : ℕ) : Effect :=
  if !ptrValidate g p.pageDirectory edx then .fail .invalidPtr
  else match p.process ebx with
    | .error e => .fail e
    | .ok q =>
      if ecx = 1 ∨ ecx = 2 ∨ ecx = 4 then ⟨storesAt edx [(0, 4)], some .none⟩
      else if ecx = 3 then ⟨storesAt edx [(0, q.currentDir.length + 1)], some .none⟩
      else .fail .unknown

def syscallIoctl (p : Caller) (ebx ecx edx : ℕ) : Effect :=
  match p.file ebx with
  | none => .fail .fileNotFound
  | some f =>
    match f.node with
    | .devfs (.tty t) => t.ioctl ecx edx
    | .devfs _ => .fail .unknown
    | _ => .fail .noDevice

inductive Call
  | read
  | stat
  | finfo
  | readdir
  | wait
  | getpinfo
  | ioctl
deriving DecidableEq, Repr

structure Registers where
  ebx : UInt32
  ecx : UInt32
  edx : UInt32

def syscall (g : Paging) (p : Caller) (c : Call) (r : Registers) : Effect :=
  let ebx := r.ebx.toNat
  let ecx := r.ecx.toNat
  let edx := r.edx.toNat
  match c with
  | .read => syscallRead g p ebx ecx edx
  | .stat => syscallStat g p ebx edx
  | .finfo => syscallFinfo g p ebx ecx edx
  | .readdir => syscallReaddir g p ebx ecx edx
  | .wait => syscallWait g p ebx ecx
  | .getpinfo => syscallGetpinfo g p ebx ecx edx
  | .ioctl => syscallIoctl p ebx ecx edx

/-- Every byte that is stored belongs to the user half and is mapped. -/
def UserOnly (g : Paging) (pd : ℕ) (l : List Store) : Prop :=
  ∀ s ∈ l, ∀ x ∈ s.bytes, x < 0xC0000000 ∧ isMapped x pd g

/-! ## How far a call reaches -/

/-- A whole line fits into half of the request, or the length of the part to clear wraps
around. -/
def Tty.readLength (t : Tty) (count : ℕ) : ℕ :=
  if !t.isForeground then 0
  else if t.icanon then
    match t.readLine t.events count t.canonBuffer with
    | none => 0
    | some (left, buf) => if u32 buf.length ≤ left then left else 2 ^ 32
  else if t.vmin = 0 ∧ t.vtime = 0 then min count t.streamCount
  else if t.vmin > 0 ∧ t.vtime = 0 then min (min t.vmin count) t.typed
  else 0

def Device.readLength (d : Device) (count : ℕ) : ℕ :=
  match d with
  | .blockdev d => (d count).2
  | .blockdevPart d => (d count).2
  | .tty t => t.readLength (u32 count)
  | .iostream available => if u32 count = 1 ∧ available ≠ 0 then 1 else 0
  | .directory => 0

def File.readLength (f : File) (count : ℕ) : ℕ :=
  if f.isDirectory then 0
  else if (f.length ≠ 0 ∧ f.offset ≥ f.length) ∨ f.request count = 0 then 1
  else match f.node with
    | .fat32 d => (d (f.request count)).2
    | .iso9660 d => (d (f.request count)).2
    | .ext2 d => if f.request count ≥ 2 ^ 32 then 0 else (d (f.request count)).2
    | .devfs d => d.readLength (f.request count)
    | .ramfs => 0

/-- The number of bytes that a call wants to store behind its pointer. -/
def transferLength (p : Caller) (c : Call) (r : Registers) : ℕ :=
  let ecx := r.ecx.toNat
  match c with
  | .read => (p.file r.ebx.toNat).elim 0 (·.readLength r.edx.toNat)
  | .stat => (p.file r.ebx.toNat).elim 0 fun _ => 48
  | .finfo => (p.file r.ebx.toNat).elim 0 fun f =>
    if ecx = 1 then 4 else if ecx = 2 then f.path.length + 1 else 0
  | .readdir => (p.file r.ebx.toNat).elim 0 fun f =>
    match f.entries with
    | .error _ => 0
    | .ok l => l[ecx]?.elim 0 fun nameLen => 4 + min nameLen 255 + 1
  | .wait =>
    if p.children ≠ [] ∧ ecx ≠ 0 ∧
      ∃ l ∈ p.children :: p.laterChildren, ∃ ch ∈ l, ch.matches r.ebx.toNat p.gid then 4 else 0
  | .getpinfo =>
    match p.process r.ebx.toNat with
    | .error _ => 0
    | .ok q => if ecx = 1 ∨ ecx = 2 ∨ ecx = 4 then 4
      else if ecx = 3 then q.currentDir.length + 1 else 0
  | .ioctl => (p.file r.ebx.toNat).elim 0 fun f =>
    match f.node with
    | .devfs (.tty t) => if ecx = 2 ∧ t.isOwn then 4 else 0
    | _ => 0

/-- The register with the pointer. -/
def pointer (c : Call) (r : Registers) : ℕ :=
  match c with
  | .read => r.ecx.toNat
  | .wait => r.ecx.toNat
  | _ => r.edx.toNat

/-- The bytes end with the user half, and each page that begins among them is mapped. -/
def Fits (g : Paging) (pd ptr n : ℕ) : Prop :=
  ptr + n ≤ 0xC0000000 ∧ ∀ q, ptr < 4096 * q → 4096 * q < ptr + n → isMapped (4096 * q) pd g

/-- The call has nothing to store, or refuses the pointer, or the pointer is valid and so
are all the bytes behind it. The request to a terminal does not look at its pointer. -/
def StaysInUserMemory (g : Paging) (p : Caller) (c : Call) (r : Registers) : Prop :=
  transferLength p c r = 0 ∨
    (c ≠ .ioctl ∧ ptrValidate g p.pageDirectory (pointer c r) = false) ∨
    (ptrValidate g p.pageDirectory (pointer c r) = true ∧
      Fits g p.pageDirectory (pointer c r) (transferLength p c r))

/-! ### Runs of bytes -/

theorem ptrValidate_iff {g : Paging} {pd ptr : ℕ} :
    ptrValidate g pd ptr = true ↔ ptr < 0xC0000000 ∧ isMapped ptr pd g = true := by
  unfold ptrValidate
  split_ifs with h1 h2 <;> simp_all

/-- The fields make up a run of `n` bytes, up to the wrapping of addresses. -/
def Covers (fields : List (ℕ × ℕ)) (n : ℕ) : Prop :=
  ∀ ptr x, (∃ s ∈ storesAt ptr fields, x ∈ s.bytes) ↔ ∃ i < n, x = u32 (ptr + i)

theorem mem_storesAt {ptr x : ℕ} {fields : List (ℕ × ℕ)} :
    (∃ s ∈ storesAt ptr fields, x ∈ s.bytes) ↔
      ∃ f ∈ fields, ∃ i < f.2, x = u32 (ptr + (f.1 + i)) := by
  simp only [storesAt, List.mem_map, Store.bytes, exists_exists_and_eq_and, Set.mem_ofPred_eq]
  have hwrap : ∀ f : ℕ × ℕ, ∀ i, u32 (u32 (ptr + f.1) + i) = u32 (ptr + (f.1 + i)) := by
    intro f i
    rw [u32, u32, u32, Nat.mod_add_mod, Nat.add_assoc]
  simp only [hwrap]

theorem covers_of_offsets {fields : List (ℕ × ℕ)} {n : ℕ}
    (h : ∀ i, (∃ f ∈ fields, f.1 ≤ i ∧ i < f.1 + f.2) ↔ i < n) : Covers fields n := by
  intro ptr x
  rw [mem_storesAt]
  constructor
  · intro ⟨f, hf, i, hi, hx⟩
    exact ⟨f.1 + i, (h _).mp ⟨f, hf, by omega, by omega⟩, hx⟩
  · intro ⟨i, hi, hx⟩
    obtain ⟨f, hf, h1, h2⟩ := (h i).mpr hi
    exact ⟨f, hf, i - f.1, by omega, by rw [Nat.add_sub_of_le h1, hx]⟩

theorem userOnly_storesAt_iff {g : Paging} {pd ptr n : ℕ} {fields : List (ℕ × ℕ)}
    (hc : Covers fields n) (hv : ptrValidate g pd ptr = true) :
    UserOnly g pd (storesAt ptr fields) ↔ Fits g pd ptr n := by
  obtain ⟨hlt, hmap⟩ := ptrValidate_iff.mp hv
  have hall : UserOnly g pd (storesAt ptr fields) ↔
      ∀ i < n, u32 (ptr + i) < 0xC0000000 ∧ isMapped (u32 (ptr + i)) pd g := by
    constructor
    · intro h i hi
      obtain ⟨s, hs, hx⟩ := (hc ptr (u32 (ptr + i))).mpr ⟨i, hi, rfl⟩
      exact h s hs _ hx
    · intro h s hs x hx
      obtain ⟨i, hi, rfl⟩ := (hc ptr x).mp ⟨s, hs, hx⟩
      exact h i hi
  rw [hall]
  constructor
  · intro h
    -- otherwise the first address of the kernel is among those stored
    have hend : ptr + n ≤ 0xC0000000 := by
      by_contra hgt
      have hat := (h (0xC0000000 - ptr) (by omega)).1
      rw [Nat.add_sub_of_le hlt.le, u32_of_lt (by norm_num)] at hat
      omega
    refine ⟨hend, ?_⟩
    intro q hq hq'
    have hat := (h (4096 * q - ptr) (by omega)).2
    rwa [Nat.add_sub_of_le hq.le, u32_of_lt (by omega)] at hat
  · intro ⟨hend, hpages⟩ i hi
    rw [u32_of_lt (by omega)]
    refine ⟨by omega, ?_⟩
    by_cases hpage : (ptr + i) / 4096 = ptr / 4096
    · rwa [isMapped_congr pd g hpage]
    · rw [@isMapped_congr _ (4096 * ((ptr + i) / 4096)) pd g (by omega)]
      exact hpages _ (by omega) (by omega)

/-- The call stores `n` bytes from `ptr` on. -/
def Effect.Reaches (e : Effect) (ptr n : ℕ) : Prop :=
  ∃ fields, e.stores = storesAt ptr fields ∧ Covers fields n

theorem reaches_nil {ptr n : ℕ} {code : Option SysCode} (h : n = 0) :
    (Effect.mk [] code).Reaches ptr n := by
  refine ⟨[], rfl, covers_of_offsets ?_⟩
  simp [h]

theorem reaches_fail (e : SysCode) (ptr : ℕ) : (Effect.fail e).Reaches ptr 0 := reaches_nil rfl

theorem reaches_one {ptr n : ℕ} {code : Option SysCode} :
    (Effect.mk (storesAt ptr [(0, n)]) code).Reaches ptr n := by
  refine ⟨_, rfl, covers_of_offsets ?_⟩
  simp

/-! ### What each call reaches -/

theorem Tty.readLine_left_le {t : Tty} {events : List TtyEvent} {count left : ℕ}
    {buf buf' : List UInt8} (h : t.readLine events count buf = some (left, buf')) :
    left ≤ count := by
  induction events generalizing count buf with
  | nil =>
    cases count with
    | zero =>
      simp only [readLine, Option.some.injEq, Prod.mk.injEq] at h
      omega
    | succ count => simp [readLine] at h
  | cons e events ih =>
    cases count with
    | zero =>
      simp only [readLine, Option.some.injEq, Prod.mk.injEq] at h
      omega
    | succ count =>
      cases e with
      | char c =>
        simp only [readLine] at h
        split_ifs at h with hc
        · simp only [Option.some.injEq, Prod.mk.injEq] at h
          omega
        · have := ih h
          omega
      | erase => exact ih h
      | reader b => exact ih h

/-- The two runs of a line: together what is left of the request, or all addresses. -/
theorem covers_line {left n : ℕ} (hl : left < 2 ^ 32) (hn : n < 2 ^ 32) :
    Covers [(0, n), (n, sub32 left n)] (if n ≤ left then left else 2 ^ 32) := by
  by_cases h : n ≤ left
  · rw [if_pos h, sub32_of_le hl h]
    apply covers_of_offsets
    intro i
    simp only [List.mem_cons, List.not_mem_nil, or_false, exists_eq_or_imp, exists_eq_left]
    omega
  · rw [if_neg h]
    intro ptr x
    have hsub : sub32 left n = 2 ^ 32 + left - n := by
      unfold sub32 u32
      omega
    rw [mem_storesAt, hsub]
    constructor
    · intro ⟨f, _, i, _, hx⟩
      refine ⟨(f.1 + i) % 2 ^ 32, Nat.mod_lt _ (by norm_num), ?_⟩
      rw [hx, u32, u32, Nat.add_mod_mod]
    · intro ⟨i, hi, hx⟩
      by_cases hin : i < n
      · exact ⟨(0, n), by simp, i, hin, by rw [hx, Nat.zero_add]⟩
      · refine ⟨(n, 2 ^ 32 + left - n), by simp, i - n, by dsimp only; omega, ?_⟩
        rw [hx, Nat.add_sub_of_le (not_lt.mp hin)]

theorem Tty.read_reaches (t : Tty) (buffer : ℕ) {count : ℕ} (hcount : count < 2 ^ 32) :
    (t.read buffer count).Reaches buffer (t.readLength count) := by
  unfold read readLength
  split_ifs with h1 h2 h3 h4 h5
  · exact reaches_fail _ _
  · cases hline : t.readLine t.events count t.canonBuffer with
    | none => exact reaches_nil rfl
    | some q =>
      have hle := readLine_left_le hline
      exact ⟨_, rfl, covers_line (by omega) (u32_lt _)⟩
  · exact reaches_one
  · apply reaches_nil
    simp only [not_not.mp h4, Nat.min_zero]
  · refine ⟨_, rfl, covers_of_offsets ?_⟩
    intro i
    simp only [List.mem_map, List.mem_range, exists_exists_and_eq_and]
    constructor
    · intro ⟨off, hoff, h1, h2⟩
      omega
    · intro hi
      exact ⟨i, hi, by omega, by omega⟩
  · exact reaches_fail _ _

theorem iostreamRead_reaches (available buffer : ℕ) {count : ℕ} (hpos : count ≠ 0) :
    (iostreamRead available buffer count).Reaches buffer
      (if count = 1 ∧ available ≠ 0 then 1 else 0) := by
  unfold iostreamRead
  by_cases h1 : count > 1
  · rw [if_pos h1, if_neg (by omega)]
    exact reaches_fail _ _
  · rw [if_neg h1]
    have hone : count = 1 := by omega
    by_cases h2 : available ≠ 0
    · rw [if_pos h2, if_neg (by omega), if_pos ⟨hone, h2⟩, hone, Nat.min_eq_left (by omega)]
      exact reaches_one
    · rw [if_neg h2, if_neg (by tauto)]
      exact reaches_nil rfl

theorem Device.read_reaches (d : Device) (buffer : ℕ) {count : ℕ} (hpos : count ≠ 0)
    (hcount : count < 2 ^ 32) : (d.read buffer count).Reaches buffer (d.readLength count) := by
  cases d with
  | directory => exact reaches_fail _ _
  | blockdev d => exact reaches_one
  | blockdevPart d => exact reaches_one
  | tty t => exact t.read_reaches buffer (u32_lt _)
  | iostream available =>
    apply iostreamRead_reaches
    rwa [u32_of_lt hcount]

theorem File.request_lt (f : File) {count : ℕ} (hcount : count < 2 ^ 32) :
    f.request count < 2 ^ 32 := by
  unfold request
  split_ifs with h
  · have := Nat.mod_le (count + f.offset) (2 ^ 64)
    omega
  · exact hcount

theorem File.read_reaches (f : File) (buffer : ℕ) {count : ℕ} (hcount : count < 2 ^ 32) :
    (f.read buffer count).Reaches buffer (f.readLength count) := by
  unfold read readLength
  by_cases hdir : f.isDirectory = true
  · rw [if_pos hdir, if_pos hdir]
    exact reaches_fail _ _
  rw [if_neg hdir, if_neg hdir]
  by_cases hend : f.length ≠ 0 ∧ f.offset ≥ f.length
  · rw [if_pos hend, if_pos (Or.inl hend)]
    exact reaches_one
  rw [if_neg hend]
  by_cases hzero : f.request count = 0
  · rw [if_pos hzero, if_pos (Or.inr hzero)]
    exact reaches_one
  rw [if_neg hzero, if_neg (by tauto)]
  have hlt : f.request count < 2 ^ 32 := f.request_lt hcount
  cases f.node with
  | ramfs => exact reaches_fail _ _
  | fat32 d => exact reaches_one
  | iso9660 d => exact reaches_one
  | ext2 d =>
    dsimp only
    rw [if_neg (by omega), if_neg (by omega)]
    exact reaches_one
  | devfs d => exact d.read_reaches buffer hzero hlt

theorem covers_stat (node : Node) : Covers (statFields ++ node.statFields) 48 := by
  apply covers_of_offsets
  intro i
  constructor
  · intro ⟨f, hf, _, hi⟩
    have hbound : ∀ f ∈ statFields ++ node.statFields, f.1 + f.2 ≤ 48 := by
      cases node <;> simp [statFields, Node.statFields]
    have := hbound f hf
    omega
  · intro hi
    have hall : ∀ i < 48, ∃ f ∈ statFields, f.1 ≤ i ∧ i < f.1 + f.2 := by decide
    obtain ⟨f, hf, h⟩ := hall i hi
    exact ⟨f, List.mem_append_left _ hf, h⟩

theorem Tty.ioctl_reaches (t : Tty) (func arg : ℕ) :
    (t.ioctl func arg).Reaches arg (if func = 2 ∧ t.isOwn then 4 else 0) := by
  unfold ioctl
  by_cases h1 : func = 1
  · have hlen : (if func = 2 ∧ t.isOwn then 4 else 0) = 0 := if_neg (by omega)
    rw [if_pos h1, hlen]
    split_ifs
    · exact reaches_fail _ _
    · exact reaches_fail _ _
    · exact reaches_fail _ _
    · exact reaches_nil rfl
  rw [if_neg h1]
  by_cases h2 : func = 2
  · rw [if_pos h2]
    cases ht : t.isOwn with
    | false =>
      simp only [Bool.not_false, if_true, Bool.false_eq_true, and_false, if_false]
      exact reaches_fail _ _
    | true =>
      simp only [Bool.not_true, Bool.false_eq_true, if_false, h2, and_self, if_true]
      exact reaches_one
  · rw [if_neg h2, if_neg (by tauto)]
    exact reaches_fail _ _

section
variable {g : Paging} {p : Caller} {ebx ecx edx : ℕ}

theorem syscallFinfo_reaches (hv : ptrValidate g p.pageDirectory edx = true) :
    (syscallFinfo g p ebx ecx edx).Reaches edx ((p.file ebx).elim 0 fun f =>
      if ecx = 1 then 4 else if ecx = 2 then f.path.length + 1 else 0) := by
  unfold syscallFinfo
  cases p.file ebx with
  | none => exact reaches_fail _ _
  | some f =>
    simp only [hv, Bool.not_true, Bool.false_eq_true, if_false, Option.elim_some]
    split_ifs
    · exact reaches_one
    · refine ⟨_, rfl, covers_of_offsets ?_⟩
      intro i
      simp only [List.mem_cons, List.not_mem_nil, or_false, exists_eq_or_imp, exists_eq_left]
      omega
    · exact reaches_fail _ _

theorem syscallReaddir_reaches (hv : ptrValidate g p.pageDirectory edx = true) :
    (syscallReaddir g p ebx ecx edx).Reaches edx ((p.file ebx).elim 0 fun f =>
      match f.entries with
      | .error _ => 0
      | .ok l => l[ecx]?.elim 0 fun nameLen => 4 + min nameLen 255 + 1) := by
  unfold syscallReaddir
  cases p.file ebx with
  | none => exact reaches_fail _ _
  | some f =>
    simp only [hv, Bool.not_true, Bool.false_eq_true, if_false, Option.elim_some]
    cases f.entries with
    | error e => exact reaches_fail _ _
    | ok l =>
      dsimp only
      cases l[ecx]? with
      | none => exact reaches_fail _ _
      | some nameLen =>
        refine ⟨_, rfl, covers_of_offsets ?_⟩
        intro i
        simp only [List.mem_cons, List.not_mem_nil, or_false, exists_eq_or_imp, exists_eq_left,
          Option.elim_some]
        split_ifs <;> omega

theorem syscallWait_reaches (hv : ptrValidate g p.pageDirectory ecx = true) :
    (syscallWait g p ebx ecx).Reaches ecx
      (if p.children ≠ [] ∧ ecx ≠ 0 ∧
        ∃ l ∈ p.children :: p.laterChildren, ∃ ch ∈ l, ch.matches ebx p.gid then 4 else 0) := by
  unfold syscallWait
  rw [if_neg (by simp [hv])]
  by_cases hc : p.children = []
  · rw [if_pos hc, if_neg (by tauto)]
    exact reaches_fail _ _
  rw [if_neg hc]
  cases hfind : (p.children :: p.laterChildren).findSome? (·.find? (·.matches ebx p.gid)) with
  | none =>
    apply reaches_nil
    apply if_neg
    intro ⟨_, _, l, hl, ch, hch, hm⟩
    have hnone := List.findSome?_eq_none_iff.mp hfind l hl
    exact List.find?_eq_none.mp hnone ch hch hm
  | some found =>
    obtain ⟨l, hl, hfound⟩ := List.exists_of_findSome?_eq_some hfind
    have hex : ∃ l ∈ p.children :: p.laterChildren, ∃ ch ∈ l, ch.matches ebx p.gid :=
      ⟨l, hl, found, List.mem_of_find?_eq_some hfound, by simpa using List.find?_some hfound⟩
    by_cases h0 : ecx ≠ 0
    · rw [if_pos h0, if_pos ⟨hc, h0, hex⟩]
      exact reaches_one
    · rw [if_neg h0, if_neg fun h => h0 h.2.1]
      exact reaches_nil rfl

theorem syscallGetpinfo_reaches (hv : ptrValidate g p.pageDirectory edx = true) :
    (syscallGetpinfo g p ebx ecx edx).Reaches edx
      (match p.process ebx with
      | .error _ => 0
      | .ok q => if ecx = 1 ∨ ecx = 2 ∨ ecx = 4 then 4
        else if ecx = 3 then q.currentDir.length + 1 else 0) := by
  unfold syscallGetpinfo
  simp only [hv, Bool.not_true, Bool.false_eq_true, if_false]
  cases p.process ebx with
  | error e => exact reaches_fail _ _
  | ok q =>
    dsimp only
    split_ifs
    · exact reaches_one
    · exact reaches_one
    · exact reaches_fail _ _

end

theorem syscall_reaches {g : Paging} {p : Caller} {c : Call} {r : Registers}
    (hv : c ≠ .ioctl → ptrValidate g p.pageDirectory (pointer c r) = true) :
    (syscall g p c r).Reaches (pointer c r) (transferLength p c r) := by
  cases c with
  | read =>
    have hv := hv (by decide)
    dsimp only [syscall, syscallRead, pointer, transferLength] at hv ⊢
    cases p.file r.ebx.toNat with
    | none => exact reaches_fail _ _
    | some f =>
      simp only [hv, Bool.not_true, Bool.false_eq_true, if_false, Option.elim_some]
      exact f.read_reaches _ r.edx.toNat_lt
  | stat =>
    have hv := hv (by decide)
    dsimp only [syscall, syscallStat, pointer, transferLength] at hv ⊢
    cases p.file r.ebx.toNat with
    | none => exact reaches_fail _ _
    | some f =>
      simp only [hv, Bool.not_true, Bool.false_eq_true, if_false, Option.elim_some]
      exact ⟨_, rfl, covers_stat f.node⟩
  | finfo => exact syscallFinfo_reaches (hv (by decide))
  | readdir => exact syscallReaddir_reaches (hv (by decide))
  | wait => exact syscallWait_reaches (hv (by decide))
  | getpinfo => exact syscallGetpinfo_reaches (hv (by decide))
  | ioctl =>
    dsimp only [syscall, syscallIoctl, pointer, transferLength]
    cases p.file r.ebx.toNat with
    | none => exact reaches_fail _ _
    | some f =>
      dsimp only [Option.elim_some]
      cases f.node with
      | devfs d =>
        cases d with
        | tty t => exact t.ioctl_reaches _ _
        | _ => exact reaches_fail _ _
      | _ => exact reaches_fail _ _

/-- Six of the calls look at their pointer first. -/
theorem syscall_stores_of_invalid {g : Paging} {p : Caller} {c : Call} {r : Registers}
    (hc : c ≠ .ioctl) (hv : ptrValidate g p.pageDirectory (pointer c r) = false) :
    (syscall g p c r).stores = [] := by
  have hfile : ∀ e : File → Effect, ∀ ptr, ptrValidate g p.pageDirectory ptr = false →
      (match p.file r.ebx.toNat with
        | none => Effect.fail .fileNotFound
        | some f => if !ptrValidate g p.pageDirectory ptr then .fail .invalidPtr else e f).stores
        = [] := by
    intro e ptr hptr
    cases p.file r.ebx.toNat with
    | none => rfl
    | some f => simp [hptr, Effect.fail]
  cases c with
  | read => exact hfile _ _ hv
  | stat => exact hfile _ _ hv
  | finfo => exact hfile _ _ hv
  | readdir => exact hfile _ _ hv
  | wait =>
    dsimp only [syscall, syscallWait, pointer] at hv ⊢
    by_cases h0 : r.ecx.toNat = 0
    · rw [if_neg fun h => h.1 h0, if_neg (not_not.mpr h0)]
      split
      · rfl
      · split <;> rfl
    · rw [if_pos ⟨h0, by rw [hv, Bool.not_false]⟩]
      rfl
  | getpinfo =>
    dsimp only [syscall, syscallGetpinfo, pointer] at hv ⊢
    simp [hv, Effect.fail]
  | ioctl => exact absurd rfl hc

/-- When a call stores into mapped memory of the user half only. -/
theorem userOnly_syscall_iff (g : Paging) (p : Caller) (c : Call) (r : Registers) :
    UserOnly g p.pageDirectory (syscall g p c r).stores ↔ StaysInUserMemory g p c r := by
  unfold StaysInUserMemory
  by_cases hv : ptrValidate g p.pageDirectory (pointer c r) = true
  · obtain ⟨fields, hstores, hcovers⟩ := syscall_reaches fun _ => hv
    rw [hstores, userOnly_storesAt_iff hcovers hv]
    have hzero : transferLength p c r = 0 →
        Fits g p.pageDirectory (pointer c r) (transferLength p c r) := by
      intro h
      have := (ptrValidate_iff.mp hv).1
      exact ⟨by omega, fun q h1 h2 => absurd h1 (by omega)⟩
    simp only [hv, Bool.true_eq_false, and_false, false_or, true_and]
    tauto
  rw [Bool.not_eq_true] at hv
  by_cases hc : c = .ioctl
  · subst hc
    obtain ⟨fields, hstores, hcovers⟩ := syscall_reaches (g := g) (p := p) (c := .ioctl) (r := r)
      fun h => absurd rfl h
    simp only [ne_eq, not_true_eq_false, false_and, hv, Bool.false_eq_true, or_false]
    rw [hstores]
    constructor
    · -- the first byte lies outside
      intro h
      by_contra hn
      have hptr : pointer .ioctl r < 2 ^ 32 := r.edx.toNat_lt
      obtain ⟨s, hs, hx⟩ := (hcovers (pointer .ioctl r) (pointer .ioctl r)).mpr
        ⟨0, Nat.pos_of_ne_zero hn, (u32_of_lt hptr).symm⟩
      have hat := h s hs _ hx
      rw [ptrValidate_iff.mpr hat] at hv
      cases hv
    · intro h s hs x hx
      obtain ⟨i, hi, _⟩ := (hcovers (pointer .ioctl r) x).mp ⟨s, hs, hx⟩
      omega
  · rw [syscall_stores_of_invalid hc hv]
    simp [UserOnly, hc, hv]

/-! ### A caller with one page of stack -/

/-- The last page of the user half is mapped, and nothing else of it. -/
def stackPaging : Paging where
  word a :=
    if a = 0xC0400000 + 4 * 767 then 0x401007
    else if a = 0xC0401000 + 4 * 1023 then 0x5007
    else 0
  kpheapBlocks i := decide (i < 2)
  kernelPageDirectory := 0xC0300000
  currentPageDirectory := 0xC0400000
  cpuPse := true

/-- Its terminal, after a line was typed. -/
def terminal : Tty where
  isForeground := true
  isOwn := true
  sameSession := true
  canTakeOver _ := false
  icanon := true
  echoe := true
  vmin := 1
  vtime := 0
  veof := 4
  veol := 0
  canonBuffer := []
  streamCount := 2
  events := [.char 97, .char 10]

def terminalFile : File where
  isDirectory := false
  length := 0
  offset := 0
  node := .devfs (.tty terminal)
  path := [47, 116, 116, 121]
  entries := .error .fileIsDirectory

def shell : Caller where
  pageDirectory := 0xC0400000
  filesSize := 3
  files _ := some terminalFile
  processesSize := 10
  processes _ := none
  self := ⟨true, false, [47]⟩
  gid := 1
  children := []
  laterChildren := []

example : StaysInUserMemory stackPaging shell .read ⟨0, 0xBFFFF000, 100⟩ := by
  right
  right
  refine ⟨by decide, by decide, ?_⟩
  intro q h1 h2
  have hptr : pointer .read ⟨0, 0xBFFFF000, 100⟩ = 0xBFFFF000 := by decide
  have hlen : transferLength shell .read ⟨0, 0xBFFFF000, 100⟩ = 98 := by decide
  rw [hptr] at h1 h2
  rw [hlen] at h2
  omega

/-- The request to a terminal stores at any address. A valid pointer close to the end of
the user half lets `syscall_stat` store behind it, and so does a read of fewer characters
than there are in the line. -/
theorem syscalls_store_into_kernel :
    ¬UserOnly stackPaging shell.pageDirectory
        (syscall stackPaging shell .ioctl ⟨0, 2, 0xC0100000⟩).stores ∧
      ¬UserOnly stackPaging shell.pageDirectory
        (syscall stackPaging shell .stat ⟨0, 0, 0xBFFFFFF0⟩).stores ∧
      ¬UserOnly stackPaging shell.pageDirectory
        (syscall stackPaging shell .read ⟨0, 0xBFFFF000, 1⟩).stores := by
  refine ⟨fun h => ?_, fun h => ?_, fun h => ?_⟩
  · have hat := h ⟨0xC0100000, 4⟩ (by decide) 0xC0100000 ⟨0, by decide, by decide⟩
    omega
  · have hat := h ⟨0xC0000000, 4⟩ (by decide) 0xC0000000 ⟨0, by decide, by decide⟩
    omega
  · -- one character is copied, and `2 ^ 32 - 1` bytes behind it are cleared
    have hat := h ⟨0xBFFFF001, 2 ^ 32 - 1⟩ (by decide) 0xC0000000 ⟨0xFFF, by decide, by decide⟩
    omega

end VkKernel.Syscalls
