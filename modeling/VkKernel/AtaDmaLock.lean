import VkKernel.Lib.Trace
import VkKernel.Ata
import VkKernel.Mutex

/-!
# The lock of a drive

`ata_dma_read_flexible` and `ata_dma_write_flexible` as sequences of operations
on the mutex of the drive, its registers and the PRDT buffer. Processes can be
switched between any two of them, so the operations of several calls are
interleaved.
-/

namespace VkKernel.Ata
open Trace

/-! ## Calls as sequences of operations -/

/-- `lock n` is the test of `mutex_lock` with a `return` that leaves out the `n`
operations behind it. Every access to a register of the drive or of the bus
master is a command. -/
inductive DmaOp
  | lock (n : ℕ)
  | command
  | wait
  | copy
  | unlock
deriving DecidableEq, Repr

section Calls
variable (e : Drive)

/-- A transfer from the read or write bit on, with the copy from the PRDT buffer
behind a read. -/
def transferOps (copied : List DmaOp) : List DmaOp :=
  [.command, .command, .wait, .command] ++ copied ++ [.unlock]

/-- `ata_dma_read_flexible` behind the lock. A transfer that has failed is
followed by a reset of the drive. -/
def dmaReadBody (a : Attempt) (sector count : ℕ) : List DmaOp :=
  let bps := if e.atapi then atapiSectorSize else bytesPerSector
  let scount := sectorCount bps count
  if scount > 127 ∨ (scount > 31 ∧ e.atapi) then [.unlock]
  else if e.atapi ∧ sector &&& 0xF0000000 ≠ 0 then [.command, .unlock]
  else if e.atapi ∧ a.packet ≠ .none then [.command, .command, .unlock]
  else if ¬e.atapi ∧ checkSector e.lba48 sector ≠ .none then [.command, .unlock]
  else .command :: transferOps [.copy] ++ if a.dmaOk then [] else [.command]

/-- `ata_dma_read_flexible`. -/
def dmaReadOps (a : Attempt) (sector count : ℕ) : List DmaOp :=
  if count = 0 then []
  else
    let body := dmaReadBody e a sector count
    .lock body.length :: body

/-- `ata_dma_write_flexible` behind the lock, with the answers to its two reads. -/
def dmaWriteBody (first last : Attempt) (sector offset count : ℕ) : List DmaOp :=
  let lastSector := sector + count / 512 * 512
  (if offset ≠ 0 ∨ count % 512 ≠ 0 then dmaReadOps e first sector bytesPerSector else []) ++
    (if lastSector ≠ sector ∧ count % 512 ≠ 0 then dmaReadOps e last lastSector bytesPerSector
      else []) ++
    [.copy, .command] ++
    if checkSector e.lba48 sector ≠ .none then [.unlock] else transferOps []

/-- `ata_dma_write_flexible`. -/
def dmaWriteOps (first last : Attempt) (sector offset count : ℕ) : List DmaOp :=
  if count = 0 then []
  else
    let body := dmaWriteBody e first last sector offset count
    .lock body.length :: body

/-- A call with what the drive answers to its transfers. -/
inductive DmaCall
  | read (a : Attempt) (sector count : ℕ)
  | write (first last : Attempt) (sector offset count : ℕ)

def DmaCall.ops : DmaCall → List DmaOp
  | .read a sector count => dmaReadOps e a sector count
  | .write first last sector offset count => dmaWriteOps e first last sector offset count

end Calls

/-! ## Interleaved calls -/

/-- The rest of the call of a process, and whether it has passed its first lock. -/
structure Caller where
  rest : List DmaOp
  entered : Bool

structure LockState where
  mutex : Mutex
  callers : ℕ → Caller

inductive LockAction
  | call (c : DmaCall)
  | exec

namespace LockState

def setCaller (s : LockState) (p : ℕ) (c : Caller) : LockState :=
  { s with callers := Function.update s.callers p c }

/-- One operation of process `p`. -/
def exec (s : LockState) (p : ℕ) : DmaOp → List DmaOp → LockState
  | .lock n, rest =>
    let (err, mutex) := mutexLock p s.mutex
    if err = .none then { s.setCaller p ⟨rest, true⟩ with mutex }
    else s.setCaller p ⟨rest.drop n, (s.callers p).entered⟩
  | .unlock, rest =>
    { s.setCaller p ⟨rest, (s.callers p).entered⟩ with mutex := (mutexUnlock p s.mutex).2 }
  | _, rest => s.setCaller p ⟨rest, (s.callers p).entered⟩

def step (e : Drive) (s : LockState) : ℕ × LockAction → Option LockState
  | (p, .call c) =>
    match (s.callers p).rest with
    | [] => some (s.setCaller p ⟨c.ops e, false⟩)
    | _ :: _ => none
  | (p, .exec) =>
    match (s.callers p).rest with
    | [] => none
    | op :: rest => some (s.exec p op rest)

/-- The process is between its first lock and its last unlock. -/
def Inside (s : LockState) (p : ℕ) : Prop :=
  (s.callers p).entered = true ∧ .unlock ∈ (s.callers p).rest

/-- The next operation of the process is a command or a copy. -/
def Uses (s : LockState) (p : ℕ) : Prop :=
  ∃ rest, (s.callers p).rest = .command :: rest ∨ (s.callers p).rest = .copy :: rest

/-- The drive is locked by every process from its lock to its last unlock, and by
every process that uses it. -/
def Protected (s : LockState) : Prop :=
  ∀ p, s.Inside p ∨ s.Uses p → s.mutex.lockedBy = some p

end LockState

/-- `ata_dma_read_flexible` returns before the transfer. -/
def dmaRejects (e : Drive) (a : Attempt) (sector count : ℕ) : Prop :=
  let scount := sectorCount (if e.atapi then atapiSectorSize else bytesPerSector) count
  scount > 127 ∨ (scount > 31 ∧ e.atapi) ∨ (e.atapi ∧ sector &&& 0xF0000000 ≠ 0) ∨
    (e.atapi ∧ a.packet ≠ .none) ∨ (¬e.atapi ∧ checkSector e.lba48 sector ≠ .none)

/-- A write of whole sectors, or a read that does not end with an error of the
transfer. -/
def DmaCall.Plain (e : Drive) : DmaCall → Prop
  | .read a sector count => count = 0 ∨ dmaRejects e a sector count ∨ a.dmaOk
  | .write _ _ _ offset count => count = 0 ∨ (offset = 0 ∧ count % 512 = 0)

/-- Every call that a step starts is plain. -/
def LockState.Careful (e : Drive) (_ : LockState) : ℕ × LockAction → Prop
  | (_, .call c) => c.Plain e
  | (_, .exec) => True

/-! ## Plain calls keep the lock -/

/-- Operations up to an unlock at the end. -/
def Closed (ops : List DmaOp) : Prop :=
  ∃ l, ops = l ++ [.unlock] ∧ ∀ op ∈ l, op = .command ∨ op = .wait ∨ op = .copy

theorem closed_unlock : Closed [.unlock] := ⟨[], rfl, by simp⟩

theorem Closed.cons {op : DmaOp} {ops : List DmaOp} (h : Closed ops)
    (hop : op = .command ∨ op = .wait ∨ op = .copy) : Closed (op :: ops) := by
  obtain ⟨l, rfl, hl⟩ := h
  refine ⟨op :: l, rfl, ?_⟩
  intro x hx
  rcases List.mem_cons.mp hx with rfl | hx
  · exact hop
  · exact hl x hx

/-- What is left of closed operations after the first one. -/
theorem Closed.cases {op : DmaOp} {ops : List DmaOp} (h : Closed (op :: ops)) :
    (op = .unlock ∧ ops = []) ∨ ((op = .command ∨ op = .wait ∨ op = .copy) ∧ Closed ops) := by
  obtain ⟨l, heq, hl⟩ := h
  cases l with
  | nil =>
    rw [List.nil_append, List.cons.injEq] at heq
    exact Or.inl heq
  | cons x l =>
    rw [List.cons_append, List.cons.injEq] at heq
    obtain ⟨rfl, rfl⟩ := heq
    exact Or.inr ⟨hl op (List.mem_cons_self ..), l, rfl,
      fun y hy => hl y (List.mem_cons_of_mem _ hy)⟩

theorem closed_transferOps (l : List DmaOp) (hl : ∀ op ∈ l, op = .copy) :
    Closed (transferOps l) := by
  refine ⟨[.command, .command, .wait, .command] ++ l, rfl, ?_⟩
  intro op hop
  rcases List.mem_append.mp hop with h | h
  · fin_cases h <;> simp
  · exact Or.inr (Or.inr (hl op h))

theorem closed_dmaReadBody (e : Drive) {a : Attempt} {sector count : ℕ}
    (h : dmaRejects e a sector count ∨ a.dmaOk) : Closed (dmaReadBody e a sector count) := by
  unfold dmaRejects at h
  unfold dmaReadBody
  dsimp only at h ⊢
  generalize sectorCount (if e.atapi then atapiSectorSize else bytesPerSector) count = scount at *
  by_cases h1 : scount > 127 ∨ (scount > 31 ∧ e.atapi)
  · rw [if_pos h1]
    exact closed_unlock
  rw [if_neg h1]
  by_cases h2 : e.atapi ∧ sector &&& 0xF0000000 ≠ 0
  · rw [if_pos h2]
    exact closed_unlock.cons (Or.inl rfl)
  rw [if_neg h2]
  by_cases h3 : e.atapi ∧ a.packet ≠ .none
  · rw [if_pos h3]
    exact (closed_unlock.cons (Or.inl rfl)).cons (Or.inl rfl)
  rw [if_neg h3]
  by_cases h4 : ¬e.atapi ∧ checkSector e.lba48 sector ≠ .none
  · rw [if_pos h4]
    exact closed_unlock.cons (Or.inl rfl)
  have hok : a.dmaOk := by tauto
  rw [if_neg h4, if_pos hok, List.append_nil]
  exact (closed_transferOps _ (by simp)).cons (Or.inl rfl)

/-- A plain call takes the lock once. -/
theorem DmaCall.Plain.ops_eq {e : Drive} {c : DmaCall} (h : c.Plain e) :
    c.ops e = [] ∨ ∃ body, c.ops e = .lock body.length :: body ∧ Closed body := by
  cases c with
  | read a sector count =>
    by_cases hc : count = 0
    · exact Or.inl (if_pos hc)
    · exact Or.inr ⟨_, if_neg hc, closed_dmaReadBody e (h.resolve_left hc)⟩
  | write first last sector offset count =>
    by_cases hc : count = 0
    · exact Or.inl (if_pos hc)
    refine Or.inr ⟨dmaWriteBody e first last sector offset count, if_neg hc, ?_⟩
    obtain ⟨hoffset, hcount⟩ := h.resolve_left hc
    unfold dmaWriteBody
    dsimp only
    rw [if_neg (by omega), if_neg (by omega)]
    split_ifs
    · exact (closed_unlock.cons (Or.inl rfl)).cons (Or.inr (Or.inr rfl))
    · exact ((closed_transferOps _ (by simp)).cons (Or.inl rfl)).cons (Or.inr (Or.inr rfl))

/-- A process waits for the lock with a call that takes it once, or holds it up to
the end of the call. -/
def CallerOk (lockedBy : Option ℕ) (p : ℕ) (c : Caller) : Prop :=
  c.rest = [] ∨
    (c.entered = false ∧ ∃ body, c.rest = .lock body.length :: body ∧ Closed body) ∨
    (c.entered = true ∧ Closed c.rest ∧ lockedBy = some p)

def LockInv (s : LockState) : Prop := ∀ p, CallerOk s.mutex.lockedBy p (s.callers p)

section Invariant
variable {s t : LockState} {p : ℕ}

/-- One process goes on and the others keep what they have. -/
theorem LockInv.set (h : LockInv s) {c : Caller} {m : Mutex} (hc : CallerOk m.lockedBy p c)
    (hm : ∀ q, q ≠ p → s.mutex.lockedBy = some q → m.lockedBy = some q) :
    LockInv { s.setCaller p c with mutex := m } := by
  intro q
  by_cases hq : q = p
  · subst hq
    change CallerOk m.lockedBy q (Function.update s.callers q c q)
    rw [Function.update_self]
    exact hc
  · change CallerOk m.lockedBy q (Function.update s.callers p c q)
    rw [Function.update_of_ne hq]
    rcases h q with h1 | h1 | ⟨h1, h2, h3⟩
    · exact Or.inl h1
    · exact Or.inr (Or.inl h1)
    · exact Or.inr (Or.inr ⟨h1, h2, hm q hq h3⟩)

theorem LockInv.call {e : Drive} (h : LockInv s) {c : DmaCall} (hc : c.Plain e) :
    LockInv (s.setCaller p ⟨c.ops e, false⟩) := by
  refine h.set ?_ fun _ _ hq => hq
  rcases hc.ops_eq with hnil | hbody
  · exact Or.inl hnil
  · exact Or.inr (Or.inl ⟨rfl, hbody⟩)

theorem LockInv.exec (h : LockInv s) {op : DmaOp} {rest : List DmaOp}
    (hrest : (s.callers p).rest = op :: rest) : LockInv (s.exec p op rest) := by
  rcases h p with h1 | ⟨h1, body, h2, h3⟩ | ⟨h1, h2, h3⟩
  · rw [hrest] at h1
    cases h1
  · -- the process takes the lock, or gives up its call
    rw [hrest, List.cons.injEq] at h2
    obtain ⟨rfl, rfl⟩ := h2
    unfold LockState.exec mutexLock
    by_cases hown : s.mutex.lockedBy = some p
    · rw [if_pos hown]
      exact h.set (Or.inr (Or.inr ⟨rfl, h3, hown⟩)) fun _ _ hq => hq
    · rw [if_neg hown]
      by_cases hfree : s.mutex.lockedBy = none
      · rw [if_neg (not_not_intro hfree)]
        refine h.set (Or.inr (Or.inr ⟨rfl, h3, rfl⟩)) fun q _ hq => ?_
        rw [hfree] at hq
        cases hq
      · rw [if_pos hfree]
        refine h.set (Or.inl ?_) fun _ _ hq => hq
        exact List.drop_length
  · rw [hrest] at h2
    rcases h2.cases with ⟨rfl, rfl⟩ | ⟨hop, hclosed⟩
    · refine h.set (Or.inl rfl) fun q hq hlocked => ?_
      rw [h3, Option.some.injEq] at hlocked
      exact absurd hlocked.symm hq
    · have hset : LockInv (s.setCaller p ⟨rest, (s.callers p).entered⟩) :=
        h.set (Or.inr (Or.inr ⟨h1, hclosed, h3⟩)) fun _ _ hq => hq
      rcases hop with rfl | rfl | rfl <;> exact hset

theorem LockInv.step {e : Drive} (h : LockInv s) {a : ℕ × LockAction} (ha : s.Careful e a)
    (hstep : s.step e a = some t) : LockInv t := by
  obtain ⟨p, a⟩ := a
  cases a with
  | call c =>
    rw [LockState.step] at hstep
    split at hstep
    · rw [← Option.some.inj hstep]
      exact h.call ha
    · cases hstep
  | exec =>
    rw [LockState.step] at hstep
    split at hstep
    · cases hstep
    · rename_i hrest
      rw [← Option.some.inj hstep]
      exact h.exec hrest

theorem LockInv.protected (h : LockInv s) : s.Protected := by
  intro p hp
  rcases h p with h1 | ⟨h1, body, h2, -⟩ | ⟨-, -, h3⟩
  · rcases hp with ⟨-, hp⟩ | ⟨rest, hp | hp⟩ <;> rw [h1] at hp <;> cases hp
  · rcases hp with ⟨hp, -⟩ | ⟨rest, hp | hp⟩
    · rw [h1] at hp
      cases hp
    · rw [h2] at hp
      cases hp
    · rw [h2] at hp
      cases hp
  · exact h3

end Invariant

/-- No process is in a call, and the drive is not locked. -/
def LockState.initial : LockState := ⟨⟨none, []⟩, fun _ => ⟨[], false⟩⟩

/-- In every interleaving of plain calls, the drive is used by the process that
has locked it, from its lock to its unlock. -/
theorem drive_protected_of_careful (e : Drive) {s : LockState}
    (h : Reach (LockState.step e) (LockState.Careful e) LockState.initial s) : s.Protected := by
  have hinv : LockInv s := Reach.invariant (fun _ _ _ ht ha hu => LockInv.step ht ha hu)
    (fun _ => Or.inl rfl) h
  exact hinv.protected

/-- A drive that is no CD drive. -/
def hardDisk : Drive := ⟨false, true, true, fun _ => ⟨fun _ _ => 0, false, .none, 4, 0⟩⟩

/-- A transfer that ends without an error. -/
def goodAttempt : Attempt := ⟨fun _ _ => 0, false, .none, 4, 0⟩

/-- A process reads a sector up to the copy from the PRDT buffer, and another one
tries to write. -/
def plainSteps : List (ℕ × LockAction) :=
  [(1, .call (.read goodAttempt 0 512)), (2, .call (.write goodAttempt goodAttempt 8 0 512)),
    (1, .exec), (1, .exec), (2, .exec), (1, .exec), (1, .exec), (1, .exec), (1, .exec)]

theorem drive_protected_read :
    ∃ s, run (LockState.step hardDisk) LockState.initial plainSteps = some s ∧ s.Uses 1 ∧
      s.Protected := by
  refine ⟨_, rfl, ⟨[.unlock], Or.inr rfl⟩,
    drive_protected_of_careful hardDisk (Reach.start.of_run (l := plainSteps) ?_ rfl)⟩
  intro a ha v
  fin_cases ha
  · exact Or.inr (Or.inr (by decide))
  · exact Or.inr ⟨rfl, rfl⟩
  all_goals exact trivial

/-- A write from the middle of a sector has read the sector, which releases the
lock. Another process starts a transfer before the data are copied to the PRDT
buffer. -/
theorem drive_not_protected_unaligned :
    ∃ s, run (LockState.step hardDisk) LockState.initial
        [(1, .call (.write goodAttempt goodAttempt 0 100 200)), (1, .exec), (1, .exec), (1, .exec),
          (1, .exec), (1, .exec), (1, .exec), (1, .exec), (1, .exec), (1, .exec),
          (2, .call (.read goodAttempt 8 512)), (2, .exec)] = some s ∧
      s.Inside 1 ∧ s.Uses 1 ∧ s.mutex.lockedBy = some 2 ∧ ¬s.Protected := by
  refine ⟨_, rfl, ⟨rfl, by decide⟩, ⟨_, Or.inr rfl⟩, rfl, fun h => ?_⟩
  have h1 := h 1 (Or.inr ⟨_, Or.inr rfl⟩)
  exact absurd (Option.some.inj h1) (by decide)

end VkKernel.Ata
