import VkKernel.Lib.Trace
import VkKernel.State

/-!
# Process groups

`groups` is an array of `pgroup_t` that `process_setgroup` searches and inserts into.
Processes point to their group, and a group has a list of its processes. The group of
the first process is an object of its own that is copied into the array. Entries of the
lists and the array are named by their addresses; entries of the array behind
`groups_number` are what the memory holds.
-/

namespace VkKernel
open Trace

structure GroupEntry where
  gid : ℤ
  processes : ℕ
  session : ℕ
deriving DecidableEq, Repr

/-- A `pgroup_t*`: the object made by `spawn_init_process`, or an entry of an array. -/
inductive GroupPtr
  | own
  | entry (groups i : ℕ)
deriving DecidableEq, Repr

/-- `arrays` is the memory of the arrays, the present one being at `groups`. `lastGid` is
ghost state: the number that was last set for a process, or inherited. -/
structure GroupState where
  own : GroupEntry
  groups : ℕ
  arrays : ℕ → ℕ → GroupEntry
  groupsNumber : ℕ
  groupsSize : ℕ
  next : ℕ → ℕ
  element : ℕ → ℕ
  used : Finset ℕ
  processes : Finset ℕ
  group : ℕ → GroupPtr
  session : ℕ → ℕ
  lastGid : ℕ → ℤ

namespace GroupState

/-- `groups[i]` -/
def entry (s : GroupState) (i : ℕ) : GroupEntry := s.arrays s.groups i

def setEntry (s : GroupState) (i : ℕ) (e : GroupEntry) : GroupState :=
  { s with arrays := Function.update s.arrays s.groups (Function.update (s.arrays s.groups) i e) }

def read (s : GroupState) : GroupPtr → GroupEntry
  | .own => s.own
  | .entry groups i => s.arrays groups i

/-- `ptr->processes = a` -/
def setProcesses (s : GroupState) (a : ℕ) : GroupPtr → GroupState
  | .own => { s with own := { s.own with processes := a } }
  | .entry groups i =>
    { s with
      arrays := Function.update s.arrays groups
        (Function.update (s.arrays groups) i { s.arrays groups i with processes := a }) }

/-- The binary search: whether the number was found, and the last place looked at. -/
def search (s : GroupState) (gid : ℤ) : ℕ → ℕ → ℕ → ℕ → Option (Bool × ℕ)
  | 0, _, _, _ => none
  | fuel + 1, start, stop, off =>
    if start ≤ stop then
      let off := u32 (start + stop) / 2
      if (s.entry off).gid = gid then some (true, off)
      else if (s.entry off).gid < gid then s.search gid fuel (off + 1) stop off
      else s.search gid fuel start (sub32 off 1) off
    else some (false, off)

/-- The last entry of the list from `ptr` on, and 0 for the empty list. -/
def lastFrom (s : GroupState) : ℕ → ℕ → ℕ → Option ℕ
  | 0, _, _ => none
  | fuel + 1, ptr, before => if ptr = 0 then some before else s.lastFrom fuel (s.next ptr) ptr

/-- The entry `a` is put behind the last one of the list of `groups[off]`. -/
def appendTo (s : GroupState) (off a process : ℕ) : Option GroupState :=
  (s.lastFrom (s.used.card + 1) (s.entry off).processes 0).map fun last =>
    let s := { s with
      next := Function.update s.next a 0
      element := Function.update s.element a process
      used := insert a s.used }
    if last = 0 then s.setProcesses a (.entry s.groups off)
    else { s with next := Function.update s.next last a }

/-- `memcpy(&groups[off+1], &groups[off], n*sizeof(pgroup_t))`: the bytes are copied in
ascending order, so every entry is copied from one that has been written before. -/
def smear (s : GroupState) (off : ℕ) : ℕ → GroupState
  | 0 => s
  | n + 1 => (s.smear off n).setEntry (off + n + 1) ((s.smear off n).entry (off + n))

/-- `krealloc` of the array, which goes to `np`; `rest` is what the new memory holds. -/
def grow (s : GroupState) (np : ℕ) (rest : ℕ → GroupEntry) : GroupState :=
  { s with
    groups := np
    groupsSize := 2 * s.groupsSize
    arrays := Function.update s.arrays np fun i => if i < s.groupsSize then s.entry i else rest i }

/-- A new group with the list entry `a`. -/
def insertGroup (s : GroupState) (gid : ℤ) (off a process np : ℕ) (rest : ℕ → GroupEntry) :
    GroupState :=
  let s := if s.groupsNumber = s.groupsSize then s.grow np rest else s
  let s := s.smear off (s.groupsNumber - off)
  let s := s.setEntry off ⟨gid, a, s.session process⟩
  { s with
    groupsNumber := s.groupsNumber + 1
    next := Function.update s.next a 0
    element := Function.update s.element a process
    used := insert a s.used }

/-- The loop that takes the process off the list of its old group: behind the first entry
its predecessor is linked to its successor, and the first entry makes the list empty. -/
def removeFrom (s : GroupState) (process : ℕ) : ℕ → ℕ → ℕ → Option GroupState
  | 0, _, _ => none
  | fuel + 1, ptr, before =>
    if ptr = 0 then some s
    else if s.element ptr = process then
      let s := { s with used := s.used.erase ptr }
      if before = 0 then some (s.setProcesses 0 (s.group process))
      else some { s with next := Function.update s.next before (s.next ptr) }
    else s.removeFrom process fuel (s.next ptr) ptr

/-- The end of `process_setgroup`. -/
def moveTo (s : GroupState) (gid : ℤ) (off process : ℕ) : Option GroupState :=
  (s.removeFrom process (s.used.card + 1) (s.read (s.group process)).processes 0).map fun s =>
    { s with
      group := Function.update s.group process (.entry s.groups off)
      lastGid := Function.update s.lastGid process gid }

end GroupState

inductive GroupError
  | none
  | isSessionLeader
  | isAnotherSession
deriving DecidableEq, Repr

/-- A call of `process_setgroup`, with the address of a new list entry, and that of the
array and its memory if it has to grow. -/
structure SetGroup where
  gid : ℤ
  process : ℕ
  a : ℕ
  np : ℕ
  rest : ℕ → GroupEntry

namespace GroupState

/-- The loops are given fuel for 32-bit bounds. -/
def searchFuel : ℕ := 2 ^ 32

/-- `process_setgroup` -/
def processSetgroup (s : GroupState) (c : SetGroup) : Option (GroupError × GroupState) :=
  if s.element s.own.processes = c.process then some (.isSessionLeader, s)
  else
    match s.search c.gid searchFuel 0 s.groupsNumber 0 with
    | none => none
    | some (true, off) =>
      if s.session c.process ≠ (s.entry off).session then some (.isAnotherSession, s)
      else
        ((s.appendTo off c.a c.process).bind fun s => s.moveTo c.gid off c.process).map fun s =>
          (.none, s)
    | some (false, off) =>
      ((s.insertGroup c.gid off c.a c.process c.np c.rest).moveTo c.gid off c.process).map fun s =>
        (.none, s)

/-- The processes in the list from `ptr` on. -/
def members (s : GroupState) : ℕ → ℕ → List ℕ
  | 0, _ => []
  | fuel + 1, ptr => if ptr = 0 then [] else s.element ptr :: s.members fuel (s.next ptr)

def membersOf (s : GroupState) (e : GroupEntry) : List ℕ := s.members (s.used.card + 1) e.processes

/-- The table is sorted, every process is in the list of its group, once, and in no other
list, and points to the entry of the table with the number that was set for it. -/
structure Ordered (s : GroupState) : Prop where
  sorted : ∀ i j, i < j → j < s.groupsNumber → (s.entry i).gid < (s.entry j).gid
  member : ∀ p ∈ s.processes, (s.membersOf (s.read (s.group p))).count p = 1
  others : ∀ p ∈ s.processes, ∀ i < s.groupsNumber, s.group p ≠ .entry s.groups i →
    p ∉ s.membersOf (s.entry i)
  pointer : ∀ p ∈ s.processes, ∃ i < s.groupsNumber, s.group p = .entry s.groups i ∧
    (s.entry i).gid = s.lastGid p

/-- The state that `spawn_init_process` sets up, with the processes that have been forked
since: all are in the group of the first process, the leader of the session. -/
structure Spawned (s : GroupState) (leader : ℕ) : Prop where
  gid : s.own.gid = 1
  entry : s.entry 0 = s.own
  groupsNumber : s.groupsNumber = 1
  groupsSize : s.groupsSize = 10
  leader_mem : leader ∈ s.processes
  leader_first : s.element s.own.processes = leader
  members : ∀ p ∈ s.processes, (s.membersOf s.own).count p = 1
  group : ∀ p ∈ s.processes, s.group p = .own
  session : ∀ p ∈ s.processes, s.session p = s.own.session
  lastGid : ∀ p ∈ s.processes, s.lastGid p = 1

/-- Calls for processes other than the leader. -/
def step (leader : ℕ) (s : GroupState) (c : SetGroup) : Option GroupState :=
  if c.process ∈ s.processes ∧ c.process ≠ leader ∧ c.a ≠ 0 ∧ c.a ∉ s.used then
    (s.processSetgroup c).map Prod.snd
  else none

/-! ## The group of the first process -/

/-- The pointers to groups are the same, for the same processes. -/
def SamePointers (s s' : GroupState) : Prop := s'.group = s.group ∧ s'.processes = s.processes

variable {s s' : GroupState}

theorem samePointers_setProcesses (s : GroupState) (a : ℕ) (ptr : GroupPtr) :
    s.SamePointers (s.setProcesses a ptr) := by
  cases ptr with
  | own => exact ⟨rfl, rfl⟩
  | entry groups i => exact ⟨rfl, rfl⟩

theorem SamePointers.of_appendTo {off a process : ℕ} (h : s.appendTo off a process = some s') :
    s.SamePointers s' := by
  unfold appendTo at h
  rw [Option.map_eq_some_iff] at h
  obtain ⟨last, -, rfl⟩ := h
  dsimp only
  split
  · exact samePointers_setProcesses _ a _
  · exact ⟨rfl, rfl⟩

theorem samePointers_smear (s : GroupState) (off n : ℕ) : s.SamePointers (s.smear off n) := by
  induction n with
  | zero => exact ⟨rfl, rfl⟩
  | succ n ih => exact ih

theorem samePointers_insertGroup (s : GroupState) (gid : ℤ) (off a process np : ℕ)
    (rest : ℕ → GroupEntry) : s.SamePointers (s.insertGroup gid off a process np rest) := by
  unfold insertGroup
  dsimp only
  split
  · exact samePointers_smear (s.grow np rest) off _
  · exact samePointers_smear s off _

theorem SamePointers.of_removeFrom {process fuel ptr before : ℕ}
    (h : s.removeFrom process fuel ptr before = some s') : s.SamePointers s' := by
  induction fuel generalizing ptr before with
  | zero => cases h
  | succ fuel ih =>
    rw [removeFrom] at h
    split_ifs at h with hnil hfound hfirst
    · rw [← Option.some.inj h]
      exact ⟨rfl, rfl⟩
    · rw [← Option.some.inj h]
      exact samePointers_setProcesses { s with used := s.used.erase ptr } 0 _
    · rw [← Option.some.inj h]
      exact ⟨rfl, rfl⟩
    · exact ih h

/-- The last part of a call changes the pointer of one process. -/
theorem moveTo_pointers {gid : ℤ} {off process p : ℕ} (h : s.moveTo gid off process = some s')
    (hp : p ≠ process) : s'.group p = s.group p ∧ s'.processes = s.processes := by
  unfold moveTo at h
  rw [Option.map_eq_some_iff] at h
  obtain ⟨t, ht, rfl⟩ := h
  obtain ⟨hgroup, hproc⟩ := SamePointers.of_removeFrom ht
  exact ⟨(Function.update_of_ne hp ..).trans (congrFun hgroup p), hproc⟩

theorem processSetgroup_pointers {c : SetGroup} {err : GroupError} {p : ℕ}
    (h : s.processSetgroup c = some (err, s')) (hp : p ≠ c.process) :
    s'.group p = s.group p ∧ s'.processes = s.processes := by
  unfold processSetgroup at h
  split at h
  · rw [Option.some.injEq, Prod.mk.injEq] at h
    rw [h.2]
    exact ⟨rfl, rfl⟩
  · split at h
    · cases h
    · split at h
      · rw [Option.some.injEq, Prod.mk.injEq] at h
        rw [h.2]
        exact ⟨rfl, rfl⟩
      · rw [Option.map_eq_some_iff] at h
        obtain ⟨t, ht, heq⟩ := h
        rw [Option.bind_eq_some_iff] at ht
        obtain ⟨u, hu, ht⟩ := ht
        rw [← (Prod.mk.inj heq).2]
        obtain ⟨hgroup, hproc⟩ := moveTo_pointers ht hp
        obtain ⟨hgroup', hproc'⟩ := SamePointers.of_appendTo hu
        exact ⟨hgroup.trans (congrFun hgroup' p), hproc.trans hproc'⟩
    · rename_i off _
      rw [Option.map_eq_some_iff] at h
      obtain ⟨t, ht, heq⟩ := h
      rw [← (Prod.mk.inj heq).2]
      obtain ⟨hgroup, hproc⟩ := moveTo_pointers ht hp
      obtain ⟨hgroup', hproc'⟩ := samePointers_insertGroup s c.gid off c.a c.process c.np c.rest
      exact ⟨hgroup.trans (congrFun hgroup' p), hproc.trans hproc'⟩

end GroupState

/-- In every state of every run, from the first one on, the leader points to the object
made by `spawn_init_process`, which is not an entry of the table. -/
theorem groups_never_ordered (leader : ℕ) {s₀ s : GroupState} (h₀ : s₀.Spawned leader)
    (h : Reach (GroupState.step leader) (fun _ _ => True) s₀ s) : ¬s.Ordered := by
  have hown : leader ∈ s.processes ∧ s.group leader = .own := by
    refine Reach.invariant (I := fun s => leader ∈ s.processes ∧ s.group leader = .own) ?_
      ⟨h₀.leader_mem, h₀.group leader h₀.leader_mem⟩ h
    intro t c u ⟨hmem, hgroup⟩ _ hu
    obtain ⟨⟨-, hne, -⟩, hu⟩ := Option.ite_none_right_eq_some.mp hu
    rw [Option.map_eq_some_iff] at hu
    obtain ⟨⟨err, v⟩, hv, rfl⟩ := hu
    obtain ⟨hsame, hproc⟩ := GroupState.processSetgroup_pointers hv hne.symm
    exact ⟨hproc ▸ hmem, hsame.trans hgroup⟩
  intro hordered
  obtain ⟨i, -, hentry, -⟩ := hordered.pointer leader hown.1
  rw [hown.2] at hentry
  cases hentry

/-- Process 1 has forked the processes 2 and 3. -/
def threeProcesses : GroupState where
  own := ⟨1, 16, 7⟩
  groups := 100
  arrays _ i := if i = 0 then ⟨1, 16, 7⟩ else ⟨0, 0, 0⟩
  groupsNumber := 1
  groupsSize := 10
  next a := if a = 16 then 24 else if a = 24 then 32 else 0
  element a := if a = 16 then 1 else if a = 24 then 2 else if a = 32 then 3 else 0
  used := {16, 24, 32}
  processes := {1, 2, 3}
  group _ := .own
  session _ := 7
  lastGid _ := 1

/-- Process 2 gets the group 5. -/
def setSecond : SetGroup := ⟨5, 2, 40, 0, fun _ => ⟨0, 0, 0⟩⟩

/-- Process 3 gets the group 3. -/
def setThird : SetGroup := ⟨3, 3, 48, 0, fun _ => ⟨0, 0, 0⟩⟩

theorem threeProcesses_spawned : threeProcesses.Spawned 1 where
  gid := rfl
  entry := rfl
  groupsNumber := rfl
  groupsSize := rfl
  leader_mem := by decide
  leader_first := rfl
  members := by decide
  group _ _ := rfl
  session _ _ := rfl
  lastGid _ _ := rfl

theorem groups_never_ordered_one_call :
    ∃ s, run (GroupState.step 1) threeProcesses [setSecond] = some s ∧
      s.group 2 = .entry 100 1 ∧ ¬s.Ordered := by
  have hstep : ∃ s, GroupState.step 1 threeProcesses setSecond = some s ∧
      s.group 2 = .entry 100 1 := ⟨_, rfl, rfl⟩
  obtain ⟨s, hs, hgroup⟩ := hstep
  refine ⟨s, ?_, hgroup, ?_⟩
  · rw [run, hs]
    rfl
  · exact groups_never_ordered 1 threeProcesses_spawned (Reach.start.next trivial hs)

/-- The group 3 is put in front of the group 1, which is copied over the group 5: the
table is not sorted, and process 2 points to the group 1. -/
theorem groups_not_sorted :
    ∃ s, run (GroupState.step 1) threeProcesses [setSecond, setThird] = some s ∧
      (s.entry 0).gid = 3 ∧ (s.entry 1).gid = 1 ∧ s.groupsNumber = 3 ∧ s.group 2 = .entry 100 1 ∧
      s.lastGid 2 = 5 ∧ ¬s.Ordered := by
  have hrun : (run (GroupState.step 1) threeProcesses [setSecond, setThird]).map (fun s =>
      ((s.entry 0).gid, (s.entry 1).gid, s.groupsNumber, s.group 2, s.lastGid 2)) =
      some (3, 1, 3, .entry 100 1, 5) := by decide +kernel
  rw [Option.map_eq_some_iff] at hrun
  obtain ⟨s, hs, hfields⟩ := hrun
  simp only [Prod.mk.injEq] at hfields
  obtain ⟨h0, h1, hnumber, hgroup, hlast⟩ := hfields
  refine ⟨s, hs, h0, h1, hnumber, hgroup, hlast, fun hordered => ?_⟩
  have hlt := hordered.sorted 0 1 Nat.one_pos (by rw [hnumber]; decide)
  rw [h0, h1] at hlt
  exact absurd hlt (by decide)

end VkKernel
