import VkKernel.ProcessTree
import VkKernel.Scheduler

/-!
# The end of a process

`exit_process` gives the children of a process to init, takes it off its group, makes it a
zombie, sends `SIGCHLD` to its parent and looks for a thread of the parent that waits for a
child. The loop that looks for it never goes on to the next thread.
-/

namespace VkKernel.Tasking

/-- `group` has the processes of each group, and `signals` what `send_signal` has put into its
list. -/
structure ExitState where
  tree : Family
  sched : SchedState
  group : ℤ → List ℕ
  signals : List (ℕ × ℕ)

/-- The loop over the waiting threads of the parent; `wptr` stays where it is. -/
def SchedState.wakeLoop (s : SchedState) (parent : ℕ) : ℕ → List ℕ → Option SchedState
  | 0, _ => none
  | _ + 1, [] => some s
  | fuel + 1, t :: waiting =>
    if s.threads t = .asleepChild then some (s.addThread parent t)
    else s.wakeLoop parent fuel (t :: waiting)

/-- The process is taken off the list of its group, which must not be empty. -/
def leaveGroup (p : ℕ) : List ℕ → Option (List ℕ)
  | [] => none
  | q :: l => some (if q = p then l else q :: l.erase p)

namespace ExitState

def sigchld : ℕ := 4

/-- `send_signal`, which registers the signal and wakes nobody. -/
def sendSignal (s : ExitState) (q sig : ℕ) : ExitState :=
  if (s.sched.processes q).status = .zombie then s
  else { s with signals := s.signals ++ [(q, sig)] }

/-- `scheduler_remove_process`, at the end of `exit_process` -/
def removeProcess (s : ExitState) (p : ℕ) : ExitState :=
  { s with sched := s.sched.removeProcess p }

/-- What `exit_process` does before it turns to the parent, with `t` the active thread. -/
def becomeZombie (s : ExitState) (p t : ℕ) (tree : Family) (group : List ℕ) : ExitState :=
  { s with
    tree := tree
    group := Function.update s.group (tree.proc p).gid group
    sched := (s.sched.setProcess p { s.sched.processes p with
      status := .zombie, runningThreads := [] }).setThread t .zombie }

/-- The part of `exit_process` for a parent. -/
def tellParent (s : ExitState) (q fuel : ℕ) : Option ExitState :=
  let s := s.sendSignal q sigchld
  (s.sched.wakeLoop q fuel (s.sched.processes q).waitingThreads).map fun sched =>
    { s with sched := sched }

/-- `exit_process` -/
def exitProcess (s : ExitState) (p exitcode fuel : ℕ) : Option ExitState :=
  (s.tree.exitProcess p exitcode).bind fun tree =>
    (leaveGroup p (s.group (tree.proc p).gid)).bind fun group =>
      match (s.sched.processes p).activeThread with
      | none => none
      | some t =>
        let s := s.becomeZombie p t tree group
        match (tree.proc p).parent with
        | none => some (s.removeProcess p)
        | some q => (s.tellParent q fuel).map (·.removeProcess p)

/-- A process other than init that runs the thread `t`. It is in its group, is neither its own
parent nor its own child, and its thread is none of the waiting ones of its parent. -/
structure Exiting (s : ExitState) (p t : ℕ) : Prop where
  pid : (s.tree.proc p).pid ≠ 1
  active : (s.sched.processes p).activeThread = some t
  group : p ∈ s.group (s.tree.proc p).gid
  child : p ∉ (s.tree.proc p).children
  parent : (s.tree.proc p).parent ≠ some p
  apart : ∀ q, (s.tree.proc p).parent = some q → t ∉ (s.sched.processes q).waitingThreads

/-- The call comes to its end, and the first thread of the parent that waits for a child is
running again. -/
def ExitsAndWakes (s : ExitState) (p exitcode : ℕ) : Prop :=
  ∃ fuel s', s.exitProcess p exitcode fuel = some s' ∧
    ∀ q u, (s.tree.proc p).parent = some q →
      (s.sched.processes q).waitingThreads.find? (fun t => s.sched.threads t = .asleepChild) = some u →
        s'.sched.threads u = .running

/-- If the parent has waiting threads, the first one waits for a child. -/
def ParentReady (s : ExitState) (p : ℕ) : Prop :=
  ∀ q u, (s.tree.proc p).parent = some q → (s.sched.processes q).waitingThreads.head? = some u →
    s.sched.threads u = .asleepChild

end ExitState

/-! ## The loop over the waiting threads -/

section Wake
variable {s : SchedState} {parent t : ℕ}

/-- A first thread that does not wait for a child is looked at again and again. -/
theorem wakeLoop_of_ne (h : s.threads t ≠ .asleepChild) (fuel : ℕ) (waiting : List ℕ) :
    s.wakeLoop parent fuel (t :: waiting) = none := by
  induction fuel with
  | zero => rfl
  | succ fuel ih => rw [SchedState.wakeLoop, if_neg h, ih]

theorem threads_placeThread (s : SchedState) (p t : ℕ) (proc : Process) :
    (s.placeThread p t proc).threads = s.threads := by
  unfold SchedState.placeThread SchedState.addProcess
  split_ifs <;> rfl

theorem threads_addThread (s : SchedState) (p t : ℕ) : (s.addThread p t).threads t = .running := by
  unfold SchedState.addThread
  split_ifs with hrun
  · exact hrun
  · rw [threads_placeThread]
    exact Function.update_self ..

theorem threads_removeProcess (s : SchedState) (p : ℕ) : (s.removeProcess p).threads = s.threads := by
  unfold SchedState.removeProcess
  split_ifs <;> rfl

/-- Otherwise the loop ends, and the first thread that waits for a child is woken. -/
theorem wakeLoop_of_ready {waiting : List ℕ}
    (h : ∀ t, waiting.head? = some t → s.threads t = .asleepChild) :
    ∃ s', s.wakeLoop parent 1 waiting = some s' ∧
      ∀ u, waiting.find? (fun t => s.threads t = .asleepChild) = some u → s'.threads u = .running := by
  cases waiting with
  | nil =>
    refine ⟨s, rfl, ?_⟩
    intro u hu
    cases hu
  | cons t waiting =>
    have ht := h t rfl
    refine ⟨s.addThread parent t, ?_, ?_⟩
    · rw [SchedState.wakeLoop, if_pos ht]
    · intro u hu
      rw [List.find?_cons_of_pos (by simpa using ht), Option.some.injEq] at hu
      rw [← hu]
      exact threads_addThread s parent t

end Wake

/-! ## `exit_process` -/

theorem proc_attachToInit_of_notMem {p : ℕ} {children : List ℕ} (h : p ∉ children) (s : Family) :
    (children.foldl Family.attachToInit s).proc p = s.proc p := by
  induction children generalizing s with
  | nil => rfl
  | cons c children ih =>
    rw [List.mem_cons, not_or] at h
    rw [List.foldl_cons, ih h.2]
    exact Family.proc_set_of_ne s _ h.1

namespace ExitState

variable {s : ExitState} {p t q : ℕ}

/-- The tree behind the call still has the parent and the group of the process. -/
theorem Exiting.tree (h : s.Exiting p t) (exitcode : ℕ) :
    ∃ tree, s.tree.exitProcess p exitcode = some tree ∧
      (tree.proc p).parent = (s.tree.proc p).parent ∧ (tree.proc p).gid = (s.tree.proc p).gid := by
  have hproc := proc_attachToInit_of_notMem h.child s.tree
  refine ⟨_, if_neg h.pid, ?_, ?_⟩
  · rw [Family.proc_set_self]
    dsimp only
    rw [hproc]
  · rw [Family.proc_set_self]
    dsimp only
    rw [hproc]

theorem Exiting.leaveGroup (h : s.Exiting p t) :
    ∃ group, Tasking.leaveGroup p (s.group (s.tree.proc p).gid) = some group := by
  cases hgroup : s.group (s.tree.proc p).gid with
  | nil =>
    have hmem := h.group
    rw [hgroup] at hmem
    cases hmem
  | cons q l => exact ⟨_, rfl⟩

/-- Up to the parent the call comes to its end. -/
theorem Exiting.exitProcess_eq (h : s.Exiting p t) (exitcode : ℕ) :
    ∃ tree group, ∀ fuel, s.exitProcess p exitcode fuel =
      match (s.tree.proc p).parent with
      | none => some ((s.becomeZombie p t tree group).removeProcess p)
      | some q => ((s.becomeZombie p t tree group).tellParent q fuel).map (·.removeProcess p) := by
  obtain ⟨tree, htree, hparent, hgid⟩ := h.tree exitcode
  obtain ⟨group, hgroup⟩ := h.leaveGroup
  refine ⟨tree, group, ?_⟩
  intro fuel
  unfold ExitState.exitProcess
  rw [htree, Option.bind_some, hgid, hgroup, Option.bind_some, h.active]
  dsimp only
  rw [hparent]

/-- The threads that wait in another process are as before. -/
theorem waiting_becomeZombie (hq : q ≠ p) (tree : Family) (group : List ℕ) :
    (((s.becomeZombie p t tree group).sendSignal q sigchld).sched.processes q).waitingThreads =
      (s.sched.processes q).waitingThreads := by
  have hproc : ((s.becomeZombie p t tree group).sched.processes q).waitingThreads =
      (s.sched.processes q).waitingThreads :=
    congrArg Process.waitingThreads (SchedState.processes_setProcess_of_ne s.sched _ hq)
  unfold sendSignal
  split_ifs <;> exact hproc

theorem threads_becomeZombie {u : ℕ} (hu : u ≠ t) (tree : Family) (group : List ℕ) :
    ((s.becomeZombie p t tree group).sendSignal q sigchld).sched.threads u = s.sched.threads u := by
  have hthread : (s.becomeZombie p t tree group).sched.threads u = s.sched.threads u :=
    Function.update_of_ne hu ..
  unfold sendSignal
  split_ifs <;> exact hthread

end ExitState

/-- Init, process 1, has the child 2. Its waiting threads have these states; the child runs
the thread 9. -/
def parentAndChild (waiting : List ℕ) (threads : ℕ → ThreadStatus) : ExitState where
  tree :=
    { proc := fun p => if p = 2 then ⟨2, 1, false, 0, some 1, []⟩ else ⟨1, 1, false, 0, none, [2]⟩
      used := fun p => p = 1 ∨ p = 2
      processes := fun i => if i = 1 then some 1 else if i = 2 then some 2 else none
      processesSize := 10 }
  sched :=
    { processes := fun p =>
        if p = 2 then ⟨.running, some 9, [], []⟩ else ⟨.asleepThreads, none, [], waiting⟩
      threads := threads
      currentProcess := 2
      readyQueue := []
      idleProcess := 0
      added := fun _ _ => true }
  group _ := [1, 2]
  signals := []

theorem parentAndChild_exiting {waiting : List ℕ} (h : 9 ∉ waiting) (threads : ℕ → ThreadStatus) :
    (parentAndChild waiting threads).Exiting 2 9 where
  pid := by simp [parentAndChild]
  active := rfl
  group := by simp [parentAndChild]
  child := by simp [parentAndChild]
  parent := by simp [parentAndChild]
  apart := by
    intro q hq
    change some 1 = some q at hq
    rw [← Option.some.inj hq]
    exact h

end VkKernel.Tasking
