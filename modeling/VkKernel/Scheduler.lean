import VkKernel.Lib.Trace
import VkKernel.System

/-!
# The scheduler

Processes with their threads, and the functions that move them between the
queues. `p_ready_queue` and the queues of running threads are ideal queues: an
element is added at the end, taken from the front, or removed wherever it is.
-/

namespace VkKernel.Tasking

inductive ProcessStatus
  | init
  | running
  | asleepThreads
  | asleepSignal
  | zombie
deriving DecidableEq, Repr

inductive ThreadStatus
  | init
  | running
  | asleepTime
  | asleepIrq
  | asleepIo
  | asleepChild
  | asleepMutex
  | zombie
deriving DecidableEq, Repr

/-- The part of a `process_t` that the scheduler works on, threads being numbers. -/
structure Process where
  status : ProcessStatus
  activeThread : Option ℕ
  runningThreads : List ℕ
  waitingThreads : List ℕ

/-- `added` is ghost state: the threads that `scheduler_add_thread` has put into a
process. -/
structure SchedState where
  processes : ℕ → Process
  threads : ℕ → ThreadStatus
  currentProcess : ℕ
  readyQueue : List ℕ
  idleProcess : ℕ
  added : ℕ → ℕ → Bool

theorem count_append_singleton (l : List ℕ) (p q : ℕ) :
    (l ++ [q]).count p = l.count p + if q = p then 1 else 0 := by
  rw [List.count_append, List.count_singleton]
  simp only [beq_iff_eq]

namespace SchedState

def setProcess (s : SchedState) (p : ℕ) (proc : Process) : SchedState :=
  { s with processes := Function.update s.processes p proc }

theorem processes_setProcess_self (s : SchedState) (p : ℕ) (proc : Process) :
    (s.setProcess p proc).processes p = proc := Function.update_self ..

theorem processes_setProcess_of_ne (s : SchedState) (proc : Process) {p q : ℕ} (h : p ≠ q) :
    (s.setProcess q proc).processes p = s.processes p := Function.update_of_ne h ..

def setThread (s : SchedState) (t : ℕ) (status : ThreadStatus) : SchedState :=
  { s with threads := Function.update s.threads t status }

/-- `schedule_switch`: go on with this thread of this process. -/
def scheduleSwitch (s : SchedState) (t : Option ℕ) (p : ℕ) : SchedState :=
  { s.setProcess p { s.processes p with activeThread := t } with currentProcess := p }

def addProcess (s : SchedState) (p : ℕ) : SchedState :=
  if p ≠ s.idleProcess ∧ (s.processes p).status = .running then s
  else
    { s.setProcess p { s.processes p with status := .running } with
      readyQueue := s.readyQueue ++ [p] }

/-- The process that `scheduler_remove_process` goes on with is the first one of
the queue. -/
def removeProcess (s : SchedState) (p : ℕ) : SchedState :=
  if s.currentProcess = p then
    let next := s.readyQueue.headD s.idleProcess
    { s with readyQueue := s.readyQueue.tail }.scheduleSwitch (s.processes next).activeThread next
  else { s with readyQueue := s.readyQueue.erase p }

/-- `scheduler_remove_thread`. -/
def removeThread (s : SchedState) (p t : ℕ) : SchedState :=
  let proc := s.processes p
  if proc.status ≠ .running then s
  else
    let proc := { proc with waitingThreads := proc.waitingThreads ++ [t] }
    if p = s.currentProcess ∧ proc.activeThread = some t then
      let proc := { proc with
        activeThread := proc.runningThreads.head?
        runningThreads := proc.runningThreads.tail }
      match proc.activeThread with
      | none => (s.setProcess p { proc with status := .asleepThreads }).removeProcess p
      | some next => (s.setProcess p proc).scheduleSwitch (some next) p
    else s.setProcess p { proc with runningThreads := proc.runningThreads.erase t }

/-- The loop of `scheduler_add_thread` over the waiting threads. A thread at the
head of the list is removed with all the others. -/
def removeWaiting (t : ℕ) (waiting : List ℕ) : List ℕ :=
  if waiting.head? = some t then [] else waiting.erase t

/-- A thread that has been in the process before is removed from its waiting
threads. -/
def leaveWaiting (s : SchedState) (t : ℕ) (proc : Process) : Process :=
  if s.threads t ≠ .init then
    { proc with waitingThreads := removeWaiting t proc.waitingThreads }
  else proc

/-- The thread becomes the active one of a process that has none, which wakes up a
process asleep, or one of the running ones. -/
def placeThread (s : SchedState) (p t : ℕ) (proc : Process) : SchedState :=
  if proc.activeThread = none ∧ proc.status = .asleepThreads then
    (s.setProcess p { proc with activeThread := some t }).addProcess p
  else if proc.activeThread = none then s.setProcess p { proc with activeThread := some t }
  else s.setProcess p { proc with runningThreads := proc.runningThreads ++ [t] }

/-- `scheduler_add_thread`. -/
def addThread (s : SchedState) (p t : ℕ) : SchedState :=
  if s.threads t = .running then s
  else
    { s.setThread t .running with
      added := fun q u => s.added q u || (q = p && u = t) }.placeThread p t
      (s.leaveWaiting t (s.processes p))

@[simp] theorem leaveWaiting_status (s : SchedState) (t : ℕ) (proc : Process) :
    (s.leaveWaiting t proc).status = proc.status := by
  unfold leaveWaiting
  split <;> rfl

/-- The next thread of a process: the first running one, or the active one. -/
def nextThread (proc : Process) : Option ℕ := proc.runningThreads.head?.or proc.activeThread

/-- `schedule` behind `handle_signals`. The thread that was active is not put back
into the queue. -/
def schedule (s : SchedState) : SchedState :=
  match s.readyQueue with
  | [] =>
    let proc := s.processes s.currentProcess
    match proc.runningThreads with
    | [] => s
    | t :: ts =>
      (s.setProcess s.currentProcess { proc with runningThreads := ts }).scheduleSwitch (some t)
        s.currentProcess
  | p :: ready =>
    let proc := s.processes p
    let s := { s with readyQueue :=
      if s.currentProcess = s.idleProcess ∨ s.currentProcess = p then ready
      else ready ++ [s.currentProcess] }
    (s.setProcess p { proc with runningThreads := proc.runningThreads.tail }).scheduleSwitch
      (nextThread proc) p

/-- `init_process` with its first thread, and `scheduler_add_process`. -/
def createProcess (s : SchedState) (p t : ℕ) : SchedState :=
  (((s.setProcess p ⟨.init, none, [], []⟩).setThread t .init).addThread p t).addProcess p

/-- A thread goes to sleep: its status is set and it is removed. -/
def sleep (s : SchedState) (status : ThreadStatus) : Option SchedState :=
  match (s.processes s.currentProcess).activeThread with
  | none => none
  | some t => some ((s.setThread t status).removeThread s.currentProcess t)

/-- The default action of a stop signal. -/
def stopProcess (s : SchedState) (p : ℕ) : SchedState :=
  if p ≠ s.currentProcess ∧ (s.processes p).status = .running then
    (s.setProcess p { s.processes p with status := .asleepSignal }).removeProcess p
  else s

/-- The default action of a signal that ends a process: a new thread that calls
`exit_process`. -/
def killProcess (s : SchedState) (p t : ℕ) : SchedState :=
  if (s.processes p).status = .zombie then s else (s.setThread t .init).addThread p t

/-- `SIGCONT` -/
def continueProcess (s : SchedState) (p : ℕ) : SchedState :=
  if (s.processes p).status = .asleepSignal then s.addProcess p else s

/-- The loop of `exit_process` over the waiting threads of the parent does not go
on behind the first one: it wakes this one or does not end. -/
def wakeParent (s : SchedState) (parent : ℕ) : Option SchedState :=
  match (s.processes parent).waitingThreads with
  | [] => some s
  | t :: _ => if s.threads t = .asleepChild then some (s.addThread parent t) else none

/-- `exit_process` of the current process. -/
def exitProcess (s : SchedState) (parent : Option ℕ) : Option SchedState :=
  let p := s.currentProcess
  match (s.processes p).activeThread with
  | none => none
  | some t =>
    let s := (s.setProcess p { s.processes p with
      status := .zombie, runningThreads := [] }).setThread t .zombie
    match parent with
    | none => some (s.removeProcess p)
    | some q => (s.wakeParent q).map (·.removeProcess p)

end SchedState

/-- The steps of the kernel. The parent of the process that exits, which the tree
of processes gives, is part of the label. -/
inductive SchedAction
  | create (p t : ℕ)
  | sleep (status : ThreadStatus)
  | wake (p t : ℕ)
  | removeThread (p t : ℕ)
  | mark (t : ℕ) (status : ThreadStatus)
  | stop (p : ℕ)
  | kill (p t : ℕ)
  | cont (p : ℕ)
  | exit (parent : Option ℕ)
  | tick
deriving DecidableEq, Repr

/-- One step. A process that is created is new. -/
def SchedState.step (s : SchedState) : SchedAction → Option SchedState
  | .create p t =>
    if (s.processes p).status = .init ∧ p ≠ s.idleProcess then some (s.createProcess p t) else none
  | .sleep status => s.sleep status
  | .wake p t => some (s.addThread p t)
  | .removeThread p t => some (s.removeThread p t)
  | .mark t status => some (s.setThread t status)
  | .stop p => some (s.stopProcess p)
  | .kill p t => some (s.killProcess p t)
  | .cont p => some (s.continueProcess p)
  | .exit parent => s.exitProcess parent
  | .tick => some s.schedule

end VkKernel.Tasking
