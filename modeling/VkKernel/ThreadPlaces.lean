import VkKernel.Scheduler

/-!
# The places of threads

A thread that has been added to a process is its active thread, or once among
its running threads, or once among its waiting threads. `schedule` forgets the
active thread when it takes a running one, and `scheduler_add_thread` forgets
waiting threads, so this depends on the steps.
-/

namespace VkKernel.Tasking
open Trace

/-- The number of places of a thread in a process. -/
def Process.threadPlaces (proc : Process) (t : ℕ) : ℕ :=
  (if proc.activeThread = some t then 1 else 0) + proc.runningThreads.count t +
    proc.waitingThreads.count t

namespace SchedState

/-- Every thread that has been added is in exactly one place. -/
def Placed (s : SchedState) : Prop :=
  ∀ p t, s.added p t = true → (s.processes p).threadPlaces t = 1

/-- The process whose next thread `schedule` takes. -/
def scheduled (s : SchedState) : ℕ := s.readyQueue.headD s.currentProcess

/-- Steps that lose and duplicate no thread. A thread that is added is new, or it
waits and is not at the head of a longer list. A thread that is removed is the
active one of the current process or a running one. A process whose next thread
is taken has no other thread than its active one to go on with. -/
def Careful (s : SchedState) : SchedAction → Prop
  | .wake p t =>
    s.threads t = .running ∨ s.added p t = false ∨
      (s.threads t ≠ .init ∧ t ∈ (s.processes p).waitingThreads ∧
        ((s.processes p).waitingThreads.head? = some t → (s.processes p).waitingThreads = [t]))
  | .removeThread p t =>
    (s.processes p).status ≠ .running ∨
      (p = s.currentProcess ∧ (s.processes p).activeThread = some t) ∨
      t ∈ (s.processes p).runningThreads
  | .tick =>
    (s.processes s.scheduled).runningThreads = [] ∨
      (s.processes s.scheduled).activeThread = none
  | .mark _ _ => True
  | .sleep _ => True
  | .create _ _ | .stop _ | .kill _ _ | .cont _ | .exit _ => False

variable {s s' : SchedState} {p q t u : ℕ}

/-- Threads that have not been added are in no place. -/
def Tracked (s : SchedState) : Prop :=
  ∀ p t, (s.processes p).threadPlaces t = if s.added p t = true then 1 else 0

/-! ## Processes are moved, threads are not -/

theorem threadPlaces_addProcess (s : SchedState) (p q t : ℕ) :
    ((s.addProcess q).processes p).threadPlaces t = (s.processes p).threadPlaces t := by
  unfold addProcess
  split
  · rfl
  · by_cases hp : p = q
    · subst hp
      change ((s.setProcess p _).processes p).threadPlaces t = _
      rw [processes_setProcess_self]
      rfl
    · exact congrArg (Process.threadPlaces · t) (processes_setProcess_of_ne _ _ hp)

theorem processes_removeProcess (s : SchedState) (p q : ℕ) :
    (s.removeProcess q).processes p = s.processes p := by
  unfold removeProcess
  split
  · by_cases hp : p = s.readyQueue.headD s.idleProcess
    · rw [hp]
      exact processes_setProcess_self ..
    · exact processes_setProcess_of_ne _ _ hp
  · rfl

theorem added_addProcess (s : SchedState) (q : ℕ) : (s.addProcess q).added = s.added := by
  unfold addProcess
  split <;> rfl

theorem added_removeProcess (s : SchedState) (q : ℕ) : (s.removeProcess q).added = s.added := by
  unfold removeProcess
  split <;> rfl

/-- One process is changed to have its threads at their places. -/
theorem Tracked.setProcess (h : s.Tracked) {proc : Process}
    (hproc : ∀ t, proc.threadPlaces t = (s.processes q).threadPlaces t) :
    (s.setProcess q proc).Tracked := by
  intro p t
  change ((s.setProcess q proc).processes p).threadPlaces t = if s.added p t = true then 1 else 0
  by_cases hp : p = q
  · subst hp
    rw [processes_setProcess_self, hproc]
    exact h p t
  · rw [processes_setProcess_of_ne _ _ hp]
    exact h p t

theorem Tracked.scheduleSwitch (h : s.Tracked) {v : Option ℕ}
    (hproc : ∀ t, { s.processes q with activeThread := v }.threadPlaces t =
      (s.processes q).threadPlaces t) : (s.scheduleSwitch v q).Tracked :=
  h.setProcess hproc

/-! ## `scheduler_add_thread` -/

theorem count_removeWaiting {w : List ℕ} (hw : w.head? = some u → w = [u]) :
    (removeWaiting u w).count t = w.count t - if u = t then 1 else 0 := by
  unfold removeWaiting
  by_cases hhead : w.head? = some u
  · rw [if_pos hhead, hw hhead, List.count_nil, List.count_singleton]
    simp
  · rw [if_neg hhead]
    by_cases ht : u = t
    · rw [ht, List.count_erase_self, if_pos rfl]
    · rw [List.count_erase_of_ne fun he => ht he.symm, if_neg ht, Nat.sub_zero]

/-- The thread that is placed gets one place more. -/
theorem threadPlaces_placeThread (s : SchedState) (p u t : ℕ) (proc : Process) :
    ((s.placeThread p u proc).processes p).threadPlaces t =
      proc.threadPlaces t + if u = t then 1 else 0 := by
  have hactive : proc.activeThread = none → { proc with activeThread := some u }.threadPlaces t =
      proc.threadPlaces t + if u = t then 1 else 0 := by
    intro hnone
    unfold Process.threadPlaces
    dsimp only
    rw [hnone]
    simp only [Option.some.injEq, reduceCtorEq, if_false]
    omega
  unfold placeThread
  split
  · rename_i h
    rw [threadPlaces_addProcess, processes_setProcess_self]
    exact hactive h.1
  · split
    · rw [processes_setProcess_self]
      exact hactive (by assumption)
    · rw [processes_setProcess_self]
      unfold Process.threadPlaces
      dsimp only
      rw [count_append_singleton]
      omega

theorem processes_placeThread_of_ne (s : SchedState) (u : ℕ) (proc : Process) (h : p ≠ q) :
    (s.placeThread q u proc).processes p = s.processes p := by
  have hset : ∀ proc', (s.setProcess q proc').processes p = s.processes p := fun proc' =>
    processes_setProcess_of_ne s proc' h
  unfold placeThread
  split
  · unfold addProcess
    split
    · exact hset _
    · exact (processes_setProcess_of_ne _ _ h).trans (hset _)
  · split
    · exact hset _
    · exact hset _

theorem added_placeThread (s : SchedState) (p u : ℕ) (proc : Process) :
    (s.placeThread p u proc).added = s.added := by
  unfold placeThread
  split
  · exact added_addProcess _ _
  · split <;> rfl

/-- A careful wake takes the thread from the waiting ones, or finds it nowhere. -/
theorem Tracked.leaveWaiting (h : s.Tracked) (hc : s.Careful (.wake p u))
    (hrun : s.threads u ≠ .running) :
    (s.leaveWaiting u (s.processes p)).threadPlaces t + (if u = t then 1 else 0) =
      if s.added p t = true ∨ u = t then 1 else 0 := by
  have htrack := h p t
  unfold SchedState.leaveWaiting
  by_cases hnew : s.added p u = false
  · -- a new thread is in no place
    have hzero := h p u
    rw [hnew, if_neg Bool.false_ne_true] at hzero
    unfold Process.threadPlaces at hzero
    have hhead : (s.processes p).waitingThreads.head? = some u →
        (s.processes p).waitingThreads = [u] := by
      intro hhead
      have := List.count_pos_iff.mpr (List.mem_of_mem_head? hhead)
      omega
    have hsame : (if s.threads u ≠ .init then { s.processes p with
        waitingThreads := removeWaiting u (s.processes p).waitingThreads }
        else s.processes p).threadPlaces t = (s.processes p).threadPlaces t := by
      split
      · unfold Process.threadPlaces
        dsimp only
        rw [count_removeWaiting hhead]
        by_cases hut : u = t
        · rw [if_pos hut, ← hut]
          omega
        · rw [if_neg hut, Nat.sub_zero]
      · rfl
    rw [hsame, htrack]
    by_cases hut : u = t
    · rw [← hut, hnew, if_neg Bool.false_ne_true, if_pos rfl, if_pos (Or.inr rfl)]
    · simp only [hut, or_false, if_false, Nat.add_zero]
  · obtain ⟨hinit, hmem, hhead⟩ := (hc.resolve_left hrun).resolve_left hnew
    have hadded : s.added p u = true := by
      rwa [Bool.not_eq_false] at hnew
    rw [if_pos hinit]
    unfold Process.threadPlaces at htrack ⊢
    dsimp only
    rw [count_removeWaiting hhead]
    by_cases hut : u = t
    · have hpos := List.count_pos_iff.mpr hmem
      rw [← hut] at htrack ⊢
      rw [hadded, if_pos rfl] at htrack
      rw [if_pos rfl, if_pos (Or.inr rfl)]
      omega
    · simp only [hut, or_false, if_false, Nat.add_zero, Nat.sub_zero]
      exact htrack

theorem Tracked.addThread (h : s.Tracked) (hc : s.Careful (.wake q u)) :
    (s.addThread q u).Tracked := by
  unfold SchedState.addThread
  split
  · exact h
  · rename_i hrun
    intro p t
    rw [added_placeThread]
    dsimp only
    by_cases hp : p = q
    · subst hp
      have hiff : (s.added p t || (decide (p = p) && decide (t = u))) = true ↔
          s.added p t = true ∨ u = t := by
        rw [decide_eq_true (rfl : p = p), Bool.true_and, Bool.or_eq_true, decide_eq_true_eq]
        exact or_congr_right eq_comm
      rw [threadPlaces_placeThread, h.leaveWaiting hc hrun]
      exact (if_congr hiff rfl rfl).symm
    · rw [processes_placeThread_of_ne _ _ _ hp]
      simp only [hp, decide_false, Bool.false_and, Bool.or_false]
      exact h p t

/-! ## `scheduler_remove_thread` and `schedule` -/

theorem Tracked.removeProcess (h : s.Tracked) (q : ℕ) : (s.removeProcess q).Tracked := by
  intro p t
  rw [processes_removeProcess, added_removeProcess]
  exact h p t

theorem Tracked.removeThread (h : s.Tracked) (hc : s.Careful (.removeThread q u)) :
    (s.removeThread q u).Tracked := by
  unfold SchedState.removeThread
  dsimp only
  split
  · exact h
  rename_i hrun
  split
  · -- the active thread waits, and the first running one takes its place
    rename_i hactive
    obtain ⟨rfl, hu⟩ := hactive
    have hplaces : ∀ status t, (⟨status, (s.processes s.currentProcess).runningThreads.head?,
        (s.processes s.currentProcess).runningThreads.tail,
        (s.processes s.currentProcess).waitingThreads ++ [u]⟩ : Process).threadPlaces t =
        (s.processes s.currentProcess).threadPlaces t := by
      intro status t
      unfold Process.threadPlaces
      dsimp only
      rw [hu, count_append_singleton]
      cases (s.processes s.currentProcess).runningThreads with
      | nil =>
        simp only [List.head?_nil, List.tail_nil, reduceCtorEq, if_false, Option.some.injEq]
        omega
      | cons v vs =>
        rw [List.count_cons]
        simp only [List.head?_cons, List.tail_cons, Option.some.injEq, beq_iff_eq]
        omega
    split
    · exact (h.setProcess (hplaces _)).removeProcess _
    · rename_i next hnext
      refine (h.setProcess (hplaces _)).scheduleSwitch fun t => ?_
      rw [processes_setProcess_self, ← hnext]
  · rename_i hactive
    have hmem : u ∈ (s.processes q).runningThreads :=
      (hc.resolve_left hrun).resolve_left hactive
    apply h.setProcess
    intro t
    unfold Process.threadPlaces
    dsimp only
    rw [count_append_singleton]
    by_cases hut : u = t
    · have := List.count_pos_iff.mpr hmem
      rw [← hut, List.count_erase_self, if_pos (rfl : u = u)]
      omega
    · rw [List.count_erase_of_ne fun he => hut he.symm, if_neg hut, Nat.add_zero]

/-- The next thread of a process becomes the active one. -/
theorem threadPlaces_next {proc : Process}
    (h : proc.runningThreads = [] ∨ proc.activeThread = none) (t : ℕ) :
    { proc with
      activeThread := nextThread proc
      runningThreads := proc.runningThreads.tail }.threadPlaces t = proc.threadPlaces t := by
  unfold Process.threadPlaces nextThread
  dsimp only
  cases hrun : proc.runningThreads with
  | nil => rfl
  | cons v vs =>
    have hnone := h.resolve_left (by rw [hrun]; exact List.cons_ne_nil v vs)
    rw [hnone, List.count_cons]
    simp only [List.head?_cons, List.tail_cons, Option.or_none, Option.some.injEq, beq_iff_eq,
      reduceCtorEq, if_false]
    omega

/-- A switch to the next thread of a process. -/
theorem Tracked.switch (h : s.Tracked) {ready : List ℕ}
    (hq : (s.processes q).runningThreads = [] ∨ (s.processes q).activeThread = none) :
    (({ s with readyQueue := ready }.setProcess q { s.processes q with
      runningThreads := (s.processes q).runningThreads.tail }).scheduleSwitch
        (nextThread (s.processes q)) q).Tracked := by
  intro p t
  change _ = if s.added p t = true then 1 else 0
  rw [← h p t]
  by_cases hp : p = q
  · subst hp
    unfold SchedState.scheduleSwitch
    dsimp only
    rw [processes_setProcess_self, processes_setProcess_self]
    exact threadPlaces_next hq t
  · unfold SchedState.scheduleSwitch
    dsimp only
    rw [processes_setProcess_of_ne _ _ hp, processes_setProcess_of_ne _ _ hp]

theorem Tracked.schedule (h : s.Tracked) (hc : s.Careful .tick) : s.schedule.Tracked := by
  have hc' : (s.processes s.scheduled).runningThreads = [] ∨
    (s.processes s.scheduled).activeThread = none := hc
  unfold scheduled at hc'
  unfold SchedState.schedule
  split
  · rename_i hready
    rw [hready] at hc'
    dsimp only
    split
    · exact h
    · rename_i v vs hrun
      have hnext : nextThread (s.processes s.currentProcess) = some v := by
        unfold nextThread
        rw [hrun]
        rfl
      have hswitch : (({ s with readyQueue := s.readyQueue }.setProcess s.currentProcess
          { s.processes s.currentProcess with
            runningThreads := (s.processes s.currentProcess).runningThreads.tail }).scheduleSwitch
          (nextThread (s.processes s.currentProcess)) s.currentProcess).Tracked := h.switch hc'
      rw [hnext, hrun] at hswitch
      exact hswitch
  · rename_i q ready hready
    rw [hready] at hc'
    exact h.switch hc'

theorem Tracked.step (h : s.Tracked) {a : SchedAction} (hc : s.Careful a)
    (hstep : s.step a = some s') : s'.Tracked := by
  cases a with
  | wake q u =>
    rw [← Option.some.inj hstep]
    exact h.addThread hc
  | removeThread q u =>
    rw [← Option.some.inj hstep]
    exact h.removeThread hc
  | mark u status =>
    rw [← Option.some.inj hstep]
    exact h
  | sleep status =>
    change s.sleep status = some s' at hstep
    unfold SchedState.sleep at hstep
    split at hstep
    · cases hstep
    · rename_i u hu
      rw [← Option.some.inj hstep]
      have hmark : (s.setThread u status).Tracked := h
      exact hmark.removeThread (Or.inr (Or.inl ⟨rfl, hu⟩))
  | tick =>
    rw [← Option.some.inj hstep]
    exact h.schedule hc
  | create q u => exact hc.elim
  | stop q => exact hc.elim
  | kill q u => exact hc.elim
  | cont q => exact hc.elim
  | exit parent => exact hc.elim

end SchedState

/-- No thread has been added yet. -/
structure NoThreads (s : SchedState) : Prop where
  active : ∀ p, (s.processes p).activeThread = none
  running : ∀ p, (s.processes p).runningThreads = []
  waiting : ∀ p, (s.processes p).waitingThreads = []
  added : ∀ p t, s.added p t = false

theorem NoThreads.tracked {s : SchedState} (h : NoThreads s) : s.Tracked := by
  intro p t
  unfold Process.threadPlaces
  rw [h.active, h.running, h.waiting, h.added, List.count_nil]
  rfl

/-- In every run of careful steps, each thread that has been added is in exactly one
place. -/
theorem threads_placed_of_careful {s₀ s : SchedState} (h₀ : NoThreads s₀)
    (h : Reach SchedState.step SchedState.Careful s₀ s) : s.Placed := by
  have htrack : s.Tracked := Reach.invariant (fun _ _ _ ht hc hu => ht.step hc hu) h₀.tracked h
  intro p t ha
  rw [htrack p t, if_pos ha]

/-- The process 1 runs and has no thread yet. -/
def threadless : SchedState where
  processes p := ⟨if p = 1 then .running else .init, none, [], []⟩
  threads _ := .init
  currentProcess := 1
  readyQueue := []
  idleProcess := 0
  added _ _ := false

theorem threadless_noThreads : NoThreads threadless :=
  ⟨fun _ => rfl, fun _ => rfl, fun _ => rfl, fun _ _ => rfl⟩

/-- Two threads are added, the first one sleeps and is woken again. -/
theorem threads_placed_of_careful_two_threads :
    ∃ s, run SchedState.step threadless [.wake 1 11, .wake 1 12, .sleep .asleepTime, .wake 1 11] =
        some s ∧ (s.processes 1).activeThread = some 12 ∧ (s.processes 1).runningThreads = [11] ∧
      s.Placed := by
  refine ⟨_, rfl, by decide, by decide, threads_placed_of_careful threadless_noThreads ?_⟩
  have hnew : threadless.Careful (.wake 1 11) := Or.inr (Or.inl rfl)
  have hadd : Reach SchedState.step SchedState.Careful threadless (threadless.addThread 1 11) :=
    Reach.start.next hnew rfl
  have hnew' : (threadless.addThread 1 11).Careful (.wake 1 12) := Or.inr (Or.inl rfl)
  have hadd' := hadd.next hnew' rfl
  have hsleep := hadd'.next (show SchedState.Careful _ (.sleep .asleepTime) from trivial) rfl
  refine hsleep.next (a := .wake 1 11) (Or.inr (Or.inr ⟨?_, ?_, ?_⟩)) rfl
  · decide
  · decide
  · decide

/-- Two threads are added to the current process, and `schedule` is called: the
first thread is then in no place. -/
theorem schedule_loses_active_thread :
    ∃ s, run SchedState.step threadless [.wake 1 11, .wake 1 12, .tick] = some s ∧
      s.added 1 11 = true ∧ (s.processes 1).threadPlaces 11 = 0 ∧ ¬s.Placed := by
  refine ⟨_, rfl, by decide, by decide, fun h => ?_⟩
  have hone := h 1 11 (by decide)
  revert hone
  decide

end VkKernel.Tasking
