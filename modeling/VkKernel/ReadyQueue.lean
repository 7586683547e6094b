import VkKernel.Scheduler

/-!
# The ready queue

A process other than the idle one is at as many places, `current_process` and
the entries of `p_ready_queue`, as its status says: one if it is running and none
otherwise.
-/

namespace VkKernel.Tasking
open Trace

namespace SchedState
variable {s t : SchedState} {p q : ℕ}

/-- The number of places of a process. -/
def places (s : SchedState) (p : ℕ) : ℕ :=
  (if s.currentProcess = p then 1 else 0) + s.readyQueue.count p

/-- The number of places that the status calls for. -/
def wanted (s : SchedState) (p : ℕ) : ℕ := if (s.processes p).status = .running then 1 else 0

/-- The process is at the places that its status calls for. -/
def Fits (s : SchedState) (p : ℕ) : Prop := s.places p = s.wanted p

@[simp] theorem places_setProcess (proc : Process) : (s.setProcess q proc).places p = s.places p :=
  rfl

@[simp] theorem places_setThread (u : ℕ) (status : ThreadStatus) :
    (s.setThread u status).places p = s.places p := rfl

@[simp] theorem wanted_setThread (u : ℕ) (status : ThreadStatus) :
    (s.setThread u status).wanted p = s.wanted p := rfl

theorem wanted_setProcess_self (proc : Process) :
    (s.setProcess p proc).wanted p = if proc.status = .running then 1 else 0 := by
  rw [wanted, processes_setProcess_self]

theorem wanted_setProcess_of_ne (proc : Process) (h : p ≠ q) :
    (s.setProcess q proc).wanted p = s.wanted p := by
  rw [wanted, processes_setProcess_of_ne s proc h]
  rfl

/-- A process whose status is kept. -/
theorem wanted_setProcess_of_status {proc : Process}
    (h : proc.status = (s.processes q).status) : (s.setProcess q proc).wanted p = s.wanted p := by
  by_cases hp : p = q
  · subst hp
    rw [wanted_setProcess_self, h]
    rfl
  · exact wanted_setProcess_of_ne proc hp

theorem wanted_scheduleSwitch (u : Option ℕ) : (s.scheduleSwitch u q).wanted p = s.wanted p :=
  wanted_setProcess_of_status rfl

theorem places_scheduleSwitch (u : Option ℕ) :
    (s.scheduleSwitch u q).places p = (if q = p then 1 else 0) + s.readyQueue.count p := rfl

theorem wanted_addProcess_of_ne (h : p ≠ q) : (s.addProcess q).wanted p = s.wanted p := by
  unfold addProcess
  split
  · rfl
  · exact wanted_setProcess_of_ne _ h

/-- `scheduler_add_process` gives a process that does not run its place. -/
theorem addProcess_fits (hp : p ≠ s.idleProcess) (h : s.Fits p) : (s.addProcess q).Fits p := by
  unfold Fits at h ⊢
  by_cases hrun : q ≠ s.idleProcess ∧ (s.processes q).status = .running
  · unfold addProcess
    rw [if_pos hrun]
    exact h
  have hplaces : (s.addProcess q).places p = s.places p + if q = p then 1 else 0 := by
    unfold addProcess places
    rw [if_neg hrun]
    change _ + (s.readyQueue ++ [q]).count p = _
    rw [count_append_singleton, Nat.add_assoc]
    rfl
  rw [hplaces, h]
  by_cases hq : p = q
  · subst hq
    have hstatus : (s.processes p).status ≠ .running := fun hr => hrun ⟨hp, hr⟩
    have hafter : (s.addProcess p).wanted p = 1 := by
      unfold addProcess
      rw [if_neg hrun]
      exact (wanted_setProcess_self _).trans (if_pos rfl)
    rw [hafter, if_pos rfl, wanted, if_neg hstatus]
  · rw [wanted_addProcess_of_ne hq, if_neg fun he => hq he.symm, Nat.add_zero]

theorem wanted_removeProcess : (s.removeProcess q).wanted p = s.wanted p := by
  unfold removeProcess
  split
  · exact wanted_scheduleSwitch _
  · rfl

theorem removeProcess_idleProcess (s : SchedState) (q : ℕ) :
    (s.removeProcess q).idleProcess = s.idleProcess := by
  unfold removeProcess
  split <;> rfl

/-- The current process gives its place to the first one of the queue. -/
theorem places_removeProcess_current (hp : p ≠ s.idleProcess) :
    (s.removeProcess s.currentProcess).places p = s.readyQueue.count p := by
  unfold removeProcess
  rw [if_pos rfl, places_scheduleSwitch]
  cases hq : s.readyQueue with
  | nil =>
    change (if s.idleProcess = p then 1 else 0) + 0 = 0
    rw [if_neg fun he => hp he.symm]
  | cons x xs =>
    rw [List.count_cons, Nat.add_comm]
    simp only [beq_iff_eq]
    rfl

theorem places_removeProcess_of_ne (hq : q ≠ s.currentProcess) :
    (s.removeProcess q).places p =
      (if s.currentProcess = p then 1 else 0) + (s.readyQueue.erase q).count p := by
  unfold removeProcess
  rw [if_neg fun he => hq he.symm]
  rfl

/-- The current process is taken off with a status other than running. -/
theorem removeProcess_current_fits (hp : p ≠ s.idleProcess)
    (h : p ≠ s.currentProcess → s.Fits p) (hcur : s.currentProcess ≠ s.idleProcess →
      s.readyQueue.count s.currentProcess = 0 ∧ s.wanted s.currentProcess = 0) :
    (s.removeProcess s.currentProcess).Fits p := by
  unfold Fits
  rw [places_removeProcess_current hp, wanted_removeProcess]
  by_cases hq : p = s.currentProcess
  · subst hq
    rw [(hcur hp).1, (hcur hp).2]
  · have := h hq
    unfold Fits places at this
    rw [if_neg fun he => hq he.symm, Nat.zero_add] at this
    exact this

/-- The current process does not wait in the queue. -/
theorem Fits.count_current (h : s.Fits s.currentProcess) :
    s.readyQueue.count s.currentProcess = 0 ∧ (s.processes s.currentProcess).status = .running := by
  unfold Fits places wanted at h
  rw [if_pos rfl] at h
  split at h
  · exact ⟨by omega, by assumption⟩
  · omega

/-- A status that is kept leaves the process at its places. -/
theorem Fits.setProcess (h : s.Fits p) {proc : Process}
    (hs : proc.status = (s.processes q).status) : (s.setProcess q proc).Fits p := by
  unfold Fits
  rw [places_setProcess, wanted_setProcess_of_status hs]
  exact h

/-- A switch between the threads of the current process. -/
theorem Fits.scheduleSwitch_current (h : s.Fits p) (u : Option ℕ) :
    (s.scheduleSwitch u s.currentProcess).Fits p := by
  unfold Fits
  rw [wanted_scheduleSwitch]
  exact h

theorem Fits.placeThread (h : s.Fits p) (hp : p ≠ s.idleProcess) (u : ℕ) {proc : Process}
    (hs : proc.status = (s.processes q).status) : (s.placeThread q u proc).Fits p := by
  unfold SchedState.placeThread
  split
  · apply addProcess_fits
    · exact hp
    · exact h.setProcess hs
  · split
    · exact h.setProcess hs
    · exact h.setProcess hs

theorem Fits.addThread (h : s.Fits p) (hp : p ≠ s.idleProcess) (q u : ℕ) :
    (s.addThread q u).Fits p := by
  unfold SchedState.addThread
  split
  · exact h
  · apply Fits.placeThread
    · exact h
    · exact hp
    · exact leaveWaiting_status s u _

theorem Fits.removeThread (h : s.Fits p) (hp : p ≠ s.idleProcess)
    (hcur : s.currentProcess ≠ s.idleProcess → s.Fits s.currentProcess) (q u : ℕ) :
    (s.removeThread q u).Fits p := by
  unfold SchedState.removeThread
  dsimp only
  split
  · exact h
  · split
    · rename_i hq
      obtain ⟨rfl, -⟩ := hq
      split
      · -- the last running thread sleeps
        refine removeProcess_current_fits hp (fun hne => ?_) fun hidle => ⟨?_, ?_⟩
        · unfold Fits
          rw [places_setProcess, wanted_setProcess_of_ne]
          · exact h
          · exact hne
        · exact (hcur hidle).count_current.1
        · exact wanted_setProcess_self _
      · apply Fits.scheduleSwitch_current
        exact h.setProcess rfl
    · exact h.setProcess rfl

theorem Fits.schedule (h : s.Fits p) (hp : p ≠ s.idleProcess)
    (hcur : s.currentProcess ≠ s.idleProcess → s.Fits s.currentProcess) : s.schedule.Fits p := by
  unfold SchedState.schedule
  split
  · dsimp only
    split
    · exact h
    · apply Fits.scheduleSwitch_current
      exact h.setProcess rfl
  · rename_i q ready hready
    dsimp only
    unfold Fits
    rw [wanted_scheduleSwitch, wanted_setProcess_of_status]
    swap
    · rfl
    change (if q = p then 1 else 0) + (if s.currentProcess = s.idleProcess ∨ s.currentProcess = q
      then ready else ready ++ [s.currentProcess]).count p = s.wanted p
    rw [← h, places, hready, List.count_cons]
    simp only [beq_iff_eq]
    by_cases hor : s.currentProcess = s.idleProcess ∨ s.currentProcess = q
    · -- a current process other than the idle one is not in the queue
      have hne : s.currentProcess ≠ p := by
        rintro rfl
        have hzero := (hcur hp).count_current.1
        rw [hready, hor.resolve_left hp, List.count_cons_self] at hzero
        omega
      rw [if_pos hor, if_neg hne]
      omega
    · rw [if_neg hor, count_append_singleton]
      omega

theorem Fits.stopProcess (h : s.Fits p) (q : ℕ) : (s.stopProcess q).Fits p := by
  unfold SchedState.stopProcess
  split
  · rename_i hq
    obtain ⟨hne, hrun⟩ := hq
    unfold Fits
    rw [places_removeProcess_of_ne (show q ≠ (s.setProcess q _).currentProcess from hne),
      wanted_removeProcess]
    change (if s.currentProcess = p then 1 else 0) + (s.readyQueue.erase q).count p = _
    by_cases hqp : p = q
    · subst hqp
      unfold Fits places wanted at h
      rw [if_neg fun he => hne he.symm, if_pos hrun] at h
      rw [wanted_setProcess_self, List.count_erase_self, if_neg fun he => hne he.symm]
      change 0 + (s.readyQueue.count p - 1) = 0
      omega
    · rw [wanted_setProcess_of_ne _ hqp, List.count_erase_of_ne hqp]
      exact h
  · exact h

/-- A thread that is added wakes up processes asleep only. -/
theorem addThread_of_status (h : (s.processes p).status ≠ .asleepThreads) (q u : ℕ) :
    (s.addThread q u).readyQueue.count p = s.readyQueue.count p ∧
      (s.addThread q u).wanted p = s.wanted p := by
  unfold addThread
  split
  · exact ⟨rfl, rfl⟩
  unfold placeThread
  split
  · rename_i hasleep
    have hne : p ≠ q := by
      rintro rfl
      rw [leaveWaiting_status] at hasleep
      exact h hasleep.2
    refine ⟨?_, ?_⟩
    · unfold addProcess
      split
      · rfl
      · change (s.readyQueue ++ [q]).count p = _
        rw [count_append_singleton, if_neg fun he => hne he.symm, Nat.add_zero]
    · rw [wanted_addProcess_of_ne hne, wanted_setProcess_of_ne _ hne]
      rfl
  · split
    · exact ⟨rfl, wanted_setProcess_of_status (leaveWaiting_status s u _)⟩
    · exact ⟨rfl, wanted_setProcess_of_status (leaveWaiting_status s u _)⟩

theorem addThread_currentProcess (s : SchedState) (q u : ℕ) :
    (s.addThread q u).currentProcess = s.currentProcess ∧
      (s.addThread q u).idleProcess = s.idleProcess := by
  unfold addThread placeThread addProcess
  split_ifs <;> exact ⟨rfl, rfl⟩

theorem wakeParent_keeps {parent : ℕ} (h : s.wakeParent parent = some t) :
    t = s ∨ ∃ u, t = s.addThread parent u := by
  unfold wakeParent at h
  split at h
  · exact Or.inl (Option.some.inj h).symm
  · split at h
    · exact Or.inr ⟨_, (Option.some.inj h).symm⟩
    · cases h

/-- The process that exits is taken off as a zombie, whichever thread of its parent
is woken. -/
theorem Fits.exitProcess (h : ∀ p, p ≠ s.idleProcess → s.Fits p) {parent : Option ℕ}
    (hexit : s.exitProcess parent = some t) (hp : p ≠ s.idleProcess) :
    t.Fits p := by
  unfold SchedState.exitProcess at hexit
  dsimp only at hexit
  split at hexit
  · cases hexit
  rename_i u hactive
  generalize hz : (s.setProcess s.currentProcess { s.processes s.currentProcess with
    status := .zombie, runningThreads := [] }).setThread u .zombie = z at hexit
  have hcur : z.currentProcess = s.currentProcess := by rw [← hz]; rfl
  have hidle : z.idleProcess = s.idleProcess := by rw [← hz]; rfl
  have hstatus : (z.processes s.currentProcess).status = .zombie := by
    rw [← hz]
    exact congrArg Process.status (processes_setProcess_self ..)
  have hfits : ∀ q, q ≠ z.idleProcess → q ≠ z.currentProcess → z.Fits q := by
    intro q hq hne
    rw [hidle] at hq
    rw [hcur] at hne
    have := h q hq
    rw [← hz]
    unfold Fits at this ⊢
    rw [places_setThread, places_setProcess, wanted_setThread, wanted_setProcess_of_ne _ hne]
    exact this
  have hcount : z.currentProcess ≠ z.idleProcess → z.readyQueue.count z.currentProcess = 0 ∧
      z.wanted z.currentProcess = 0 := by
    intro hne
    rw [hcur, hidle] at hne
    rw [hcur]
    refine ⟨?_, ?_⟩
    · rw [← hz]
      exact (h _ hne).count_current.1
    · rw [wanted, hstatus]
      rfl
  rw [← hidle] at hp
  cases parent with
  | none =>
    have heq := Option.some.inj hexit
    rw [← hcur] at heq
    rw [← heq]
    exact removeProcess_current_fits hp (hfits p hp) hcount
  | some parent =>
    obtain ⟨z', hwake, hz'⟩ := Option.map_eq_some_iff.mp hexit
    rw [← hcur] at hz'
    rcases wakeParent_keeps hwake with rfl | ⟨v, rfl⟩
    · rw [← hz']
      exact removeProcess_current_fits hp (hfits p hp) hcount
    · obtain ⟨hc, hi⟩ := addThread_currentProcess z parent v
      have hkeep := addThread_of_status (s := z) (p := z.currentProcess) (by
        rw [hcur, hstatus]
        decide) parent v
      rw [← hc] at hz'
      rw [← hz']
      refine removeProcess_current_fits (by rwa [hi]) (fun hne => ?_) fun hne => ?_
      · rw [hc] at hne
        exact (hfits p hp hne).addThread hp parent v
      · rw [hc, hi] at hne
        rw [hc, hkeep.1, hkeep.2]
        exact hcount hne

theorem exitProcess_idleProcess {parent : Option ℕ} (hexit : s.exitProcess parent = some t) :
    t.idleProcess = s.idleProcess := by
  unfold SchedState.exitProcess at hexit
  dsimp only at hexit
  split at hexit
  · cases hexit
  cases parent with
  | none =>
    rw [← Option.some.inj hexit]
    exact removeProcess_idleProcess _ _
  | some parent =>
    obtain ⟨z, hwake, hz⟩ := Option.map_eq_some_iff.mp hexit
    rw [← hz, removeProcess_idleProcess]
    rcases wakeParent_keeps hwake with rfl | ⟨v, rfl⟩
    · rfl
    · exact (addThread_currentProcess _ parent v).2

/-- A new process is put into the queue. -/
theorem Fits.createProcess (h : s.Fits p) (hp : p ≠ s.idleProcess)
    (hnew : (s.processes q).status = .init) (u : ℕ) : (s.createProcess q u).Fits p := by
  have hfits : ((s.setProcess q ⟨.init, none, [], []⟩).setThread u .init).Fits p := by
    apply Fits.setProcess h
    exact hnew.symm
  unfold SchedState.createProcess
  apply addProcess_fits
  · rw [(addThread_currentProcess _ q u).2]
    exact hp
  · exact hfits.addThread hp q u

theorem Fits.sleep (h : s.Fits p) (hp : p ≠ s.idleProcess)
    (hcur : s.currentProcess ≠ s.idleProcess → s.Fits s.currentProcess) {status : ThreadStatus}
    (hsleep : s.sleep status = some t) : t.Fits p := by
  unfold SchedState.sleep at hsleep
  split at hsleep
  · cases hsleep
  · rw [← Option.some.inj hsleep]
    apply Fits.removeThread
    · exact h
    · exact hp
    · exact hcur

/-- Every process other than the idle one is at the places that its status calls
for. -/
def AllFit (s : SchedState) : Prop := ∀ p, p ≠ s.idleProcess → s.Fits p

theorem addProcess_idleProcess (s : SchedState) (q : ℕ) :
    (s.addProcess q).idleProcess = s.idleProcess := by
  unfold addProcess
  split <;> rfl

theorem removeThread_idleProcess (s : SchedState) (q u : ℕ) :
    (s.removeThread q u).idleProcess = s.idleProcess := by
  unfold removeThread
  dsimp only
  split
  · rfl
  · split
    · split
      · exact removeProcess_idleProcess _ _
      · rfl
    · rfl

theorem schedule_idleProcess (s : SchedState) : s.schedule.idleProcess = s.idleProcess := by
  unfold schedule
  split
  · dsimp only
    split <;> rfl
  · rfl

theorem AllFit.step (h : s.AllFit) {a : SchedAction} (hstep : s.step a = some t) : t.AllFit := by
  have hcur : s.currentProcess ≠ s.idleProcess → s.Fits s.currentProcess := h _
  intro p hp
  cases a with
  | create q u =>
    rw [SchedState.step] at hstep
    split at hstep
    · rename_i hnew
      rw [← Option.some.inj hstep] at hp ⊢
      unfold createProcess at hp
      rw [addProcess_idleProcess, (addThread_currentProcess _ q u).2] at hp
      exact (h p hp).createProcess hp hnew.1 u
    · cases hstep
  | sleep status =>
    have hidle : t.idleProcess = s.idleProcess := by
      change s.sleep status = some t at hstep
      unfold SchedState.sleep at hstep
      split at hstep
      · cases hstep
      · rw [← Option.some.inj hstep]
        exact removeThread_idleProcess _ _ _
    rw [hidle] at hp
    exact (h p hp).sleep hp hcur hstep
  | wake q u =>
    rw [← Option.some.inj hstep] at hp ⊢
    rw [(addThread_currentProcess s q u).2] at hp
    exact (h p hp).addThread hp q u
  | removeThread q u =>
    rw [← Option.some.inj hstep] at hp ⊢
    rw [removeThread_idleProcess] at hp
    exact (h p hp).removeThread hp hcur q u
  | mark u status =>
    rw [← Option.some.inj hstep] at hp ⊢
    exact h p hp
  | stop q =>
    rw [← Option.some.inj hstep] at hp ⊢
    have hidle : (s.stopProcess q).idleProcess = s.idleProcess := by
      unfold SchedState.stopProcess
      split
      · exact removeProcess_idleProcess _ _
      · rfl
    rw [hidle] at hp
    exact (h p hp).stopProcess q
  | kill q u =>
    rw [← Option.some.inj hstep] at hp ⊢
    unfold killProcess at hp ⊢
    split at hp
    · rw [if_pos (by assumption)]
      exact h p hp
    · rw [if_neg (by assumption)]
      rw [(addThread_currentProcess _ q u).2] at hp
      apply Fits.addThread
      · exact h p hp
      · exact hp
  | cont q =>
    rw [← Option.some.inj hstep] at hp ⊢
    unfold continueProcess at hp ⊢
    split at hp
    · rw [if_pos (by assumption)]
      rw [addProcess_idleProcess] at hp
      exact addProcess_fits hp (h p hp)
    · rw [if_neg (by assumption)]
      exact h p hp
  | exit parent =>
    have hidle : t.idleProcess = s.idleProcess := exitProcess_idleProcess hstep
    rw [hidle] at hp
    exact Fits.exitProcess h hstep hp
  | tick =>
    rw [← Option.some.inj hstep] at hp ⊢
    rw [schedule_idleProcess] at hp
    exact (h p hp).schedule hp hcur

end SchedState

/-- What the ready queue owes to a process. -/
structure QueueConsistent (s : SchedState) (p : ℕ) : Prop where
  running_iff : (s.processes p).status = .running ↔ s.currentProcess = p ∨ p ∈ s.readyQueue
  current_not_mem : s.currentProcess = p → p ∉ s.readyQueue
  count_le : s.readyQueue.count p ≤ 1
  zombie_not_mem : (s.processes p).status = .zombie → p ∉ s.readyQueue

theorem SchedState.Fits.consistent {s : SchedState} {p : ℕ} (h : s.Fits p) :
    QueueConsistent s p := by
  unfold SchedState.Fits SchedState.places SchedState.wanted at h
  have hmem : p ∈ s.readyQueue ↔ 0 < s.readyQueue.count p := List.count_pos_iff.symm
  by_cases hrun : (s.processes p).status = .running
  · rw [if_pos hrun] at h
    by_cases hcur : s.currentProcess = p
    · rw [if_pos hcur] at h
      refine ⟨iff_of_true hrun (Or.inl hcur), fun _ => ?_, by omega, fun _ => ?_⟩ <;>
        rw [hmem] <;> omega
    · rw [if_neg hcur] at h
      refine ⟨iff_of_true hrun (Or.inr (hmem.mpr (by omega))), fun hc => absurd hc hcur, by omega,
        fun hz => ?_⟩
      rw [hrun] at hz
      cases hz
  · rw [if_neg hrun] at h
    have hcur : s.currentProcess ≠ p := by
      intro hc
      rw [if_pos hc] at h
      omega
    have hnot : p ∉ s.readyQueue := by
      rw [hmem]
      omega
    exact ⟨iff_of_false hrun (by tauto), fun _ => hnot, by omega, fun _ => hnot⟩

/-- The kernel process runs before any other is created. -/
structure Booted (s : SchedState) : Prop where
  current_ne : s.currentProcess ≠ s.idleProcess
  current_running : (s.processes s.currentProcess).status = .running
  others_init : ∀ p, p ≠ s.currentProcess → (s.processes p).status = .init
  queue_empty : s.readyQueue = []

theorem Booted.allFit {s : SchedState} (h : Booted s) : s.AllFit := by
  intro p _
  unfold SchedState.Fits SchedState.places SchedState.wanted
  rw [h.queue_empty, List.count_nil, Nat.add_zero]
  by_cases hp : p = s.currentProcess
  · rw [hp, if_pos rfl, if_pos h.current_running]
  · rw [if_neg fun he => hp he.symm, h.others_init p hp, if_neg (by decide)]

/-- In every run, the processes other than the idle one are in the queue or current
as their status says. -/
theorem readyQueue_consistent {s₀ s : SchedState} (h₀ : Booted s₀)
    (h : Reach SchedState.step (fun _ _ => True) s₀ s) {p : ℕ} (hp : p ≠ s.idleProcess) :
    QueueConsistent s p := by
  have hfit : s.AllFit := Reach.invariant (fun _ _ _ ht _ hu => ht.step hu) h₀.allFit h
  exact (hfit p hp).consistent

/-- The kernel process 1 beside the idle process 0. -/
def bootState : SchedState where
  processes p := ⟨if p = 1 then .running else .init, if p ≤ 1 then some p else none, [], []⟩
  threads _ := .init
  currentProcess := 1
  readyQueue := []
  idleProcess := 0
  added _ _ := false

/-- A process is created, becomes current, sleeps and is woken. -/
def sleepAndWake : List SchedAction :=
  [.create 2 12, .tick, .sleep .asleepTime, .tick, .wake 2 12]

theorem readyQueue_consistent_sleep_and_wake :
    ∃ s, run SchedState.step bootState sleepAndWake = some s ∧ s.readyQueue = [2] ∧
      QueueConsistent s 2 := by
  have hboot : Booted bootState :=
    ⟨by decide, rfl, fun p hp => if_neg hp, rfl⟩
  refine ⟨_, rfl, by decide, readyQueue_consistent hboot ?_ (by decide)⟩
  exact Reach.start.of_run (l := sleepAndWake) (fun _ _ _ => trivial) rfl

end VkKernel.Tasking
