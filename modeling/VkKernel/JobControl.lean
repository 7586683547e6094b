import VkKernel.Fairness

/-!
# Stopped processes

A process that a signal has stopped does not run again before it is continued, whatever the other
processes do: its threads that wake up and the thread that a fatal signal adds to it wait with it.
-/

namespace VkKernel.Tasking
open Trace

namespace SchedState
variable {s t : SchedState} {p q : ℕ}

/-- The process has been stopped by a signal. -/
def Stopped (s : SchedState) (p : ℕ) : Prop := (s.processes p).status = .asleepSignal

theorem Stopped.setProcess (h : s.Stopped p) {proc : Process}
    (hproc : q = p → proc.status = .asleepSignal) : (s.setProcess q proc).Stopped p := by
  unfold Stopped
  by_cases hq : p = q
  · subst hq
    rw [processes_setProcess_self]
    exact hproc rfl
  · rw [processes_setProcess_of_ne _ _ hq]
    exact h

theorem Stopped.scheduleSwitch (h : s.Stopped p) (u : Option ℕ) (q : ℕ) :
    (s.scheduleSwitch u q).Stopped p :=
  Stopped.setProcess h fun hq => by rw [hq]; exact h

theorem Stopped.addProcess (h : s.Stopped p) (hq : q ≠ p) : (s.addProcess q).Stopped p := by
  unfold SchedState.addProcess
  split
  · exact h
  · exact Stopped.setProcess h fun he => absurd he hq

theorem Stopped.removeProcess (h : s.Stopped p) (q : ℕ) : (s.removeProcess q).Stopped p := by
  unfold SchedState.removeProcess
  split
  · apply Stopped.scheduleSwitch
    exact h
  · exact h

/-- A process other than the current one keeps its status when a thread is taken out. -/
theorem Stopped.removeThread (h : s.Stopped p) (q u : ℕ) : (s.removeThread q u).Stopped p := by
  unfold SchedState.removeThread
  dsimp only
  split
  · exact h
  · rename_i hrunning
    have hq : q ≠ p := by
      rintro rfl
      rw [not_not, h] at hrunning
      cases hrunning
    split
    · split
      · apply Stopped.removeProcess
        exact h.setProcess fun he => absurd he hq
      · apply Stopped.scheduleSwitch
        exact h.setProcess fun he => absurd he hq
    · exact h.setProcess fun he => absurd he hq

/-- A thread that is added waits with its stopped process. -/
theorem Stopped.addThread (h : s.Stopped p) (q u : ℕ) : (s.addThread q u).Stopped p := by
  have hplaced : ∀ {r : SchedState}, r.Stopped p → r.processes = s.processes →
      (r.placeThread q u (s.leaveWaiting u (s.processes q))).Stopped p := by
    intro r hr hprocesses
    have hstatus : q = p → (s.leaveWaiting u (s.processes q)).status = .asleepSignal := by
      rintro rfl
      rw [leaveWaiting_status]
      exact h
    unfold placeThread
    split
    · rename_i hasleep
      have hq : q ≠ p := by
        rintro rfl
        rw [hstatus rfl] at hasleep
        cases hasleep.2
      apply Stopped.addProcess _ hq
      exact hr.setProcess hstatus
    · split
      · exact hr.setProcess hstatus
      · exact hr.setProcess hstatus
  unfold SchedState.addThread
  split
  · exact h
  · apply hplaced
    · exact h
    · rfl

theorem Stopped.schedule (h : s.Stopped p) : s.schedule.Stopped p := by
  unfold SchedState.schedule
  split
  · dsimp only
    split
    · exact h
    · apply Stopped.scheduleSwitch
      exact h.setProcess fun he => by rw [he]; exact h
  · apply Stopped.scheduleSwitch
    exact Stopped.setProcess h fun he => by rw [he]; exact h

/-- No step but the signal that continues a stopped process changes its status. -/
theorem Stopped.step (h : s.Stopped p) (hcur : s.currentProcess ≠ p) {a : SchedAction}
    (ha : a ≠ .cont p) (hstep : s.step a = some t) : t.Stopped p := by
  cases a with
  | create q u =>
    rw [SchedState.step] at hstep
    split at hstep
    · rename_i hinit
      have hq : q ≠ p := by
        rintro rfl
        rw [h] at hinit
        cases hinit.1
      rw [← Option.some.inj hstep]
      apply Stopped.addProcess _ hq
      apply Stopped.addThread
      exact Stopped.setProcess h fun he => absurd he hq
    · cases hstep
  | sleep status =>
    change s.sleep status = some t at hstep
    unfold SchedState.sleep at hstep
    split at hstep
    · cases hstep
    · rw [← Option.some.inj hstep]
      apply Stopped.removeThread
      exact h
  | wake q u =>
    rw [← Option.some.inj hstep]
    exact h.addThread q u
  | removeThread q u =>
    rw [← Option.some.inj hstep]
    exact h.removeThread q u
  | mark u status =>
    rw [← Option.some.inj hstep]
    exact h
  | stop q =>
    rw [← Option.some.inj hstep]
    unfold SchedState.stopProcess
    split
    · apply Stopped.removeProcess
      exact h.setProcess fun _ => rfl
    · exact h
  | kill q u =>
    rw [← Option.some.inj hstep]
    unfold SchedState.killProcess
    split
    · exact h
    · apply Stopped.addThread
      exact h
  | cont q =>
    have hq : q ≠ p := fun he => ha (by rw [he])
    rw [← Option.some.inj hstep]
    unfold SchedState.continueProcess
    split
    · exact h.addProcess hq
    · exact h
  | exit parent =>
    change s.exitProcess parent = some t at hstep
    unfold SchedState.exitProcess at hstep
    dsimp only at hstep
    have hzombie : ∀ u proc, Stopped ((s.setProcess s.currentProcess proc).setThread u .zombie) p :=
      fun u proc => Stopped.setProcess h fun he => absurd he hcur
    split at hstep
    · cases hstep
    · split at hstep
      · rw [← Option.some.inj hstep]
        apply Stopped.removeProcess
        exact hzombie _ _
      · obtain ⟨u, hu, ht⟩ := Option.map_eq_some_iff.mp hstep
        rw [← ht]
        apply Stopped.removeProcess
        rcases wakeParent_keeps hu with hu | ⟨v, hu⟩
        · rw [hu]
          exact hzombie _ _
        · rw [hu]
          apply Stopped.addThread
          exact hzombie _ _
  | tick =>
    rw [← Option.some.inj hstep]
    exact h.schedule

/-- A stopped process is neither current nor in the queue. -/
theorem Stopped.absent (h : s.Stopped p) (hfit : s.Fits p) :
    s.currentProcess ≠ p ∧ p ∉ s.readyQueue := by
  unfold Fits wanted at hfit
  rw [h, if_neg (by decide)] at hfit
  unfold places at hfit
  refine ⟨fun he => ?_, fun hmem => ?_⟩
  · rw [if_pos he] at hfit
    omega
  · have := List.count_pos_iff.mpr hmem
    omega

/-- A step leaves the idle process what it is. -/
theorem step_idleProcess {a : SchedAction} (hstep : s.step a = some t) :
    t.idleProcess = s.idleProcess := by
  cases a with
  | create q u =>
    rw [SchedState.step] at hstep
    split at hstep
    · rw [← Option.some.inj hstep]
      exact (addProcess_idleProcess _ q).trans (addThread_currentProcess _ q u).2
    · cases hstep
  | sleep status =>
    change s.sleep status = some t at hstep
    unfold SchedState.sleep at hstep
    split at hstep
    · cases hstep
    · rw [← Option.some.inj hstep]
      exact removeThread_idleProcess _ _ _
  | wake q u =>
    rw [← Option.some.inj hstep]
    exact (addThread_currentProcess s q u).2
  | removeThread q u =>
    rw [← Option.some.inj hstep]
    exact removeThread_idleProcess s q u
  | mark u status =>
    rw [← Option.some.inj hstep]
    rfl
  | stop q =>
    rw [← Option.some.inj hstep]
    unfold SchedState.stopProcess
    split
    · exact removeProcess_idleProcess _ q
    · rfl
  | kill q u =>
    rw [← Option.some.inj hstep]
    unfold SchedState.killProcess
    split
    · rfl
    · exact (addThread_currentProcess _ q u).2
  | cont q =>
    rw [← Option.some.inj hstep]
    unfold SchedState.continueProcess
    split
    · exact addProcess_idleProcess s q
    · rfl
  | exit parent =>
    exact exitProcess_idleProcess hstep
  | tick =>
    rw [← Option.some.inj hstep]
    exact schedule_idleProcess s

/-- A stopped process in a state whose queue is as the statuses say. -/
structure Waits (s : SchedState) (p : ℕ) : Prop where
  allFit : s.AllFit
  ne_idle : p ≠ s.idleProcess
  stopped : s.Stopped p

theorem Waits.absent (h : s.Waits p) : s.currentProcess ≠ p ∧ p ∉ s.readyQueue :=
  h.stopped.absent (h.allFit p h.ne_idle)

theorem Waits.step (h : s.Waits p) {a : SchedAction} (ha : a ≠ .cont p)
    (hstep : s.step a = some t) : t.Waits p where
  allFit := h.allFit.step hstep
  ne_idle := by
    rw [step_idleProcess hstep]
    exact h.ne_idle
  stopped := h.stopped.step h.absent.1 ha hstep

/-- A stopped process waits along every run that does not continue it. -/
theorem Waits.run (h : s.Waits p) {l : List SchedAction}
    (hrun : Trace.run SchedState.step s l = some t) (hcont : .cont p ∉ l) : t.Waits p := by
  have hreach : Reach SchedState.step (fun _ a => a ≠ .cont p) s t := by
    apply Reach.start.of_run _ hrun
    intro a ha _ he
    rw [he] at ha
    exact hcont ha
  exact hreach.invariant (I := fun r => r.Waits p) (fun _ _ _ ht ha hu => ht.step ha hu) h

/-- The process that is continued is the last one of the queue. -/
theorem Waits.continueProcess (h : s.Waits p) :
    (s.continueProcess p).readyQueue = s.readyQueue ++ [p] := by
  unfold SchedState.continueProcess SchedState.addProcess
  have hstatus : (s.processes p).status = .asleepSignal := h.stopped
  rw [if_pos hstatus, if_neg]
  rintro ⟨_, hrunning⟩
  rw [hstatus] at hrunning
  cases hrunning

end SchedState

end VkKernel.Tasking
