import VkKernel.Lib.Ranking
import VkKernel.ReadyQueue

/-!
# Waiting for the processor

A process in the ready queue is overtaken by no other. Every timer tick takes the first process of
the queue, so a process that no signal stops is current within as many ticks as the queue is long.
-/

namespace VkKernel.Tasking
open Trace

namespace SchedState
variable {s t : SchedState} {p q : ℕ}

/-- Taking another element out keeps the place or moves it forward. -/
theorem idxOf_erase_le {l : List ℕ} (h : q ≠ p) : (l.erase q).idxOf p ≤ l.idxOf p := by
  induction l with
  | nil => simp
  | cons a l ih =>
    by_cases ha : a = q
    · rw [ha, List.erase_cons_head, List.idxOf_cons_ne _ h]
      exact Nat.le_succ _
    · rw [List.erase_cons_tail (by simpa using ha)]
      by_cases hp : a = p
      · simp [hp]
      · rw [List.idxOf_cons_ne _ hp, List.idxOf_cons_ne _ hp]
        exact Nat.succ_le_succ ih

/-- The process has become current, or it is in the queue and not further behind. -/
def Advances (p : ℕ) (s t : SchedState) : Prop :=
  t.currentProcess = p ∨ p ∈ t.readyQueue ∧ t.readyQueue.idxOf p ≤ s.readyQueue.idxOf p

theorem Advances.refl (h : p ∈ s.readyQueue) : Advances p s s := Or.inr ⟨h, le_rfl⟩

theorem Advances.addProcess (h : Advances p s t) (q : ℕ) : Advances p s (t.addProcess q) := by
  unfold SchedState.addProcess
  split
  · exact h
  · apply h.imp id
    rintro ⟨hmem, hle⟩
    refine ⟨List.mem_append_left [q] hmem, ?_⟩
    change (t.readyQueue ++ [q]).idxOf p ≤ _
    rw [List.idxOf_append_of_mem hmem]
    exact hle

theorem Advances.removeProcess (h : Advances p s t) (hq : q ≠ p) :
    Advances p s (t.removeProcess q) := by
  unfold SchedState.removeProcess
  split
  · rename_i hcur
    obtain ⟨hmem, hle⟩ := h.resolve_left fun he => hq (hcur.symm.trans he)
    cases hqueue : t.readyQueue with
    | nil =>
      rw [hqueue] at hmem
      cases hmem
    | cons r ready =>
      rw [hqueue] at hmem hle
      by_cases hr : r = p
      · exact Or.inl hr
      · rw [List.idxOf_cons_ne _ hr] at hle
        exact Or.inr ⟨List.mem_of_ne_of_mem (Ne.symm hr) hmem, Nat.le_of_succ_le hle⟩
  · apply h.imp id
    rintro ⟨hmem, hle⟩
    exact ⟨(List.mem_erase_of_ne hq.symm).mpr hmem, (idxOf_erase_le hq).trans hle⟩

theorem Advances.addThread (h : Advances p s t) (q u : ℕ) : Advances p s (t.addThread q u) := by
  unfold SchedState.addThread
  split
  · exact h
  · unfold SchedState.placeThread
    split
    · apply Advances.addProcess
      exact h
    · split
      · exact h
      · exact h

theorem Advances.removeThread (h : Advances p s t) (hcur : t.currentProcess ≠ p) (q u : ℕ) :
    Advances p s (t.removeThread q u) := by
  unfold SchedState.removeThread
  dsimp only
  split
  · exact h
  · split
    · rename_i hq
      split
      · -- the last thread of the current process
        exact Advances.removeProcess h (hq.1 ▸ hcur)
      · exact Or.inr (h.resolve_left hcur)
    · exact h

/-- A tick moves the queue on. -/
theorem schedule_advances (hmem : p ∈ s.readyQueue) : s.schedule.currentProcess = p ∨
    p ∈ s.schedule.readyQueue ∧ s.schedule.readyQueue.idxOf p < s.readyQueue.idxOf p := by
  unfold SchedState.schedule
  cases hqueue : s.readyQueue with
  | nil =>
    rw [hqueue] at hmem
    cases hmem
  | cons r ready =>
    rw [hqueue] at hmem
    by_cases hr : r = p
    · exact Or.inl hr
    have hready : p ∈ ready := List.mem_of_ne_of_mem (Ne.symm hr) hmem
    refine Or.inr ?_
    change p ∈ (if _ then ready else ready ++ [s.currentProcess]) ∧
      (if _ then ready else ready ++ [s.currentProcess]).idxOf p < _
    rw [List.idxOf_cons_ne _ hr]
    split
    · exact ⟨hready, Nat.lt_succ_self _⟩
    · rw [List.idxOf_append_of_mem hready]
      exact ⟨List.mem_append_left _ hready, Nat.lt_succ_self _⟩

/-- No step but a stop signal of its own takes a process out of the queue or puts it back. -/
theorem step_advances {a : SchedAction} (hmem : p ∈ s.readyQueue) (hcur : s.currentProcess ≠ p)
    (ha : a ≠ .stop p) (hstep : s.step a = some t) : Advances p s t := by
  have hrefl : Advances p s s := Advances.refl hmem
  cases a with
  | create q u =>
    rw [SchedState.step] at hstep
    split at hstep
    · rw [← Option.some.inj hstep]
      apply Advances.addProcess
      apply Advances.addThread
      exact hrefl
    · cases hstep
  | sleep status =>
    change s.sleep status = some t at hstep
    unfold SchedState.sleep at hstep
    split at hstep
    · cases hstep
    · rw [← Option.some.inj hstep]
      apply Advances.removeThread
      · exact hrefl
      · exact hcur
  | wake q u =>
    rw [← Option.some.inj hstep]
    exact hrefl.addThread q u
  | removeThread q u =>
    rw [← Option.some.inj hstep]
    exact hrefl.removeThread hcur q u
  | mark u status =>
    rw [← Option.some.inj hstep]
    exact hrefl
  | stop q =>
    have hq : q ≠ p := fun he => ha (by rw [he])
    rw [← Option.some.inj hstep]
    unfold SchedState.stopProcess
    split
    · apply Advances.removeProcess
      · exact hrefl
      · exact hq
    · exact hrefl
  | kill q u =>
    rw [← Option.some.inj hstep]
    unfold SchedState.killProcess
    split
    · exact hrefl
    · apply Advances.addThread
      exact hrefl
  | cont q =>
    rw [← Option.some.inj hstep]
    unfold SchedState.continueProcess
    split
    · exact hrefl.addProcess q
    · exact hrefl
  | exit parent =>
    change s.exitProcess parent = some t at hstep
    unfold SchedState.exitProcess at hstep
    dsimp only at hstep
    split at hstep
    · cases hstep
    · split at hstep
      · rw [← Option.some.inj hstep]
        apply Advances.removeProcess
        · exact hrefl
        · exact hcur
      · obtain ⟨u, hu, ht⟩ := Option.map_eq_some_iff.mp hstep
        rw [← ht]
        apply Advances.removeProcess _ hcur
        unfold SchedState.wakeParent at hu
        split at hu
        · rw [← Option.some.inj hu]
          exact hrefl
        · split at hu
          · rw [← Option.some.inj hu]
            apply Advances.addThread
            exact hrefl
          · cases hu
  | tick =>
    rw [← Option.some.inj hstep]
    exact (schedule_advances hmem).imp id fun h => ⟨h.1, h.2.le⟩

/-- The place in the queue bounds the ticks before a process is current. -/
theorem isRanking_idxOf (p : ℕ) : IsRanking SchedState.step (fun s => p ∈ s.readyQueue)
    (fun s => s.currentProcess = p) (fun a => a ≠ .stop p) (fun a => a = .tick)
    (fun s => s.readyQueue.idxOf p) where
  keeps hmem hcur ha hstep := step_advances hmem hcur (of_decide_eq_true ha) hstep
  drops hmem _ _ hstep htick := by
    rw [of_decide_eq_true htick] at hstep
    rw [← Option.some.inj hstep]
    exact (schedule_advances hmem).imp id And.right

/-- A process that waits, and that no signal stops, is current after the ticks that its place
takes, and one more. -/
theorem current_of_ticks {l : List SchedAction} (hmem : p ∈ s.readyQueue)
    (hrun : run SchedState.step s l = some t) (hstop : .stop p ∉ l)
    (hticks : s.readyQueue.idxOf p < l.count .tick) :
    Visits SchedState.step (fun u => u.currentProcess = p) s l := by
  apply (isRanking_idxOf p).visits hmem hrun
  · intro a ha
    apply decide_eq_true
    rintro rfl
    exact hstop ha
  · have hcount : l.countP (fun a => decide (a = .tick)) = l.count .tick :=
      List.countP_congr fun a _ => by simp
    rw [hcount]
    exact hticks

end SchedState

end VkKernel.Tasking
