import VkKernel.Lib.Trace
import VkKernel.Mutex

/-!
# Waiting for a mutex

Processes that lock a mutex with `while(mutex_lock(m) != ERROR_NONE) mutex_wait(m)` and
unlock it again, with a switch possible between any two calls. The element of a new
entry of the waiting list gets the thread in the place of the process, and its second
word is what the memory held before.
-/

namespace VkKernel
open Trace

/-- The active thread of each process. Processes and threads are structures of their
own, named by their addresses. -/
structure ActiveThreads where
  thread : ℕ → ℕ
  thread_ne : ∀ p, thread p ≠ p

inductive LockStage
  | idle
  | refused
  | asleep
  | holding
deriving DecidableEq, Repr

/-- `elements` are the elements of the entries of the waiting list. `passed` and
`longest` are ghost state: what `mutex_unlock` has passed to `scheduler_add_thread`, and
the process that had waited longest each time, with its thread. -/
structure LockRun where
  mutex : Mutex
  elements : List (ℕ × ℕ)
  stage : ℕ → LockStage
  passed : List (ℕ × ℕ)
  longest : List (ℕ × ℕ)

/-- `wait p word` is the call of `mutex_wait` whose element has `word` as its second
word. -/
inductive LockCall
  | lock (p : ℕ)
  | wait (p word : ℕ)
  | unlock (p : ℕ)
deriving DecidableEq, Repr

namespace LockRun

/-- `scheduler_add_thread` wakes a process if the pair is the process and its thread. -/
def wake (T : ActiveThreads) (e : ℕ × ℕ) (stage : ℕ → LockStage) : ℕ → LockStage := fun p =>
  if stage p = .asleep ∧ (p, T.thread p) = e then .idle else stage p

/-- The mutex is unlocked, and the first entry is taken off the waiting list. -/
def unlock (T : ActiveThreads) (p : ℕ) (s : LockRun) : LockRun :=
  let t := { s with
    mutex := (mutexUnlock p s.mutex).2
    stage := Function.update s.stage p .idle }
  match s.mutex.waiting, s.elements with
  | q :: _, e :: elements =>
    { t with
      elements := elements
      stage := wake T e t.stage
      passed := s.passed ++ [e]
      longest := s.longest ++ [(q, T.thread q)] }
  | _, _ => t

def step (T : ActiveThreads) (s : LockRun) : LockCall → Option LockRun
  | .lock p =>
    if s.stage p = .idle then
      some { s with
        mutex := (mutexLock p s.mutex).2
        stage := Function.update s.stage p
          (if (mutexLock p s.mutex).1 = .none then .holding else .refused) }
    else none
  | .wait p word =>
    if s.stage p = .refused then
      some { s with
        mutex := mutexWait p s.mutex
        elements := s.elements ++ [(T.thread p, word)]
        stage := Function.update s.stage p .asleep }
    else none
  | .unlock p => if s.stage p = .holding then some (s.unlock T p) else none

/-- Nobody sleeps at an unlocked mutex, and all who were woken had waited longest. -/
def Orderly (s : LockRun) : Prop :=
  (s.mutex.lockedBy = none → s.mutex.waiting = []) ∧ s.passed = s.longest

/-- A process goes to sleep while the mutex is locked, and unlocks it while nobody
waits. -/
def Careful (s : LockRun) : LockCall → Prop
  | .lock _ => True
  | .wait _ _ => s.mutex.lockedBy ≠ none
  | .unlock _ => s.mutex.waiting = []

instance (s : LockRun) : (a : LockCall) → Decidable (s.Careful a)
  | .lock _ => inferInstanceAs (Decidable True)
  | .wait _ _ => inferInstanceAs (Decidable (_ ≠ _))
  | .unlock _ => inferInstanceAs (Decidable (_ = _))

structure Inv (T : ActiveThreads) (s : LockRun) : Prop where
  orderly : s.Orderly
  elements : s.elements.map Prod.fst = s.mutex.waiting.map T.thread
  holding : ∀ p, s.stage p = .holding → s.mutex.lockedBy = some p

variable {T : ActiveThreads} {s s' : LockRun}

theorem Inv.lock {p : ℕ} (h : s.Inv T) (hs : s.step T (.lock p) = some s') : s'.Inv T := by
  unfold step at hs
  dsimp only at hs
  split at hs
  · rw [Option.some.injEq] at hs
    subst hs
    have hstage : ∀ {x : LockStage} {q : ℕ}, Function.update s.stage p x q = .holding →
        q ≠ p → s.mutex.lockedBy = some q := by
      intro x q hq hqp
      rw [Function.update_of_ne hqp] at hq
      exact h.holding q hq
    rcases mutexLock_cases p s.mutex with ⟨hown, heq⟩ | ⟨hown, hother, heq⟩ | ⟨hfree, heq⟩
    · rw [heq]
      refine ⟨h.orderly, h.elements, fun q hq => ?_⟩
      by_cases hqp : q = p
      · rw [hqp]
        exact hown
      · exact hstage hq hqp
    · rw [heq]
      refine ⟨h.orderly, h.elements, fun q hq => hstage hq ?_⟩
      rintro rfl
      simp at hq
    · rw [heq]
      refine ⟨⟨fun hnone => absurd hnone (by simp), h.orderly.2⟩, h.elements, fun q hq => ?_⟩
      by_cases hqp : q = p
      · rw [hqp]
      · rw [hstage hq hqp] at hfree
        cases hfree
  · cases hs

theorem step_wait_eq {p word : ℕ} (hs : s.step T (.wait p word) = some s') :
    s' = { s with
      mutex := mutexWait p s.mutex
      elements := s.elements ++ [(T.thread p, word)]
      stage := Function.update s.stage p .asleep } := by
  unfold step at hs
  dsimp only at hs
  split at hs
  · exact (Option.some.inj hs).symm
  · cases hs

theorem Inv.wait {p word : ℕ} (h : s.Inv T) (hc : s.mutex.lockedBy ≠ none)
    (hs : s.step T (.wait p word) = some s') : s'.Inv T := by
  rw [step_wait_eq hs]
  refine ⟨⟨fun hnone => absurd hnone hc, h.orderly.2⟩, ?_, fun q hq => ?_⟩
  · change (s.elements ++ [(T.thread p, word)]).map Prod.fst = (s.mutex.waiting ++ [p]).map T.thread
    rw [List.map_append, List.map_append, h.elements]
    rfl
  · have hqp : q ≠ p := by
      rintro rfl
      simp at hq
    change Function.update s.stage p .asleep q = .holding at hq
    rw [Function.update_of_ne hqp] at hq
    exact h.holding q hq

theorem step_unlock_eq {p : ℕ} (h : s.Inv T) (hs : s.step T (.unlock p) = some s') :
    s' = s.unlock T p ∧ s.stage p = .holding ∧
      (mutexUnlock p s.mutex).2 = { lockedBy := none, waiting := s.mutex.waiting.tail } := by
  unfold step at hs
  dsimp only at hs
  split at hs
  · rename_i hhold
    refine ⟨(Option.some.inj hs).symm, hhold, ?_⟩
    unfold mutexUnlock
    rw [if_neg (not_not.mpr (h.holding p hhold))]
  · cases hs

theorem Inv.unlock {p : ℕ} (h : s.Inv T) (hc : s.mutex.waiting = [])
    (hs : s.step T (.unlock p) = some s') : s'.Inv T := by
  obtain ⟨rfl, hhold, hmutex⟩ := step_unlock_eq h hs
  unfold LockRun.unlock
  dsimp only
  rw [hmutex, hc]
  refine ⟨⟨fun _ => rfl, h.orderly.2⟩, ?_, fun q hq => ?_⟩
  · rw [h.elements, hc]
    rfl
  · -- the process that unlocks was the one that held the mutex
    have hqp : q ≠ p := by
      rintro rfl
      simp at hq
    change Function.update s.stage p .idle q = .holding at hq
    rw [Function.update_of_ne hqp] at hq
    have hsame := (h.holding q hq).symm.trans (h.holding p hhold)
    exact absurd (Option.some.inj hsame) hqp

theorem Inv.step {a : LockCall} (h : s.Inv T) (hc : s.Careful a) (hs : s.step T a = some s') :
    s'.Inv T := by
  cases a with
  | lock p => exact h.lock hs
  | wait p word => exact h.wait hc hs
  | unlock p => exact h.unlock hc hs

/-- A process that waits at an unlocked mutex sleeps there, and the first entry does not
hold a process and its thread. -/
theorem Inv.not_orderly {a : LockCall} (h : s.Inv T) (hc : ¬s.Careful a)
    (hs : s.step T a = some s') : ¬s'.Orderly := by
  cases a with
  | lock p => exact absurd trivial hc
  | wait p word =>
    have hfree : s.mutex.lockedBy = none := not_not.mp hc
    rw [step_wait_eq hs]
    intro ho
    have hnil : s.mutex.waiting ++ [p] = [] := ho.1 hfree
    simp at hnil
  | unlock p =>
    obtain ⟨rfl, hhold, hmutex⟩ := step_unlock_eq h hs
    have helements := h.elements
    obtain ⟨q, waiting, hwaiting⟩ := List.exists_cons_of_ne_nil (show s.mutex.waiting ≠ [] from hc)
    cases hel : s.elements with
    | nil =>
      rw [hel, hwaiting] at helements
      cases helements
    | cons e elements =>
      rw [hel, hwaiting, List.map_cons, List.map_cons, List.cons.injEq] at helements
      unfold LockRun.unlock
      rw [hwaiting, hel]
      intro ho
      have hpassed : s.passed ++ [e] = s.longest ++ [(q, T.thread q)] := ho.2
      rw [h.orderly.2, List.append_cancel_left_eq, List.cons.injEq] at hpassed
      rw [hpassed.1] at helements
      exact T.thread_ne q helements.1.symm

end LockRun

/-- Nobody has called yet. -/
structure LockRun.Fresh (s : LockRun) : Prop where
  lockedBy : s.mutex.lockedBy = none
  waiting : s.mutex.waiting = []
  elements : s.elements = []
  stage : ∀ p, s.stage p = .idle
  logs : s.passed = s.longest

theorem LockRun.Fresh.inv {T : ActiveThreads} {s : LockRun} (h : s.Fresh) : s.Inv T where
  orderly := ⟨fun _ => h.waiting, h.logs⟩
  elements := by rw [h.elements, h.waiting]; rfl
  holding p hp := by
    rw [h.stage p] at hp
    cases hp

/-- The states of a run are orderly if and only if in all its steps processes wait only
while the mutex is locked and unlock it only while nobody waits. -/
theorem mutex_wait_orderly_iff (T : ActiveThreads) (s : LockRun) (h : s.Fresh) (l : List LockCall) :
    Always (LockRun.step T) LockRun.Orderly s l ↔
      AllSteps (LockRun.step T) LockRun.Careful s l :=
  always_iff_allSteps (J := LockRun.Inv T) (fun _ h => h.orderly) (fun _ _ _ h hc hs => h.step hc hs)
    (fun _ _ _ h hc hs => h.not_orderly hc hs) h.inv l

/-- Process 1 has thread 1001 and so on. -/
def threadsAbove : ActiveThreads := ⟨fun p => p + 1000, fun p => by omega⟩

def lockStart : LockRun := ⟨⟨none, []⟩, [], fun _ => .idle, [], []⟩

/-- Two processes lock the mutex one after the other. -/
theorem mutex_wait_orderly_in_turn :
    Always (LockRun.step threadsAbove) LockRun.Orderly lockStart
      [.lock 1, .unlock 1, .lock 2, .unlock 2] := by
  refine (mutex_wait_orderly_iff threadsAbove lockStart ⟨rfl, rfl, rfl, fun _ => rfl, rfl⟩ _).mpr ?_
  exact .cons rfl trivial (.cons rfl rfl (.cons rfl trivial (.cons rfl rfl trivial)))

/-- Process 2 waits while process 1 holds the mutex: `scheduler_add_thread` is called
with its thread as the process. -/
theorem mutex_wait_wakes_other :
    ∃ s, run (LockRun.step threadsAbove) lockStart [.lock 1, .lock 2, .wait 2 0, .unlock 1] = some s ∧
      s.longest = [(2, 1002)] ∧ s.passed = [(1002, 0)] ∧ s.stage 2 = .asleep ∧ ¬s.Orderly :=
  ⟨_, rfl, rfl, rfl, rfl, fun h => absurd h.2 (by decide)⟩

/-- Process 1 unlocks the mutex after `mutex_lock` has failed in process 2 and before
`mutex_wait`: process 2 sleeps at an unlocked mutex. -/
theorem mutex_wait_sleeps_at_unlocked :
    ∃ s, run (LockRun.step threadsAbove) lockStart [.lock 1, .lock 2, .unlock 1, .wait 2 0] = some s ∧
      s.mutex.lockedBy = none ∧ s.stage 2 = .asleep ∧ ¬s.Orderly :=
  ⟨_, rfl, rfl, rfl, fun h => absurd (h.1 rfl) (by decide)⟩

end VkKernel
