import VkKernel.Sleep

/-!
# Sleep times

Threads sleep for a time, and every `scheduler_sleep_update` stands for 55 ms. An
entry of `wait_list` keeps the wait time of its thread and not what is left of it
behind the entries before, so only a thread that sleeps alone is woken in time.
-/

namespace VkKernel.Tasking
open Trace

/-- `updates` counts the calls of `scheduler_sleep_update`. `call` is ghost state: the
wait time of the last call of a thread, and the updates that were before it. -/
structure SleepClock where
  sleep : SleepState
  updates : ℕ
  call : ℕ → Option (ℕ × ℕ)

/-- `scheduler_wait_thread` with `SLEEP_TIME`, and `scheduler_sleep_update`. -/
inductive TimeAction
  | wait (process thread sleepData waitTime a : ℕ)
  | update

namespace SleepClock

/-- `sleep_data` and `wait_time` are 16 bits wide. -/
def step (s : SleepClock) : TimeAction → Option SleepClock
  | .wait process thread sleepData waitTime a =>
    if sleepData < 2 ^ 16 ∧ waitTime < 2 ^ 16 then
      (s.sleep.step (.waitThread process thread .time sleepData waitTime a)).map fun t =>
        { s with
          sleep := t
          call := Function.update s.call thread (some (waitTime, s.updates)) }
    else none
  | .update =>
    (s.sleep.step .sleepUpdate).map fun t => { s with sleep := t, updates := s.updates + 1 }

/-- Every thread that sleeps for a time runs again from the first update on at which
the time is over, and not before. -/
def Honoured (s : SleepClock) : Prop :=
  ∀ t w c, s.call t = some (w, c) → 0 < w →
    (s.sleep.threads t = .running ↔ w ≤ 55 * (s.updates - c))

/-- A thread goes to sleep for a time when no other one does. -/
def Careful (s : SleepClock) : TimeAction → Prop
  | .wait _ _ _ waitTime _ => 0 < waitTime → s.sleep.waitList = 0
  | .update => True

/-- Nobody has called yet. -/
structure Fresh (s : SleepClock) : Prop where
  waitList : s.sleep.waitList = 0
  call : ∀ t, s.call t = none

/-- The entry `a` is the only one, and its time is what is left of the wait time. -/
structure Alone (s : SleepClock) (a w c : ℕ) : Prop where
  waitList : s.sleep.waitList = a
  ne_zero : a ≠ 0
  used : a ∈ s.sleep.used
  next : s.sleep.links.next a = 0
  call : s.call (s.sleep.threadOf a) = some (w, c)
  asleep : s.sleep.threads (s.sleep.threadOf a) ≠ .running
  le_updates : c ≤ s.updates
  time_pos : 0 < (s.sleep.element a).time
  time : (s.sleep.element a).time + 55 * (s.updates - c) = w

/-- The calls of all threads but one are over. -/
def Over (s : SleepClock) (P : ℕ → Prop) : Prop :=
  ∀ t w c, s.call t = some (w, c) → 0 < w → ¬P t →
    s.sleep.threads t = .running ∧ w ≤ 55 * (s.updates - c)

/-- The invariant of careful runs. -/
def Inv (s : SleepClock) : Prop :=
  s.sleep.waitList = 0 ∧ s.Over (fun _ => False) ∨
    ∃ a w c, s.Alone a w c ∧ s.Over fun t => t = s.sleep.threadOf a

variable {s s' : SleepClock}

theorem Fresh.inv (h : s.Fresh) : s.Inv := by
  refine Or.inl ⟨h.waitList, fun t w c hcall => ?_⟩
  rw [h.call t] at hcall
  cases hcall

theorem Inv.honoured (h : s.Inv) : s.Honoured := by
  intro t w c hcall hw
  cases h with
  | inl h =>
    have hover := h.2 t w c hcall hw not_false
    exact iff_of_true hover.1 hover.2
  | inr h =>
    obtain ⟨a, v, d, halone, hover⟩ := h
    by_cases ht : t = s.sleep.threadOf a
    · have hsame : some (w, c) = some (v, d) := by
        rw [← hcall, ht, halone.call]
      rw [Option.some.injEq, Prod.mk.injEq] at hsame
      have hpos := halone.time_pos
      have htime := halone.time
      refine iff_of_false ?_ ?_
      · rw [ht]
        exact halone.asleep
      · rw [hsame.1, hsame.2]
        omega
    · have h := hover t w c hcall hw ht
      exact iff_of_true h.1 h.2

/-! ## `scheduler_wait_thread` -/

theorem waitThread_time {s : SleepState} {process thread sleepData waitTime a : ℕ}
    (hw : 0 < waitTime) : s.waitThread process thread .time sleepData waitTime a =
      s.insertEntry a ⟨process, waitTime, thread⟩ := by
  have hirq : ¬(sleepData ≤ 20 ∧ SleepReason.time = .waitIrq) := by simp
  unfold SleepState.waitThread
  rw [if_pos ⟨hw.ne', Or.inr rfl⟩]
  simp only [if_neg hirq, Option.map_id']

theorem waitThread_zero {s : SleepState} {process thread sleepData a : ℕ} :
    s.waitThread process thread .time sleepData 0 a = some s := by
  unfold SleepState.waitThread
  simp

/-- What a call does, whatever the list. -/
theorem step_wait {process thread sleepData waitTime a : ℕ}
    (h : s.step (.wait process thread sleepData waitTime a) = some s') :
    s.sleep.threads thread = .running ∧ a ≠ 0 ∧ a ∉ s.sleep.used ∧ s'.updates = s.updates ∧
      s'.call = Function.update s.call thread (some (waitTime, s.updates)) ∧
      (waitTime = 0 ∧ s'.sleep = s.sleep ∨
        0 < waitTime ∧ s.sleep.insertEntry a ⟨process, waitTime, thread⟩ = some s'.sleep) := by
  unfold SleepClock.step at h
  dsimp only at h
  split at h
  · rw [Option.map_eq_some_iff] at h
    obtain ⟨t, ht, rfl⟩ := h
    unfold SleepState.step at ht
    by_cases he : s.sleep.Enabled (.waitThread process thread .time sleepData waitTime a)
    · rw [if_pos he] at ht
      dsimp only at ht
      refine ⟨he.1, he.2.1, he.2.2, rfl, rfl, ?_⟩
      rcases Nat.eq_zero_or_pos waitTime with rfl | hw
      · rw [waitThread_zero, Option.some.injEq] at ht
        exact Or.inl ⟨rfl, ht.symm⟩
      · rw [waitThread_time hw] at ht
        exact Or.inr ⟨hw, ht⟩
    · rw [if_neg he] at ht
      cases ht
  · cases h

/-- A call that does not put an entry into the list. -/
theorem Over.of_call {P : ℕ → Prop} {thread w : ℕ} (h : s.Over P)
    (hcall : s'.call = Function.update s.call thread (some (w, s.updates)))
    (hupdates : s'.updates = s.updates) (hw : w = 0 ∨ P thread)
    (hthreads : ∀ t, ¬P t → s'.sleep.threads t = s.sleep.threads t) : s'.Over P := by
  intro t v c ht hv hP
  have hne : t ≠ thread := by
    rintro rfl
    rw [hcall, Function.update_self, Option.some.injEq, Prod.mk.injEq] at ht
    cases hw with
    | inl hw => omega
    | inr hw => exact hP hw
  rw [hcall, Function.update_of_ne hne] at ht
  rw [hthreads t hP, hupdates]
  exact h t v c ht hv hP

theorem Over.mono {P Q : ℕ → Prop} (h : s.Over P) (hPQ : ∀ t, P t → Q t) : s.Over Q :=
  fun t w c hcall hw hQ => h t w c hcall hw fun hP => hQ (hPQ t hP)

theorem insertEntry_nil {s : SleepState} {a : ℕ} {e : WaitElement} (h : s.waitList = 0) :
    s.insertEntry a e = some { s with
      waitList := a
      links := ⟨Function.update s.links.next a 0, Function.update s.links.prev a 0⟩
      element := Function.update s.element a e
      used := insert a s.used
      threads := Function.update s.threads e.thread .asleepTime
      timed := Function.update s.timed e.thread true } := by
  unfold SleepState.insertEntry
  rw [SleepState.findPlace, if_pos (Or.inl h), h]
  rfl

theorem Inv.wait {process thread sleepData waitTime a : ℕ} (h : s.Inv)
    (hc : s.Careful (.wait process thread sleepData waitTime a))
    (hs : s.step (.wait process thread sleepData waitTime a) = some s') : s'.Inv := by
  obtain ⟨hrun, ha, hnew, hupdates, hcall, hzero | ⟨hw, hinsert⟩⟩ := step_wait hs
  · obtain ⟨rfl, hsleep⟩ := hzero
    unfold Inv
    rw [hsleep]
    have hthreads : ∀ t, s'.sleep.threads t = s.sleep.threads t := by
      intro t
      rw [hsleep]
    refine h.imp (fun h => ⟨h.1, h.2.of_call hcall hupdates (Or.inl rfl) fun t _ => hthreads t⟩) ?_
    rintro ⟨b, v, c, halone, hover⟩
    refine ⟨b, v, c, ?_, hover.of_call hcall hupdates (Or.inl rfl) fun t _ => hthreads t⟩
    have hne : s.sleep.threadOf b ≠ thread := fun he => halone.asleep (he ▸ hrun)
    have hcall' : s'.call (s.sleep.threadOf b) = some (v, c) := by
      rw [hcall, Function.update_of_ne hne, halone.call]
    exact ⟨hsleep ▸ halone.waitList, halone.ne_zero, hsleep ▸ halone.used, hsleep ▸ halone.next,
      hsleep ▸ hcall', hsleep ▸ halone.asleep, hupdates ▸ halone.le_updates,
      hsleep ▸ halone.time_pos, by rw [hsleep, hupdates]; exact halone.time⟩
  · have hnil := hc hw
    have hover : s.Over fun _ => False := by
      cases h with
      | inl h => exact h.2
      | inr h =>
        obtain ⟨b, v, c, halone, -⟩ := h
        exact absurd (halone.waitList.symm.trans hnil) halone.ne_zero
    rw [insertEntry_nil hnil, Option.some.injEq] at hinsert
    have hthread : s'.sleep.threadOf a = thread := by
      rw [← hinsert]
      simp [SleepState.threadOf]
    refine Or.inr ⟨a, waitTime, s.updates, ?_, ?_⟩
    · constructor
      · rw [← hinsert]
      · exact ha
      · rw [← hinsert]
        exact Finset.mem_insert_self a _
      · rw [← hinsert]
        exact Function.update_self ..
      · rw [hthread, hcall, Function.update_self]
      · rw [hthread, ← hinsert]
        simp
      · exact hupdates.ge
      · rw [← hinsert]
        simpa using hw
      · rw [← hinsert, hupdates]
        simp
    · rw [hthread]
      refine (hover.mono fun t => False.elim).of_call hcall hupdates (Or.inr rfl) fun t ht => ?_
      rw [← hinsert]
      exact Function.update_of_ne ht ..

/-! ## `scheduler_sleep_update` -/

/-- The entry `a` is the first one and has time left. -/
theorem sleepUpdate_of_gt {s : SleepState} {a : ℕ} (h : s.waitList = a) (ha : a ≠ 0)
    (ht : 55 < (s.element a).time) : s.sleepUpdate = some { s with
      element := Function.update s.element a
        { s.element a with time := (s.element a).time - 55 } } := by
  unfold SleepState.sleepUpdate
  rw [h, if_neg ha]
  exact if_pos ht

/-- The time of the entry `a` is over, and the one behind it has time left. -/
theorem sleepUpdate_of_le {s : SleepState} {a : ℕ} (h : s.waitList = a) (ha : a ≠ 0)
    (ht : (s.element a).time ≤ 55)
    (hnext : s.links.next a = 0 ∨ (s.element (s.links.next a)).time ≠ 0) :
    s.sleepUpdate = some { s.wake (s.threadOf a) with
      waitList := s.links.next a
      used := s.used.erase a } := by
  unfold SleepState.sleepUpdate
  rw [h, if_neg ha]
  dsimp only
  rw [if_neg (Nat.not_lt.mpr ht), SleepState.wakeEntries]
  dsimp only
  by_cases hzero : s.links.next a = 0
  · rw [if_pos hzero]
    rfl
  · rw [if_neg hzero, if_neg (hnext.resolve_left hzero)]
    rfl

theorem step_update_of_sleepUpdate {t : SleepState} (h : s.sleep.sleepUpdate = some t) :
    s.step .update = some { s with sleep := t, updates := s.updates + 1 } := by
  have hstep : s.sleep.step .sleepUpdate = some t := by
    rw [SleepState.step, if_pos (show s.sleep.Enabled .sleepUpdate from trivial), h]
  rw [SleepClock.step, hstep]
  rfl

/-- Time goes on for the calls that are over. -/
theorem Over.of_update {P Q : ℕ → Prop} {t : SleepState} (h : s.Over P)
    (hthreads : ∀ x, s.sleep.threads x = .running → t.threads x = .running)
    (hQ : ∀ x w c, P x → ¬Q x → s.call x = some (w, c) →
      t.threads x = .running ∧ w ≤ 55 * (s.updates + 1 - c)) :
    ({ s with sleep := t, updates := s.updates + 1 } : SleepClock).Over Q := by
  intro x w c hcall hw hnot
  by_cases hP : P x
  · exact hQ x w c hP hnot hcall
  · have hover := h x w c hcall hw hP
    refine ⟨hthreads x hover.1, hover.2.trans ?_⟩
    dsimp only
    omega

theorem threads_wake {s : SleepState} {x t : ℕ} (h : s.threads x = .running) :
    (s.wake t).threads x = .running := by
  unfold SleepState.wake
  by_cases hx : x = t
  · rw [hx]
    exact Function.update_self ..
  · exact (Function.update_of_ne hx ..).trans h

theorem Inv.update (h : s.Inv) : ∃ s', s.step .update = some s' ∧ s'.Inv := by
  rcases h with ⟨hnil, hover⟩ | ⟨a, w, c, halone, hover⟩
  · have hsame : s.sleep.sleepUpdate = some s.sleep := if_pos hnil
    refine ⟨_, step_update_of_sleepUpdate hsame, Or.inl ⟨hnil, ?_⟩⟩
    exact hover.of_update (fun x hx => hx) fun x w c hx => hx.elim
  have hpos := halone.time_pos
  have htime := halone.time
  have hle := halone.le_updates
  by_cases hlong : 55 < (s.sleep.element a).time
  · have hstep := sleepUpdate_of_gt halone.waitList halone.ne_zero hlong
    refine ⟨_, step_update_of_sleepUpdate hstep, Or.inr ⟨a, w, c, ?_, ?_⟩⟩
    · have hthread : ∀ time, (Function.update s.sleep.element a
          { s.sleep.element a with time := time } a).thread = s.sleep.threadOf a := by
        intro time
        rw [Function.update_self]
        rfl
      refine ⟨halone.waitList, halone.ne_zero, halone.used, halone.next, ?_, ?_, ?_, ?_, ?_⟩
      · exact (congrArg s.call (hthread _)).trans halone.call
      · unfold SleepState.threadOf
        dsimp only
        rw [hthread]
        exact halone.asleep
      · exact Nat.le_succ_of_le hle
      · simp only [Function.update_self]
        omega
      · simp only [Function.update_self]
        omega
    · refine hover.of_update (fun x hx => hx) fun x v d hx hnot => absurd ?_ hnot
      rw [hx]
      simp [SleepState.threadOf]
  · have hstep := sleepUpdate_of_le halone.waitList halone.ne_zero (Nat.not_lt.mp hlong)
      (Or.inl halone.next)
    refine ⟨_, step_update_of_sleepUpdate hstep, Or.inl ⟨halone.next, ?_⟩⟩
    refine hover.of_update (fun x hx => threads_wake hx) fun x v d hx _ hcall => ?_
    rw [hx, halone.call, Option.some.injEq, Prod.mk.injEq] at hcall
    refine ⟨?_, ?_⟩
    · rw [hx]
      exact Function.update_self ..
    · omega

theorem Inv.step {a : TimeAction} (h : s.Inv) (hc : s.Careful a) (hs : s.step a = some s') :
    s'.Inv := by
  cases a with
  | wait process thread sleepData waitTime a => exact h.wait hc hs
  | update =>
    obtain ⟨t, ht, hinv⟩ := h.update
    rw [ht, Option.some.injEq] at hs
    exact hs ▸ hinv

/-! ## A second sleeper -/

/-- The thread `t` sleeps and has no entry in the list, which ends at its first entry. -/
structure Lost (s : SleepClock) (t w c : ℕ) : Prop where
  asleep : s.sleep.threads t ≠ .running
  call : s.call t = some (w, c)
  next : s.sleep.waitList ≠ 0 →
    s.sleep.links.next s.sleep.waitList = 0 ∧ s.sleep.threadOf s.sleep.waitList ≠ t

theorem Lost.update {t w c : ℕ} (h : s.Lost t w c) :
    ∃ s', s.step .update = some s' ∧ s'.Lost t w c ∧ s'.updates = s.updates + 1 := by
  by_cases hnil : s.sleep.waitList = 0
  · have hsame : s.sleep.sleepUpdate = some s.sleep := if_pos hnil
    exact ⟨_, step_update_of_sleepUpdate hsame, ⟨h.asleep, h.call, h.next⟩, rfl⟩
  obtain ⟨hnext, hne⟩ := h.next hnil
  by_cases hlong : 55 < (s.sleep.element s.sleep.waitList).time
  · have hstep := sleepUpdate_of_gt rfl hnil hlong
    refine ⟨_, step_update_of_sleepUpdate hstep, ⟨h.asleep, h.call, fun _ => ⟨hnext, ?_⟩⟩, rfl⟩
    simpa [SleepState.threadOf] using hne
  · have hstep := sleepUpdate_of_le rfl hnil (Nat.not_lt.mp hlong) (Or.inl hnext)
    refine ⟨_, step_update_of_sleepUpdate hstep, ⟨?_, h.call, fun hne => absurd hnext hne⟩, rfl⟩
    refine (Function.update_of_ne hne.symm ..).trans_ne h.asleep

theorem Lost.updates {t w c : ℕ} (h : s.Lost t w c) (n : ℕ) :
    ∃ s', run step s (List.replicate n .update) = some s' ∧ s'.Lost t w c ∧
      s'.updates = s.updates + n := by
  induction n generalizing s with
  | zero => exact ⟨s, rfl, h, rfl⟩
  | succ n ih =>
    obtain ⟨t, ht, hlost, hupdates⟩ := h.update
    obtain ⟨u, hu, hlost', hupdates'⟩ := ih hlost
    refine ⟨u, ?_, hlost', by omega⟩
    rw [List.replicate_succ, run, ht]
    exact hu

/-- The thread of `b` sleeps for `w` ms since `j` updates. Its entry is the last one of
two, or it became the first one after the call. -/
structure Late (s : SleepClock) (b w j : ℕ) : Prop where
  ne_zero : b ≠ 0
  asleep : s.sleep.threads (s.sleep.threadOf b) ≠ .running
  call : ∃ c, s.call (s.sleep.threadOf b) = some (w, c) ∧ s.updates = c + j
  next : s.sleep.links.next b = 0
  place : (∃ a, s.sleep.waitList = a ∧ a ≠ 0 ∧ a ≠ b ∧ s.sleep.links.next a = b ∧
      s.sleep.threadOf a ≠ s.sleep.threadOf b ∧ (s.sleep.element b).time = w) ∨
    s.sleep.waitList = b ∧ w + 55 ≤ (s.sleep.element b).time + 55 * j

theorem Late.update {b w j : ℕ} (h : s.Late b w j) (hj : 55 * j < w) :
    ∃ s', s.step .update = some s' ∧ s'.Late b w (j + 1) := by
  obtain ⟨c, hcall, hupdates⟩ := h.call
  have hsucc : s.updates + 1 = c + (j + 1) := by omega
  rcases h.place with ⟨a, hlist, ha, hab, hnext, hthread, htime⟩ | ⟨hlist, htime⟩
  · by_cases hlong : 55 < (s.sleep.element a).time
    · have hstep := sleepUpdate_of_gt hlist ha hlong
      have hb : ∀ e, Function.update s.sleep.element a e b = s.sleep.element b := fun e =>
        Function.update_of_ne hab.symm ..
      refine ⟨_, step_update_of_sleepUpdate hstep, ⟨h.ne_zero, ?_, ⟨c, ?_, hsucc⟩, h.next,
        Or.inl ⟨a, hlist, ha, hab, hnext, ?_, ?_⟩⟩⟩
      · simpa only [SleepState.threadOf, hb] using h.asleep
      · simpa only [SleepState.threadOf, hb] using hcall
      · simpa only [SleepState.threadOf, hb, Function.update_self] using hthread
      · simpa only [hb] using htime
    · have hw : (s.sleep.element (s.sleep.links.next a)).time ≠ 0 := by
        rw [hnext, htime]
        omega
      have hstep := sleepUpdate_of_le hlist ha (Nat.not_lt.mp hlong) (Or.inr hw)
      refine ⟨_, step_update_of_sleepUpdate hstep, ⟨h.ne_zero, ?_, ⟨c, hcall, hsucc⟩, h.next,
        Or.inr ⟨hnext, ?_⟩⟩⟩
      · exact (Function.update_of_ne hthread.symm ..).trans_ne h.asleep
      · change w + 55 ≤ (s.sleep.element b).time + 55 * (j + 1)
        omega
  · -- its time is not over at this update
    have hlong : 55 < (s.sleep.element b).time := by omega
    have hstep := sleepUpdate_of_gt hlist h.ne_zero hlong
    refine ⟨_, step_update_of_sleepUpdate hstep, ⟨h.ne_zero, ?_, ⟨c, ?_, hsucc⟩, h.next,
      Or.inr ⟨hlist, ?_⟩⟩⟩
    · simpa only [SleepState.threadOf, Function.update_self] using h.asleep
    · simpa only [SleepState.threadOf, Function.update_self] using hcall
    · simp only [Function.update_self]
      omega

theorem Late.updates {b w j : ℕ} (h : s.Late b w j) (n : ℕ) (hn : 55 * (j + n) < w + 55) :
    ∃ s', run step s (List.replicate n .update) = some s' ∧ s'.Late b w (j + n) := by
  induction n generalizing s j with
  | zero => exact ⟨s, rfl, h⟩
  | succ n ih =>
    obtain ⟨t, ht, hlate⟩ := h.update (by omega)
    obtain ⟨u, hu, hlate'⟩ := ih hlate (by omega)
    refine ⟨u, ?_, by rwa [Nat.add_right_comm] at hlate'⟩
    rw [List.replicate_succ, run, ht]
    exact hu

/-- The place of a second entry: in front of the first one, which is lost, or behind. -/
theorem findPlace_alone {s : SleepState} {a w : ℕ} (hlist : s.waitList = a) (ha : a ≠ 0)
    (hused : a ∈ s.used) (hnext : s.links.next a = 0) (hw : 0 < w) :
    s.findPlace (s.used.card + 1) s.waitList 0 w =
      some (if w < (s.element a).time then (a, 0) else (0, a)) := by
  obtain ⟨fuel, hfuel⟩ := Nat.exists_eq_succ_of_ne_zero (Finset.card_pos.mpr ⟨a, hused⟩).ne'
  have hcont : ¬(a = 0 ∨ w = 0) := by omega
  rw [SleepState.findPlace, hlist, if_neg hcont]
  by_cases hlt : w < (s.element a).time
  · rw [if_pos hlt, if_pos hlt]
  · rw [if_neg hlt, if_neg hlt, hfuel, SleepState.findPlace, if_pos (Or.inl hnext), hnext]

/-- After a call while another thread sleeps, and enough updates, one of the two is
not woken in time. -/
theorem Alone.not_honoured {a w c process thread sleepData waitTime b : ℕ} (h : s.Alone a w c)
    (hw : 0 < waitTime) (hs : s.step (.wait process thread sleepData waitTime b) = some s') :
    ∃ n s'', run step s' (List.replicate n .update) = some s'' ∧ ¬s''.Honoured := by
  obtain ⟨hrun, hb, hnew, hupdates, hcall, ⟨hzero, -⟩ | ⟨-, hinsert⟩⟩ := step_wait hs
  · omega
  have hab : a ≠ b := fun he => hnew (he ▸ h.used)
  have hthread : s.sleep.threadOf a ≠ thread := fun he => h.asleep (he ▸ hrun)
  have htime := h.time
  have hpos := h.time_pos
  have hle := h.le_updates
  have hplace := findPlace_alone h.waitList h.ne_zero h.used h.next hw
  unfold SleepState.insertEntry at hinsert
  dsimp only at hinsert
  rw [hplace] at hinsert
  by_cases hlt : waitTime < (s.sleep.element a).time
  · -- the entry of the first thread is dropped
    rw [if_pos hlt, Option.map_some, Option.some.injEq] at hinsert
    have hlost : s'.Lost (s.sleep.threadOf a) w c := by
      refine ⟨?_, ?_, fun _ => ?_⟩
      · rw [← hinsert]
        exact (Function.update_of_ne hthread ..).trans_ne h.asleep
      · rw [hcall, Function.update_of_ne hthread, h.call]
      · rw [← hinsert]
        simpa [SleepState.threadOf] using hthread.symm
    obtain ⟨u, hu, hlost', hn⟩ := hlost.updates w
    refine ⟨w, u, hu, fun hon => hlost'.asleep ?_⟩
    apply (hon _ w c hlost'.call (by omega)).mpr
    omega
  · rw [if_neg hlt, Option.map_some, Option.some.injEq] at hinsert
    have ha0 : ¬a = 0 := h.ne_zero
    have hlate : s'.Late b waitTime 0 := by
      have hthreadb : s'.sleep.threadOf b = thread := by
        rw [← hinsert]
        simp [SleepState.threadOf]
      have hthreada : s'.sleep.threadOf a = s.sleep.threadOf a := by
        rw [← hinsert]
        simp [SleepState.threadOf, hab]
      refine ⟨hb, ?_, ⟨s.updates, ?_, hupdates⟩, ?_, Or.inl ⟨a, ?_, ha0, hab, ?_, ?_, ?_⟩⟩
      · rw [hthreadb, ← hinsert]
        simp
      · rw [hthreadb, hcall, Function.update_self]
      · rw [← hinsert]
        simp [ha0]
      · rw [← hinsert]
        simp [ha0, h.waitList]
      · rw [← hinsert]
        simp [ha0, hab]
      · rw [hthreada, hthreadb]
        exact hthread
      · rw [← hinsert]
        simp
    -- the first update at which the time of the second thread is over
    obtain ⟨u, hu, hlate'⟩ := hlate.updates ((waitTime + 54) / 55) (by omega)
    refine ⟨_, u, hu, fun hon => hlate'.asleep ?_⟩
    obtain ⟨d, hd, hn⟩ := hlate'.call
    apply (hon _ waitTime d hd hw).mpr
    omega

end SleepClock

/-- In every run in which a thread goes to sleep only while no other thread sleeps for
a time, all sleep times are honoured. Any other call is followed, after enough updates,
by a state in which one is not. -/
theorem sleep_times_honoured_of_alone {s₀ s : SleepClock} (h₀ : s₀.Fresh)
    (h : Reach SleepClock.step SleepClock.Careful s₀ s) :
    s.Honoured ∧ ∀ a s', ¬s.Careful a → s.step a = some s' →
      ∃ n s'', run SleepClock.step s' (List.replicate n .update) = some s'' ∧ ¬s''.Honoured := by
  have hinv : s.Inv := Reach.invariant (fun t a u ht hc hu => ht.step hc hu) h₀.inv h
  refine ⟨hinv.honoured, fun a s' hcare hs' => ?_⟩
  cases a with
  | update => exact absurd trivial hcare
  | wait process thread sleepData waitTime a =>
    have hnot : 0 < waitTime ∧ s.sleep.waitList ≠ 0 := Classical.not_imp.mp hcare
    rcases hinv with ⟨hnil, -⟩ | ⟨b, w, c, halone, -⟩
    · exact absurd hnil hnot.2
    · exact halone.not_honoured hnot.1 hs'

/-- Nobody sleeps, and no update has been made. -/
def clockStart : SleepClock := ⟨nobodySleeps, 0, fun _ => none⟩

/-- Thread 1 sleeps for 100 ms, and is woken by the second update. -/
theorem sleep_times_honoured_alone :
    ∃ s, run SleepClock.step clockStart [.wait 7 1 0 100 16, .update, .update] = some s ∧
      s.call 1 = some (100, 0) ∧ s.Honoured := by
  have hfresh : clockStart.Fresh := ⟨rfl, fun _ => rfl⟩
  have hwait : clockStart.Careful (.wait 7 1 0 100 16) := fun _ => rfl
  have hupdate : ∀ s : SleepClock, s.Careful .update := fun _ => trivial
  refine ⟨_, rfl, by decide, (sleep_times_honoured_of_alone hfresh ?_).1⟩
  exact ((Reach.start.next hwait rfl).next (hupdate _) rfl).next (hupdate _) rfl

/-- Thread 1 sleeps for 50 ms and thread 2 for 60 ms: after two updates, 110 ms later,
thread 2 still sleeps. -/
theorem sleep_times_second_late :
    ∃ s, run SleepClock.step clockStart
        [.wait 7 1 0 50 16, .wait 8 2 0 60 32, .update, .update] = some s ∧
      s.call 2 = some (60, 0) ∧ s.updates = 2 ∧ s.sleep.threads 2 ≠ .running ∧ ¬s.Honoured := by
  have hasleep : ∀ s : SleepClock, s.call 2 = some (60, 0) → s.updates = 2 →
      s.sleep.threads 2 ≠ .running → ¬s.Honoured := by
    intro s hcall hupdates hne hon
    refine hne ((hon 2 60 0 hcall (by decide)).mpr ?_)
    rw [hupdates]
    decide
  refine ⟨_, rfl, by decide, by decide, by decide, hasleep _ (by decide) (by decide) (by decide)⟩

end VkKernel.Tasking
