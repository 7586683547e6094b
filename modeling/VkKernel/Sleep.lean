import VkKernel.Lib.LinkedList
import VkKernel.Scheduler

/-!
# Sleeping threads

`wait_list`, a doubly linked list of the threads that sleep for a time, and the
lists of the threads that wait for an IRQ. A thread that waits for an IRQ for at
most some time is in both. Entries of the list are named by their addresses, 0
being the null pointer.
-/

namespace VkKernel.Tasking
open LinkedList Trace

inductive SleepReason
  | waitIrq
  | paused
  | time
  | waitMutex
deriving DecidableEq, Repr

/-- The three words of an element of `wait_list`. -/
structure WaitElement where
  process : ℕ
  time : ℕ
  thread : ℕ

/-- The three words of an element of `irq_list`. -/
structure IrqElement where
  process : ℕ
  waitEntry : ℕ
  thread : ℕ

/-- `used` holds the entries that are allocated. `timed` is ghost state: the threads
that were put to sleep with a wait time and have not been woken. -/
structure SleepState where
  threads : ℕ → ThreadStatus
  waitList : ℕ
  links : Links ℕ
  element : ℕ → WaitElement
  irqList : ℕ → List IrqElement
  used : Finset ℕ
  timed : ℕ → Bool

namespace SleepState

/-- The loop of `scheduler_wait_thread` that looks for the place of a new entry; the
result is the entry behind it and the one before. -/
def findPlace (s : SleepState) : ℕ → ℕ → ℕ → ℕ → Option (ℕ × ℕ)
  | 0, _, _, _ => none
  | fuel + 1, ptr, last, cumulatedTime =>
    if ptr = 0 ∨ cumulatedTime = 0 then some (ptr, last)
    else if cumulatedTime < (s.element ptr).time then some (ptr, last)
    else s.findPlace fuel (s.links.next ptr) ptr (cumulatedTime - (s.element ptr).time)

/-- Put the entry `a` at its place. In front of the first entry it becomes the only
one, and the entry behind it keeps its back link. -/
def insertEntry (s : SleepState) (a : ℕ) (e : WaitElement) : Option SleepState :=
  (s.findPlace (s.used.card + 1) s.waitList 0 e.time).map fun (ptr, last) =>
    { s with
      waitList := if last = 0 then a else s.waitList
      links := if last = 0 then ⟨Function.update s.links.next a 0, Function.update s.links.prev a 0⟩
        else ⟨Function.update (Function.update s.links.next last a) a ptr,
          Function.update s.links.prev a last⟩
      element := Function.update s.element a e
      used := insert a s.used
      threads := Function.update s.threads e.thread .asleepTime
      timed := Function.update s.timed e.thread true }

/-- The entry of the thread in the list of the IRQ. -/
def registerIrq (s : SleepState) (irq : ℕ) (e : IrqElement) : SleepState :=
  { s with
    irqList := Function.update s.irqList irq (s.irqList irq ++ [e])
    threads := Function.update s.threads e.thread .asleepIrq }

/-- `scheduler_wait_thread`, with the address `a` of the new entry, if there is one. -/
def waitThread (s : SleepState) (process thread : ℕ) (reason : SleepReason)
    (sleepData waitTime a : ℕ) : Option SleepState :=
  if waitTime ≠ 0 ∧ (reason = .waitIrq ∨ reason = .time) then
    (s.insertEntry a ⟨process, waitTime, thread⟩).map fun s =>
      if sleepData ≤ 20 ∧ reason = .waitIrq then s.registerIrq sleepData ⟨process, a, thread⟩ else s
  else if sleepData ≤ 20 ∧ reason = .waitIrq then
    some (s.registerIrq sleepData ⟨process, 0, thread⟩)
  else some s

/-- What `scheduler_add_thread` does to the thread. -/
def wake (s : SleepState) (t : ℕ) : SleepState :=
  { s with
    threads := Function.update s.threads t .running
    timed := Function.update s.timed t false }

/-- The loop of `scheduler_sleep_update` from `ptr` on. -/
def wakeEntries (s : SleepState) : ℕ → ℕ → Option SleepState
  | 0, _ => none
  | fuel + 1, ptr =>
    let next := s.links.next ptr
    let t := { s.wake (s.element ptr).thread with
      waitList := next
      used := s.used.erase ptr }
    if next = 0 then some t
    else if (s.element next).time = 0 then t.wakeEntries fuel next
    else some t

/-- `scheduler_sleep_update` -/
def sleepUpdate (s : SleepState) : Option SleepState :=
  if s.waitList = 0 then some s
  else
    let e := s.element s.waitList
    if e.time > 55 then
      some { s with element := Function.update s.element s.waitList { e with time := e.time - 55 } }
    else s.wakeEntries (s.used.card + 1) s.waitList

/-- What `scheduler_irq_wakeup` does with the first element of the list. -/
def wakeFirst (s : SleepState) (e : IrqElement) : SleepState :=
  if e.waitEntry ≠ 0 then
    { s.wake e.thread with
      waitList := if e.waitEntry = s.waitList then s.links.next e.waitEntry else s.waitList
      links := s.links.unlink 0 e.waitEntry
      used := s.used.erase e.waitEntry }
  else s.wake e.thread

/-- What it does with the other ones: the entry before a first entry is not looked at. -/
def wakeNext (s : SleepState) (e : IrqElement) : SleepState :=
  if e.waitEntry ≠ 0 then
    { s.wake e.thread with
      waitList := if e.waitEntry = s.waitList then s.links.next e.waitEntry else s.waitList
      links := ⟨if e.waitEntry = s.waitList then s.links.next else (s.links.unlink 0 e.waitEntry).next,
        (s.links.unlink 0 e.waitEntry).prev⟩
      used := s.used.erase e.waitEntry }
  else s.wake e.thread

/-- `scheduler_irq_wakeup` -/
def irqWakeup (s : SleepState) (irq : ℕ) : SleepState :=
  match s.irqList irq with
  | [] => s
  | e :: rest =>
    rest.foldl wakeNext { s.wakeFirst e with irqList := Function.update s.irqList irq [] }

end SleepState

inductive SleepAction
  | waitThread (process thread : ℕ) (reason : SleepReason) (sleepData waitTime a : ℕ)
  | sleepUpdate
  | irqWakeup (irq : ℕ)

namespace SleepState

/-- A thread that goes to sleep runs, and its entry gets memory of its own. -/
def Enabled (s : SleepState) : SleepAction → Prop
  | .waitThread _ thread _ _ _ a => s.threads thread = .running ∧ a ≠ 0 ∧ a ∉ s.used
  | _ => True

instance (s : SleepState) : (a : SleepAction) → Decidable (s.Enabled a)
  | .waitThread .. => inferInstanceAs (Decidable (_ ∧ _ ∧ _))
  | .sleepUpdate => inferInstanceAs (Decidable True)
  | .irqWakeup _ => inferInstanceAs (Decidable True)

def step (s : SleepState) (a : SleepAction) : Option SleepState :=
  if s.Enabled a then
    match a with
    | .waitThread process thread reason sleepData waitTime a =>
      s.waitThread process thread reason sleepData waitTime a
    | .sleepUpdate => s.sleepUpdate
    | .irqWakeup irq => some (s.irqWakeup irq)
  else none

/-- The entries of `wait_list` in order: the head has no predecessor, and every
entry is the predecessor of the next one. -/
def WaitList (s : SleepState) (l : List ℕ) : Prop :=
  ∃ q, Seg 0 (fun _ => False) s.links 0 s.waitList l q 0

def threadOf (s : SleepState) (a : ℕ) : ℕ := (s.element a).thread

/-- The time of some entries together. -/
def times (s : SleepState) (l : List ℕ) : ℕ := (l.map fun a => (s.element a).time).sum

/-- `wait_list` is well formed and has one entry for every thread asleep with a wait
time. Every thread in an IRQ list is asleep, and refers to an entry of `wait_list` or
to none. -/
structure Consistent (s : SleepState) (l : List ℕ) : Prop where
  list : s.WaitList l
  nodup : l.Nodup
  once : ∀ t, s.timed t = true → (l.map s.threadOf).count t = 1
  asleep : ∀ a ∈ l, s.timed (s.threadOf a) = true ∧ s.threads (s.threadOf a) ≠ .running
  registered : ∀ irq, ∀ e ∈ s.irqList irq,
    s.threads e.thread ≠ .running ∧ (e.waitEntry = 0 ∨ e.waitEntry ∈ l)

/-- The entries stay in the list, but for those of threads that are woken. -/
def Keeps (s : SleepState) (l : List ℕ) (s' : SleepState) (l' : List ℕ) : Prop :=
  ∀ a ∈ l, s'.threadOf a = s.threadOf a ∧ (a ∈ l' ∨ s'.threads (s.threadOf a) = .running)

/-- A new entry is put at the end of the list: its time is not below the time of all
entries, and above the time of all but the last one. The first entry is woken when it
is the only one and no IRQ list refers to it. -/
def Careful (s : SleepState) : SleepAction → Prop
  | .waitThread _ _ reason _ waitTime _ =>
    waitTime ≠ 0 → reason = .waitIrq ∨ reason = .time → ∀ l, s.WaitList l → l ≠ [] →
      s.times l ≤ waitTime ∧ s.times l.dropLast < waitTime
  | .sleepUpdate =>
    ∀ a rest, s.WaitList (a :: rest) →
      55 < (s.element a).time ∨ rest = [] ∧ ∀ irq, ∀ e ∈ s.irqList irq, e.waitEntry ≠ a
  | .irqWakeup _ => True

/-- The invariant of careful runs: threads have at most one entry in each kind of
list, and the two belong together. -/
structure Inv (s : SleepState) (l : List ℕ) : Prop where
  list : s.WaitList l
  used : ∀ a ∈ l, a ∈ s.used
  threads_nodup : (l.map s.threadOf).Nodup
  timed_iff : ∀ t, s.timed t = true ↔ t ∈ l.map s.threadOf
  timed_asleep : ∀ t, s.timed t = true → s.threads t ≠ .running
  registered : ∀ irq, ∀ e ∈ s.irqList irq, s.threads e.thread ≠ .running ∧
    (e.waitEntry = 0 ∧ s.timed e.thread = false ∨
      e.waitEntry ∈ l ∧ s.threadOf e.waitEntry = e.thread)
  registered_nodup : ∀ irq, ((s.irqList irq).map IrqElement.thread).Nodup
  registered_apart : ∀ i j, ∀ e ∈ s.irqList i, ∀ e' ∈ s.irqList j, e.thread = e'.thread → i = j

variable {s s' : SleepState} {l l' : List ℕ}

theorem WaitList.unique (h : s.WaitList l) (h' : s.WaitList l') : l = l' := by
  obtain ⟨q, hq⟩ := h
  obtain ⟨q', hq'⟩ := h'
  exact hq.unique hq'

theorem waitList_singleton {a : ℕ} (hhead : s.waitList = a) (ha : a ≠ 0)
    (hprev : s.links.prev a = 0) (hnext : s.links.next a = 0) : s.WaitList [a] :=
  ⟨a, hhead, ha, Or.inl hprev, rfl, hnext⟩

theorem Inv.nodup (h : s.Inv l) : l.Nodup := List.Nodup.of_map _ h.threads_nodup

theorem Inv.consistent (h : s.Inv l) : s.Consistent l where
  list := h.list
  nodup := h.nodup
  once t ht := List.count_eq_one_of_mem h.threads_nodup ((h.timed_iff t).mp ht)
  asleep a ha := by
    have htimed := (h.timed_iff (s.threadOf a)).mpr (List.mem_map_of_mem ha)
    exact ⟨htimed, h.timed_asleep _ htimed⟩
  registered irq e he := ⟨(h.registered irq e he).1, (h.registered irq e he).2.imp And.left And.left⟩

/-! ## `scheduler_wait_thread` -/

/-- A time that is long enough leads to the end of the list. -/
theorem findPlace_eq {p ptr q fuel c : ℕ} (h : Seg 0 (fun _ => False) s.links p ptr l q 0)
    (hfuel : l.length < fuel) (hc : l ≠ [] → s.times l ≤ c ∧ s.times l.dropLast < c) :
    s.findPlace fuel ptr p c = some (0, q) := by
  induction l generalizing p ptr fuel c with
  | nil =>
    obtain ⟨fuel, rfl⟩ := Nat.exists_eq_succ_of_ne_zero (Nat.ne_zero_of_lt hfuel)
    rw [findPlace, h.1, h.2, if_pos (Or.inl rfl)]
  | cons x xs ih =>
    obtain ⟨fuel, rfl⟩ := Nat.exists_eq_succ_of_ne_zero (Nat.ne_zero_of_lt hfuel)
    obtain ⟨rfl, hx, -, hseg⟩ := h
    obtain ⟨hle, hlt⟩ := hc (List.cons_ne_nil ptr xs)
    have htimes : s.times (ptr :: xs) = (s.element ptr).time + s.times xs := List.sum_cons
    rw [htimes] at hle
    rw [findPlace, if_neg (by omega), if_neg (by omega)]
    refine ih hseg (Nat.lt_of_succ_lt_succ hfuel) fun hxs => ?_
    obtain ⟨y, ys, rfl⟩ := List.exists_cons_of_ne_nil hxs
    have hinit : s.times (ptr :: y :: ys).dropLast =
        (s.element ptr).time + s.times (y :: ys).dropLast := List.sum_cons
    rw [hinit] at hlt
    omega

/-- The entry is linked behind the last one. -/
theorem waitList_append {q a : ℕ} {s' : SleepState}
    (h : Seg 0 (fun _ => False) s.links 0 s.waitList l q 0) (hd : l.Nodup) (ha : a ≠ 0) (hnew : a ∉ l)
    (hhead : s'.waitList = if q = 0 then a else s.waitList)
    (hlinks : s'.links = if q = 0 then
        ⟨Function.update s.links.next a 0, Function.update s.links.prev a 0⟩
      else ⟨Function.update (Function.update s.links.next q a) a 0,
        Function.update s.links.prev a q⟩) : s'.WaitList (l ++ [a]) := by
  unfold WaitList
  rcases List.eq_nil_or_concat l with rfl | ⟨zs, c, rfl⟩
  · rw [← h.1, if_pos rfl] at hhead hlinks
    rw [hhead, hlinks]
    refine ⟨a, rfl, ha, Or.inl (Function.update_self ..), rfl, Function.update_self ..⟩
  · rw [List.concat_eq_append] at h hd hnew ⊢
    have hc : c ≠ 0 := h.ne_null c (by simp)
    have hq : q = c := by
      obtain ⟨p', d, -, -, -, -, hcq, -⟩ := seg_append.mp h
      exact hcq.symm
    have hnext : s.links.next c = 0 := h.links_at.2
    have hac : a ≠ c := by
      intro he
      apply hnew
      rw [he]
      simp
    rw [hq, if_neg hc] at hhead hlinks
    have hinsert : s'.links = s.links.insertAfter 0 c a := by
      rw [hlinks, Links.insertAfter, hnext, if_pos rfl, Function.update_comm hac]
    rw [hhead, hinsert, List.append_assoc]
    exact h.insertAfter hd ha hnew

theorem Inv.insertEntry (h : s.Inv l) {a : ℕ} {e : WaitElement}
    (hrun : s.threads e.thread = .running) (ha : a ≠ 0) (hnew : a ∉ s.used)
    (hc : l ≠ [] → s.times l ≤ e.time ∧ s.times l.dropLast < e.time) :
    ∃ s', s.insertEntry a e = some s' ∧ s'.Inv (l ++ [a]) ∧ s'.irqList = s.irqList ∧
      s'.element = Function.update s.element a e := by
  obtain ⟨q, hseg⟩ := h.list
  have hal : a ∉ l := fun hmem => hnew (h.used a hmem)
  have hfuel : l.length < s.used.card + 1 := by
    rw [← List.toFinset_card_of_nodup h.nodup]
    refine Nat.lt_succ_of_le (Finset.card_le_card fun b hb => ?_)
    exact h.used b (List.mem_toFinset.mp hb)
  have hplace := findPlace_eq hseg hfuel hc
  unfold SleepState.insertEntry
  rw [hplace]
  refine ⟨_, rfl, ?_, rfl, rfl⟩
  -- the thread of every other entry is the same
  have hthread : ∀ b ∈ l, (Function.update s.element a e b).thread = s.threadOf b := by
    intro b hb
    have hba : b ≠ a := fun he => hal (he ▸ hb)
    rw [Function.update_of_ne hba]
    rfl
  have hmap : (l ++ [a]).map (fun b => (Function.update s.element a e b).thread) =
      l.map s.threadOf ++ [e.thread] := by
    rw [List.map_append, List.map_singleton, Function.update_self, List.map_congr_left hthread]
  have hfresh : ¬s.timed e.thread = true := fun ht => h.timed_asleep _ ht hrun
  have hnot : ∀ irq, ∀ x ∈ s.irqList irq, x.thread ≠ e.thread := by
    intro irq x hx he
    exact (h.registered irq x hx).1 (he ▸ hrun)
  refine ⟨waitList_append hseg h.nodup ha hal rfl rfl, ?_, ?_, fun t => ?_, fun t ht => ?_,
    fun irq x hx => ?_, h.registered_nodup, h.registered_apart⟩
  · intro b hb
    rw [List.mem_append, List.mem_singleton] at hb
    exact Finset.mem_insert.mpr (hb.symm.imp id (h.used b))
  · change ((l ++ [a]).map fun b => (Function.update s.element a e b).thread).Nodup
    rw [hmap, List.nodup_append]
    refine ⟨h.threads_nodup, List.nodup_singleton _, fun t ht u hu he => hfresh ?_⟩
    rw [List.mem_singleton] at hu
    rw [← hu, ← he]
    exact (h.timed_iff t).mpr ht
  · change Function.update s.timed e.thread true t = true ↔
      t ∈ (l ++ [a]).map fun b => (Function.update s.element a e b).thread
    rw [hmap, List.mem_append, List.mem_singleton, ← h.timed_iff]
    by_cases ht : t = e.thread
    · rw [ht, Function.update_self]
      exact iff_of_true rfl (Or.inr rfl)
    · rw [Function.update_of_ne ht]
      exact (or_iff_left ht).symm
  · change Function.update s.timed e.thread true t = true at ht
    change Function.update s.threads e.thread .asleepTime t ≠ .running
    by_cases hte : t = e.thread
    · rw [hte, Function.update_self]
      decide
    · rw [Function.update_of_ne hte] at ht ⊢
      exact h.timed_asleep t ht
  · have hne := hnot irq x hx
    obtain ⟨hasleep, hentry⟩ := h.registered irq x hx
    change Function.update s.threads e.thread .asleepTime x.thread ≠ .running ∧
      (x.waitEntry = 0 ∧ Function.update s.timed e.thread true x.thread = false ∨
        x.waitEntry ∈ l ++ [a] ∧ (Function.update s.element a e x.waitEntry).thread = x.thread)
    rw [Function.update_of_ne hne, Function.update_of_ne hne]
    refine ⟨hasleep, hentry.imp id fun hw => ⟨List.mem_append_left _ hw.1, ?_⟩⟩
    rw [hthread _ hw.1]
    exact hw.2

theorem Inv.registerIrq (h : s.Inv l) {irq : ℕ} {e : IrqElement}
    (hnot : ∀ i, ∀ x ∈ s.irqList i, x.thread ≠ e.thread)
    (he : e.waitEntry = 0 ∧ s.timed e.thread = false ∨
      e.waitEntry ∈ l ∧ s.threadOf e.waitEntry = e.thread) : (s.registerIrq irq e).Inv l := by
  have hmem : ∀ i x, x ∈ (s.registerIrq irq e).irqList i → x ∈ s.irqList i ∨ i = irq ∧ x = e := by
    intro i x hx
    change x ∈ Function.update s.irqList irq (s.irqList irq ++ [e]) i at hx
    by_cases hi : i = irq
    · rw [hi, Function.update_self, List.mem_append, List.mem_singleton] at hx
      rw [hi]
      exact hx.imp id fun hxe => ⟨rfl, hxe⟩
    · rw [Function.update_of_ne hi] at hx
      exact Or.inl hx
  have hasleep : ∀ t, t = e.thread ∨ s.threads t ≠ .running →
      (s.registerIrq irq e).threads t ≠ .running := by
    intro t ht
    change Function.update s.threads e.thread .asleepIrq t ≠ .running
    by_cases hte : t = e.thread
    · rw [hte, Function.update_self]
      decide
    · rw [Function.update_of_ne hte]
      exact ht.resolve_left hte
  refine ⟨h.list, h.used, h.threads_nodup, h.timed_iff,
    fun t ht => hasleep t (Or.inr (h.timed_asleep t ht)), fun i x hx => ?_, fun i => ?_,
    fun i j x hx y hy hxy => ?_⟩
  · cases hmem i x hx with
    | inl hx =>
      have hold := h.registered i x hx
      exact ⟨hasleep _ (Or.inr hold.1), hold.2⟩
    | inr hx =>
      rw [hx.2]
      exact ⟨hasleep _ (Or.inl rfl), he⟩
  · change ((Function.update s.irqList irq (s.irqList irq ++ [e]) i).map IrqElement.thread).Nodup
    by_cases hi : i = irq
    · rw [hi, Function.update_self, List.map_append, List.nodup_append]
      refine ⟨h.registered_nodup irq, List.nodup_singleton _, fun t ht u hu => ?_⟩
      obtain ⟨x, hx, rfl⟩ := List.mem_map.mp ht
      rw [List.mem_singleton.mp hu]
      exact hnot irq x hx
    · rw [Function.update_of_ne hi]
      exact h.registered_nodup i
  · cases hmem i x hx with
    | inl hx =>
      cases hmem j y hy with
      | inl hy => exact h.registered_apart i j x hx y hy hxy
      | inr hy => exact absurd (hxy.trans (congrArg _ hy.2)) (hnot i x hx)
    | inr hx =>
      cases hmem j y hy with
      | inl hy => exact absurd (hxy.symm.trans (congrArg _ hx.2)) (hnot j y hy)
      | inr hy => exact hx.1.trans hy.1.symm

theorem keeps_of_subset (hsub : l ⊆ l') (hthread : ∀ a ∈ l, s'.threadOf a = s.threadOf a) :
    s.Keeps l s' l' := fun a ha => ⟨hthread a ha, Or.inl (hsub ha)⟩

theorem Inv.waitThread (h : s.Inv l) {process thread sleepData waitTime a : ℕ}
    {reason : SleepReason}
    (he : s.Enabled (.waitThread process thread reason sleepData waitTime a))
    (hc : s.Careful (.waitThread process thread reason sleepData waitTime a)) :
    ∃ s' l', s.waitThread process thread reason sleepData waitTime a = some s' ∧ s'.Inv l' ∧
      s.Keeps l s' l' := by
  obtain ⟨hrun, ha, hnew⟩ := he
  have hnot : ∀ i, ∀ x ∈ s.irqList i, x.thread ≠ thread := by
    intro i x hx hxt
    exact (h.registered i x hx).1 (hxt ▸ hrun)
  unfold SleepState.waitThread
  by_cases htime : waitTime ≠ 0 ∧ (reason = .waitIrq ∨ reason = .time)
  · rw [if_pos htime]
    obtain ⟨t, ht, hinv, hirq, helement⟩ := h.insertEntry (e := ⟨process, waitTime, thread⟩) hrun ha
      hnew fun hl => hc htime.1 htime.2 l h.list hl
    rw [ht, Option.map_some]
    have hthread : ∀ b ∈ l, t.threadOf b = s.threadOf b := by
      intro b hb
      have hba : b ≠ a := fun hba => hnew (hba ▸ h.used b hb)
      unfold threadOf
      rw [helement, Function.update_of_ne hba]
    have hkeeps : s.Keeps l t (l ++ [a]) := keeps_of_subset (List.subset_append_left l [a]) hthread
    split
    · refine ⟨_, l ++ [a], rfl, hinv.registerIrq (hirq ▸ hnot) (Or.inr ⟨by simp, ?_⟩), fun b hb => ?_⟩
      · unfold threadOf
        rw [helement, Function.update_self]
      · exact ⟨hthread b hb, Or.inl (List.mem_append_left _ hb)⟩
    · exact ⟨t, l ++ [a], rfl, hinv, hkeeps⟩
  · rw [if_neg htime]
    split
    · have htimed : s.timed thread = false := by
        rw [← Bool.not_eq_true]
        exact fun ht => h.timed_asleep _ ht hrun
      exact ⟨_, l, rfl, h.registerIrq hnot (Or.inl ⟨rfl, htimed⟩),
        keeps_of_subset (List.Subset.refl l) fun _ _ => rfl⟩
    · exact ⟨s, l, rfl, h, keeps_of_subset (List.Subset.refl l) fun _ _ => rfl⟩

/-! ## Waking a thread -/

/-- A thread is woken: its entry and its registration are removed. -/
theorem Inv.woken (h : s.Inv l) {t : ℕ} (hlist : s'.WaitList l') (hsub : l'.Sublist l)
    (hmem : ∀ a, a ∈ l' ↔ a ∈ l ∧ s.threadOf a ≠ t) (hused : ∀ a ∈ l', a ∈ s'.used)
    (helement : s'.element = s.element)
    (hthreads : s'.threads = Function.update s.threads t .running)
    (htimed : s'.timed = Function.update s.timed t false)
    (hirq : ∀ i, (s'.irqList i).Sublist (s.irqList i))
    (hnot : ∀ i, ∀ e ∈ s'.irqList i, e.thread ≠ t) : s'.Inv l' ∧ s.Keeps l s' l' := by
  have hthread : s'.threadOf = s.threadOf := by
    unfold threadOf
    rw [helement]
  have hasleep : ∀ u, u ≠ t → s'.threads u = s.threads u := by
    intro u hu
    rw [hthreads, Function.update_of_ne hu]
  have htimed' : ∀ u, s'.timed u = true ↔ u ≠ t ∧ s.timed u = true := by
    intro u
    rw [htimed]
    by_cases hu : u = t
    · rw [hu, Function.update_self]
      exact iff_of_false Bool.false_ne_true fun hne => hne.1 rfl
    · rw [Function.update_of_ne hu]
      exact (and_iff_right hu).symm
  refine ⟨⟨hlist, hused, ?_, fun u => ?_, fun u hu => ?_, fun i e he => ?_, fun i => ?_,
    fun i j e he e' he' => ?_⟩, fun a ha => ⟨congrFun hthread a, ?_⟩⟩
  · rw [hthread]
    exact h.threads_nodup.sublist (hsub.map _)
  · rw [htimed', h.timed_iff, hthread, List.mem_map, List.mem_map]
    constructor
    · intro ⟨hu, a, ha, hau⟩
      exact ⟨a, (hmem a).mpr ⟨ha, hau ▸ hu⟩, hau⟩
    · intro ⟨a, ha, hau⟩
      obtain ⟨hal, hat⟩ := (hmem a).mp ha
      exact ⟨hau ▸ hat, a, hal, hau⟩
  · rw [htimed'] at hu
    rw [hasleep u hu.1]
    exact h.timed_asleep u hu.2
  · have hne := hnot i e he
    obtain ⟨hold, hentry⟩ := h.registered i e ((hirq i).subset he)
    rw [hasleep _ hne, hthread]
    refine ⟨hold, hentry.imp (fun hw => ⟨hw.1, ?_⟩) fun hw => ⟨?_, hw.2⟩⟩
    · rw [htimed, Function.update_of_ne hne]
      exact hw.2
    · rw [hmem, hw.2]
      exact ⟨hw.1, hne⟩
  · exact (h.registered_nodup i).sublist ((hirq i).map _)
  · exact h.registered_apart i j e ((hirq i).subset he) e' ((hirq j).subset he')
  · by_cases hat : s.threadOf a = t
    · rw [hat, hthreads, Function.update_self]
      exact Or.inr rfl
    · exact Or.inl ((hmem a).mpr ⟨ha, hat⟩)

/-- Different entries belong to different threads. -/
theorem Inv.eq_of_threadOf_eq (h : s.Inv l) {a b : ℕ} (ha : a ∈ l) (hb : b ∈ l)
    (hab : s.threadOf a = s.threadOf b) : a = b := List.inj_on_of_nodup_map h.threads_nodup ha hb hab

/-- The times of the entries play no role. -/
theorem Inv.setElement (h : s.Inv l) {element : ℕ → WaitElement}
    (hthread : ∀ b, (element b).thread = s.threadOf b) :
    { s with element := element }.Inv l ∧ s.Keeps l { s with element := element } l := by
  have hsame : { s with element := element }.threadOf = s.threadOf := funext hthread
  refine ⟨⟨h.list, h.used, ?_, ?_, h.timed_asleep, ?_, h.registered_nodup, h.registered_apart⟩,
    keeps_of_subset (List.Subset.refl l) fun b _ => hthread b⟩
  · rw [hsame]
    exact h.threads_nodup
  · rw [hsame]
    exact h.timed_iff
  · rw [hsame]
    exact h.registered

theorem Inv.sleepUpdate (h : s.Inv l) (hc : s.Careful .sleepUpdate) :
    ∃ s' l', s.sleepUpdate = some s' ∧ s'.Inv l' ∧ s.Keeps l s' l' := by
  unfold SleepState.sleepUpdate
  by_cases hnil : s.waitList = 0
  · rw [if_pos hnil]
    exact ⟨s, l, rfl, h, keeps_of_subset (List.Subset.refl l) fun _ _ => rfl⟩
  rw [if_neg hnil]
  dsimp only
  by_cases htime : (s.element s.waitList).time > 55
  · rw [if_pos htime]
    refine ⟨_, l, rfl, h.setElement fun b => ?_⟩
    by_cases hb : b = s.waitList
    · rw [hb, Function.update_self]
      rfl
    · rw [Function.update_of_ne hb]
      rfl
  · rw [if_neg htime]
    obtain ⟨q, hseg⟩ := h.list
    cases l with
    | nil => exact absurd hseg.2 hnil
    | cons a rest =>
      have ha := hseg.1
      rw [ha] at htime
      obtain ⟨hrest, hirq⟩ := (hc a rest h.list).resolve_left htime
      rw [hrest] at h hseg
      have hnext : s.links.next a = 0 := hseg.2.2.2.2
      rw [ha, hrest, wakeEntries, hnext]
      dsimp only
      rw [if_pos rfl]
      refine ⟨_, [], rfl, h.woken (t := s.threadOf a) ⟨0, rfl, rfl⟩ (List.nil_sublist _)
        (fun b => ?_) (fun b hb => absurd hb List.not_mem_nil) rfl rfl rfl
        (fun i => List.Sublist.refl _) fun i e he => ?_⟩
      · rw [List.mem_singleton]
        refine iff_of_false List.not_mem_nil fun hb => hb.2 ?_
        rw [hb.1]
      · intro het
        cases (h.registered i e he).2 with
        | inl hw =>
          have htimed := (h.timed_iff e.thread).mpr (het ▸ List.mem_map_of_mem (List.mem_singleton_self a))
          rw [hw.2] at htimed
          cases htimed
        | inr hw => exact hirq i e he (List.mem_singleton.mp hw.1)

/-! ## `scheduler_irq_wakeup` -/

/-- A first entry has no entry before it. -/
theorem wakeNext_eq_wakeFirst (h : s.WaitList l) (e : IrqElement) : s.wakeNext e = s.wakeFirst e := by
  unfold wakeNext wakeFirst
  split
  · rename_i hw
    have hlinks : (⟨if e.waitEntry = s.waitList then s.links.next
        else (s.links.unlink 0 e.waitEntry).next, (s.links.unlink 0 e.waitEntry).prev⟩ : Links ℕ) =
        s.links.unlink 0 e.waitEntry := by
      by_cases hhead : e.waitEntry = s.waitList
      · have hprev : s.links.prev e.waitEntry = 0 := by
          obtain ⟨q, hseg⟩ := h
          cases l with
          | nil => exact absurd (hhead.trans hseg.2) hw
          | cons a rest =>
            rw [hhead, hseg.1]
            exact hseg.2.2.1.resolve_right id
        unfold Links.unlink
        rw [hprev, if_pos hhead, if_pos rfl]
      · rw [if_neg hhead]
    rw [hlinks]
  · rfl

/-- The state with another list of threads that wait for the IRQ. -/
def withIrq (s : SleepState) (irq : ℕ) (r : List IrqElement) : SleepState :=
  { s with irqList := Function.update s.irqList irq r }

theorem wakeFirst_irqList (s : SleepState) (e : IrqElement) :
    (s.wakeFirst e).irqList = s.irqList := by
  unfold SleepState.wakeFirst
  split <;> rfl

theorem Inv.wakeFirst {irq : ℕ} {e : IrqElement} {rest : List IrqElement}
    (h : (s.withIrq irq (e :: rest)).Inv l) :
    ∃ l', ((s.wakeFirst e).withIrq irq rest).Inv l' ∧
      (s.withIrq irq (e :: rest)).Keeps l ((s.wakeFirst e).withIrq irq rest) l' := by
  have hself : (s.withIrq irq (e :: rest)).irqList irq = e :: rest := Function.update_self ..
  have hother : ∀ i, i ≠ irq → ((s.wakeFirst e).withIrq irq rest).irqList i =
      (s.withIrq irq (e :: rest)).irqList i := by
    intro i hi
    change Function.update (s.wakeFirst e).irqList irq rest i =
      Function.update s.irqList irq (e :: rest) i
    rw [Function.update_of_ne hi, Function.update_of_ne hi, wakeFirst_irqList]
  have hrest : ((s.wakeFirst e).withIrq irq rest).irqList irq = rest := Function.update_self ..
  have hmem : e ∈ (s.withIrq irq (e :: rest)).irqList irq := by
    rw [hself]
    exact List.mem_cons_self
  have hirq : ∀ i, (((s.wakeFirst e).withIrq irq rest).irqList i).Sublist
      ((s.withIrq irq (e :: rest)).irqList i) := by
    intro i
    by_cases hi : i = irq
    · rw [hi, hself, hrest]
      exact List.sublist_cons_self e rest
    · rw [hother i hi]
  have hnot : ∀ i, ∀ x ∈ ((s.wakeFirst e).withIrq irq rest).irqList i, x.thread ≠ e.thread := by
    intro i x hx hxe
    by_cases hi : i = irq
    · rw [hi, hrest] at hx
      have hnodup := h.registered_nodup irq
      rw [hself, List.map_cons, List.nodup_cons] at hnodup
      exact hnodup.1 (List.mem_map.mpr ⟨x, hx, hxe⟩)
    · rw [hother i hi] at hx
      exact hi (h.registered_apart i irq x hx e hmem hxe)
  cases (h.registered irq e hmem).2 with
  | inl hw =>
    have hwake : s.wakeFirst e = s.wake e.thread := if_neg (not_not.mpr hw.1)
    rw [hwake] at hirq hnot ⊢
    refine ⟨l, h.woken h.list (List.Sublist.refl l) (fun a => ?_) h.used rfl rfl rfl hirq hnot⟩
    refine (and_iff_left_of_imp fun ha hat => ?_).symm
    have htimed := (h.timed_iff e.thread).mpr (List.mem_map.mpr ⟨a, ha, hat⟩)
    rw [hw.2] at htimed
    cases htimed
  | inr hw =>
    obtain ⟨q, hseg⟩ := h.list
    obtain ⟨xs, ys, hl⟩ := List.append_of_mem hw.1
    have hd := h.nodup
    rw [hl] at hseg hd
    have hw0 : e.waitEntry ≠ 0 := hseg.ne_null _ (by simp)
    have hwake : s.wakeFirst e = { s.wake e.thread with
        waitList := if e.waitEntry = s.waitList then s.links.next e.waitEntry else s.waitList
        links := s.links.unlink 0 e.waitEntry
        used := s.used.erase e.waitEntry } := if_pos hw0
    have hsub : (xs ++ ys).Sublist l := by
      rw [hl]
      exact List.Sublist.append (List.Sublist.refl xs) (List.sublist_cons_self _ ys)
    have hmem' : ∀ a, a ∈ xs ++ ys ↔ a ∈ l ∧ (s.withIrq irq (e :: rest)).threadOf a ≠ e.thread := by
      intro a
      have hiff : a ∈ xs ++ ys ↔ a ∈ l ∧ a ≠ e.waitEntry := by
        have hnot : e.waitEntry ∉ xs ++ ys := (List.nodup_cons.mp (List.nodup_middle.mp hd)).1
        rw [hl]
        simp only [List.mem_append, List.mem_cons] at hnot ⊢
        constructor
        · intro ha
          refine ⟨by tauto, fun he => hnot (he ▸ ha)⟩
        · tauto
      rw [hiff]
      refine and_congr_right fun ha => not_congr ⟨fun hae => hae ▸ hw.2, fun hat => ?_⟩
      exact h.eq_of_threadOf_eq ha hw.1 (hat.trans hw.2.symm)
    rw [hwake] at hirq hnot ⊢
    refine ⟨xs ++ ys, h.woken (hseg.unlink hd) hsub hmem' (fun a ha => ?_) rfl rfl rfl hirq hnot⟩
    obtain ⟨hal, hat⟩ := (hmem' a).mp ha
    refine Finset.mem_erase.mpr ⟨fun hae => hat ?_, h.used a hal⟩
    rw [hae]
    exact hw.2

theorem Keeps.trans {t u : SleepState} {k m : List ℕ} (h : s.Keeps l t k) (h' : t.Keeps k u m)
    (hthread : u.element = t.element)
    (hrun : ∀ x, t.threads x = .running → u.threads x = .running) : s.Keeps l u m := by
  intro a ha
  obtain ⟨hta, hor⟩ := h a ha
  have hua : u.threadOf a = s.threadOf a := by
    rw [← hta]
    unfold threadOf
    rw [hthread]
  cases hor with
  | inl hak =>
    rw [← hta]
    exact ⟨hua.trans hta.symm, (h' a hak).2⟩
  | inr hwoken => exact ⟨hua, Or.inr (hrun _ hwoken)⟩

theorem wakeFirst_element (s : SleepState) (e : IrqElement) :
    (s.wakeFirst e).element = s.element := by
  unfold SleepState.wakeFirst
  split <;> rfl

/-- Threads that run go on running. -/
theorem wakeFirst_running {t : ℕ} (e : IrqElement) (h : s.threads t = .running) :
    (s.wakeFirst e).threads t = .running := by
  have hthreads : (s.wakeFirst e).threads = Function.update s.threads e.thread .running := by
    unfold SleepState.wakeFirst
    split <;> rfl
  rw [hthreads]
  by_cases ht : t = e.thread
  · rw [ht, Function.update_self]
  · rw [Function.update_of_ne ht]
    exact h

/-- The loop over the rest of the list. -/
theorem Inv.foldl_wakeNext {irq : ℕ} {r : List IrqElement} (h : (s.withIrq irq r).Inv l) :
    ∃ l', ((r.foldl wakeNext s).withIrq irq []).Inv l' ∧
      (s.withIrq irq r).Keeps l ((r.foldl wakeNext s).withIrq irq []) l' ∧
      (r.foldl wakeNext s).element = s.element ∧
      ∀ t, s.threads t = .running → (r.foldl wakeNext s).threads t = .running := by
  induction r generalizing s l with
  | nil => exact ⟨l, h, fun a ha => ⟨rfl, Or.inl ha⟩, rfl, fun t ht => ht⟩
  | cons e rest ih =>
    have hlist : s.WaitList l := h.list
    rw [List.foldl_cons, wakeNext_eq_wakeFirst hlist e]
    obtain ⟨k, hk, hkeeps⟩ := h.wakeFirst
    obtain ⟨l', hl', hkeeps', helement, hrunning⟩ := ih hk
    refine ⟨l', hl', hkeeps.trans hkeeps' helement hrunning, ?_, fun t ht => ?_⟩
    · rw [helement, wakeFirst_element]
    · exact hrunning t (wakeFirst_running e ht)

theorem withIrq_self {irq : ℕ} {r : List IrqElement} (h : s.irqList irq = r) :
    s.withIrq irq r = s := by
  unfold withIrq
  rw [← h, Function.update_eq_self]

theorem foldl_wakeNext_irqList (s : SleepState) (r : List IrqElement) :
    (r.foldl wakeNext s).irqList = s.irqList := by
  induction r generalizing s with
  | nil => rfl
  | cons e rest ih =>
    rw [List.foldl_cons, ih]
    unfold wakeNext
    split <;> rfl

theorem Inv.irqWakeup (h : s.Inv l) (irq : ℕ) :
    ∃ l', (s.irqWakeup irq).Inv l' ∧ s.Keeps l (s.irqWakeup irq) l' := by
  unfold SleepState.irqWakeup
  split
  · exact ⟨l, h, keeps_of_subset (List.Subset.refl l) fun _ _ => rfl⟩
  · rename_i e rest hirq
    have hself := withIrq_self hirq
    rw [← hself] at h
    obtain ⟨k, hk, hkeeps⟩ := h.wakeFirst
    rw [hself] at hkeeps
    -- the list is emptied after its first element
    let t : SleepState := { s.wakeFirst e with irqList := Function.update s.irqList irq [] }
    have ht : t.withIrq irq rest = (s.wakeFirst e).withIrq irq rest := by
      unfold withIrq
      rw [wakeFirst_irqList, Function.update_idem]
    rw [← ht] at hk hkeeps
    obtain ⟨l', hl', hkeeps', helement, hrunning⟩ := hk.foldl_wakeNext
    have hempty : (rest.foldl wakeNext t).irqList irq = [] := by
      rw [foldl_wakeNext_irqList]
      exact Function.update_self ..
    rw [withIrq_self hempty] at hl' hkeeps'
    exact ⟨l', hl', hkeeps.trans hkeeps' helement hrunning⟩

theorem Inv.step (h : s.Inv l) {a : SleepAction} (he : s.Enabled a) (hc : s.Careful a) :
    ∃ s' l', s.step a = some s' ∧ s'.Inv l' ∧ s.Keeps l s' l' := by
  unfold SleepState.step
  rw [if_pos he]
  cases a with
  | waitThread process thread reason sleepData waitTime a => exact h.waitThread he hc
  | sleepUpdate => exact h.sleepUpdate hc
  | irqWakeup irq =>
    obtain ⟨l', hl', hkeeps⟩ := h.irqWakeup irq
    exact ⟨_, l', rfl, hl', hkeeps⟩

/-- Every list is empty. -/
structure AllAwake (s : SleepState) : Prop where
  waitList : s.waitList = 0
  irqList : ∀ irq, s.irqList irq = []
  timed : ∀ t, s.timed t = false

theorem AllAwake.inv (h : s.AllAwake) : s.Inv [] where
  list := ⟨0, rfl, h.waitList⟩
  used _ ha := absurd ha List.not_mem_nil
  threads_nodup := List.nodup_nil
  timed_iff t := iff_of_false (by rw [h.timed t]; exact Bool.false_ne_true) List.not_mem_nil
  timed_asleep t ht := by
    rw [h.timed t] at ht
    cases ht
  registered irq e he := by
    rw [h.irqList irq] at he
    cases he
  registered_nodup irq := by
    rw [h.irqList irq]
    exact List.nodup_nil
  registered_apart i j e he := by
    rw [h.irqList i] at he
    cases he

end SleepState

/-- In every run of careful steps the lists are consistent, and every further careful
step ends, again with consistent lists, and drops no entry of a thread that it does
not wake. -/
theorem sleep_consistent_of_careful {s₀ s : SleepState} (h₀ : s₀.AllAwake)
    (h : Reach SleepState.step SleepState.Careful s₀ s) :
    ∃ l, s.Consistent l ∧ ∀ a, s.Enabled a → s.Careful a →
      ∃ s' l', s.step a = some s' ∧ s'.Consistent l' ∧ s.Keeps l s' l' := by
  have hinv : ∃ l, s.Inv l := by
    refine Reach.invariant (I := fun s => ∃ l, s.Inv l) ?_ ⟨[], h₀.inv⟩ h
    intro t a u ⟨l, hl⟩ hc hu
    have he : t.Enabled a := by
      by_contra he
      unfold SleepState.step at hu
      rw [if_neg he] at hu
      cases hu
    obtain ⟨s', l', hs', hl', -⟩ := hl.step he hc
    rw [hs', Option.some.injEq] at hu
    exact ⟨l', hu ▸ hl'⟩
  obtain ⟨l, hl⟩ := hinv
  refine ⟨l, hl.consistent, fun a he hc => ?_⟩
  obtain ⟨s', l', hs', hl', hkeeps⟩ := hl.step he hc
  exact ⟨s', l', hs', hl'.consistent, hkeeps⟩

/-- All threads run. -/
def nobodySleeps : SleepState where
  threads _ := .running
  waitList := 0
  links := ⟨fun _ => 0, fun _ => 0⟩
  element _ := ⟨0, 0, 0⟩
  irqList _ := []
  used := ∅
  timed _ := false

theorem nobodySleeps_allAwake : nobodySleeps.AllAwake := ⟨rfl, fun _ => rfl, fun _ => rfl⟩

/-- Thread 1 waits for IRQ 14 with a time limit, thread 2 sleeps for a longer time,
and the IRQ comes. -/
theorem sleep_consistent_irq_comes :
    ∃ s, run SleepState.step nobodySleeps [.waitThread 7 1 .waitIrq 14 5000 16,
        .waitThread 8 2 .time 0 6000 32, .irqWakeup 14] = some s ∧ s.waitList = 32 ∧
      s.threads 1 = .running ∧ ∃ l, s.Consistent l ∧ ∀ a, s.Enabled a → s.Careful a →
        ∃ s' l', s.step a = some s' ∧ s'.Consistent l' ∧ s.Keeps l s' l' := by
  refine ⟨_, rfl, by decide, by decide, sleep_consistent_of_careful nobodySleeps_allAwake ?_⟩
  have hfirst : nobodySleeps.Careful (.waitThread 7 1 .waitIrq 14 5000 16) := by
    intro _ _ l hl hne
    have hnil : nobodySleeps.WaitList [] := ⟨0, rfl, rfl⟩
    exact absurd (hl.unique hnil) hne
  have hwait : Reach SleepState.step SleepState.Careful nobodySleeps _ :=
    Reach.start.next hfirst rfl
  refine (hwait.next (a := .waitThread 8 2 .time 0 6000 32) ?_ rfl).next
    (a := .irqWakeup 14) trivial rfl
  intro _ _ l hl _
  rw [hl.unique (SleepState.waitList_singleton (a := 16) rfl (by decide) rfl rfl)]
  decide

/-- Thread 1 sleeps, and thread 2 sleeps for a shorter time: the entry of thread 1 is
lost. -/
theorem sleep_drops_entry :
    ∃ s, run SleepState.step nobodySleeps [.waitThread 7 1 .time 0 5000 16,
        .waitThread 8 2 .time 0 100 32] = some s ∧ s.timed 1 = true ∧ ¬∃ l, s.Consistent l := by
  refine ⟨_, rfl, by decide, fun ⟨l, hl⟩ => ?_⟩
  have hone := hl.once 1 (by decide)
  rw [hl.list.unique (SleepState.waitList_singleton (a := 32) rfl (by decide) rfl rfl)] at hone
  revert hone
  decide

end VkKernel.Tasking
