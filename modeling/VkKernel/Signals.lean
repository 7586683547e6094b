import VkKernel.Lib.LinkedList
import VkKernel.Lib.Trace
import VkKernel.Mutex

/-!
# Signals

`send_signal` puts a signal at the end of `signal_list`, step by step and under
`signal_mutex`. `handle_signals` handles the signals of the list and frees its entries;
it runs at a timer tick as a part of the process that was interrupted, so a mutex of
this process does not stop it. Entries are named by their addresses, 0 being the null
pointer.
-/

namespace VkKernel
open LinkedList Trace

/-- A process and a signal number. -/
abbrev Signal := ℕ × ℕ

/-- What `listptr` points to: `signal_list`, or the field `next` of an entry. -/
inductive ListPtr
  | head
  | next (a : ℕ)
deriving DecidableEq, Repr

/-- Where a thread is in `send_signal`. -/
inductive SendStage
  | idle
  | locking (sig : Signal)
  | refused (sig : Signal)
  | asleep (sig : Signal)
  | walking (listptr : ListPtr) (sig : Signal)
  | found (listptr : ListPtr) (sig : Signal)
  | linked (listptr : ListPtr) (sig : Signal)
  | filled (listptr : ListPtr) (sig : Signal)
  | complete (sig : Signal)
deriving DecidableEq, Repr

/-- `used` are the entries that are allocated. The other fields behind `stage` are ghost
state: the signals of the calls of `send_signal` that have come to their end, those
passed to `handle_signal`, and whether a freed entry has been written. -/
structure SignalState where
  signalList : ℕ
  next : ℕ → ℕ
  element : ℕ → Signal
  used : Finset ℕ
  mutex : Mutex
  stage : ℕ → SendStage
  sent : List Signal
  handled : List Signal
  wroteFreed : Bool

namespace SignalState

def load (s : SignalState) : ListPtr → ℕ
  | .head => s.signalList
  | .next a => s.next a

/-- Note a write to the entry `a`. -/
def touch (s : SignalState) (a : ℕ) : SignalState :=
  if a ∈ s.used then s else { s with wroteFreed := true }

/-- `(*listptr) = a` -/
def store (s : SignalState) (a : ℕ) : ListPtr → SignalState
  | .head => { s with signalList := a }
  | .next b => { s.touch b with next := Function.update s.next b a }

def goto (s : SignalState) (t : ℕ) (stage : SendStage) : SignalState :=
  { s with stage := Function.update s.stage t stage }

/-- The loop of `handle_signals` in process `p`, from `ptr` on. A process that has to wait
for the mutex sleeps, and is not woken again. -/
def handleLoop (p : ℕ) : ℕ → ℕ → SignalState → Option SignalState
  | 0, _, _ => none
  | fuel + 1, ptr, s =>
    if ptr = 0 then some s
    else
      let s := { s with handled := s.handled ++ [s.element ptr] }
      if (mutexLock p s.mutex).1 = .none then
        handleLoop p fuel (s.next ptr)
          { s with
            mutex := (mutexUnlock p (mutexLock p s.mutex).2).2
            used := s.used.erase ptr
            signalList := s.next ptr }
      else some { s with mutex := mutexWait p s.mutex }

def handleSignals (p : ℕ) (s : SignalState) : Option SignalState :=
  if s.signalList = 0 then some s else s.handleLoop p (s.used.card + 1) s.signalList

end SignalState

/-- A step of a thread in `send_signal`, or a tick that interrupts a process. A call finds
the process to be a zombie or not, and a new entry is put at `a`. -/
inductive SignalAction
  | call (t process sig : ℕ) (zombie : Bool)
  | lock (t : ℕ)
  | wait (t : ℕ)
  | walk (t : ℕ)
  | link (t a : ℕ)
  | fill (t : ℕ)
  | terminate (t : ℕ)
  | unlock (t : ℕ)
  | tick (p : ℕ)

namespace SignalState

/-- `NSIG` -/
def nsig : ℕ := 29

/-- `process` gives the process of each thread. -/
def step (process : ℕ → ℕ) (s : SignalState) : SignalAction → Option SignalState
  | .call t target sig zombie =>
    match s.stage t with
    | .idle =>
      if zombie ∨ sig = 0 ∨ sig ≥ nsig then some s else some (s.goto t (.locking (target, sig)))
    | _ => none
  | .lock t =>
    match s.stage t with
    | .locking sig =>
      let (err, mutex) := mutexLock (process t) s.mutex
      some { s.goto t (if err = .none then .walking .head sig else .refused sig) with mutex := mutex }
    | _ => none
  | .wait t =>
    match s.stage t with
    | .refused sig => some { s.goto t (.asleep sig) with mutex := mutexWait (process t) s.mutex }
    | _ => none
  | .walk t =>
    match s.stage t with
    | .walking listptr sig =>
      some (s.goto t (if s.load listptr = 0 then .found listptr sig
        else .walking (.next (s.load listptr)) sig))
    | _ => none
  | .link t a =>
    match s.stage t with
    | .found listptr sig =>
      if a ≠ 0 ∧ a ∉ s.used then
        some { (s.store a listptr).goto t (.linked listptr sig) with used := insert a s.used }
      else none
    | _ => none
  | .fill t =>
    match s.stage t with
    | .linked listptr sig =>
      some { (s.touch (s.load listptr)).goto t (.filled listptr sig) with
        element := Function.update s.element (s.load listptr) sig }
    | _ => none
  | .terminate t =>
    match s.stage t with
    | .filled listptr sig =>
      some { (s.touch (s.load listptr)).goto t (.complete sig) with
        next := Function.update s.next (s.load listptr) 0 }
    | _ => none
  | .unlock t =>
    match s.stage t with
    | .complete sig =>
      some { s.goto t .idle with
        mutex := (mutexUnlock (process t) s.mutex).2
        sent := s.sent ++ [sig] }
    | _ => none
  | .tick p => s.handleSignals p

/-- The signals are handled in the order in which they were sent, and no freed entry is
written. A tick while nobody has the mutex or waits for it handles all that were sent. -/
structure Delivers (s : SignalState) : Prop where
  isPrefix : s.handled <+: s.sent
  wroteFreed : s.wroteFreed = false
  tick : s.mutex = ⟨none, []⟩ → ∀ p, ∃ s', s.handleSignals p = some s' ∧
    s'.handled = s.sent ∧ s'.wroteFreed = false

/-- A tick finds an empty list, or a mutex that nobody has or waits for. A thread calls
`mutex_lock` while no other thread of its process has the mutex, and `mutex_unlock`
while nobody waits. -/
def Careful (process : ℕ → ℕ) (s : SignalState) : SignalAction → Prop
  | .tick _ => s.signalList = 0 ∨ s.mutex = ⟨none, []⟩
  | .lock t => s.mutex.lockedBy ≠ some (process t)
  | .unlock _ => s.mutex.waiting = []
  | _ => True

end SignalState

/-- The thread is between `mutex_lock` and `mutex_unlock`. -/
def SendStage.Inside : SendStage → Prop
  | .idle | .locking _ | .refused _ | .asleep _ => False
  | .walking .. | .found .. | .linked .. | .filled .. | .complete _ => True

/-- The pointer behind the last of some entries. -/
def endPtr (l : List ℕ) : ListPtr := l.getLast?.elim .head .next

namespace SignalState

/-- A new entry is on its way into the list behind the entries `l`. -/
def Pending (s : SignalState) (l : List ℕ) (a : ℕ) : Prop :=
  Path 0 s.next s.signalList l a ∧ a ≠ 0 ∧ a ∈ s.used ∧ a ∉ l

/-- What the list is while a thread is at this place of `send_signal`. -/
def Place (s : SignalState) (l : List ℕ) : SendStage → Prop
  | .walking listptr _ => Path 0 s.next s.signalList l 0 ∧ ∃ xs, xs <+: l ∧ listptr = endPtr xs
  | .found listptr _ => Path 0 s.next s.signalList l 0 ∧ listptr = endPtr l
  | .linked listptr _ => listptr = endPtr l ∧ ∃ a, s.Pending l a
  | .filled listptr sig => listptr = endPtr l ∧ ∃ a, s.Pending l a ∧ s.element a = sig
  | .complete sig => ∃ a, s.Pending l a ∧ s.next a = 0 ∧ s.element a = sig
  | _ => True

/-- The invariant: `l` are the entries of the list that are complete. -/
structure Inv (process : ℕ → ℕ) (s : SignalState) (l : List ℕ) : Prop where
  nodup : l.Nodup
  used : ∀ a ∈ l, a ∈ s.used
  handled : s.handled ++ l.map s.element = s.sent
  wroteFreed : s.wroteFreed = false
  locked : ∀ t, (s.stage t).Inside → s.mutex.lockedBy = some (process t)
  one : ∀ t u, (s.stage t).Inside → (s.stage u).Inside → t = u
  place : ∀ t, s.Place l (s.stage t)
  path : (∀ t, ¬(s.stage t).Inside) → Path 0 s.next s.signalList l 0

variable {process : ℕ → ℕ} {s s' : SignalState} {l : List ℕ}

/-! ## The pointer into the list -/

theorem endPtr_append (xs : List ℕ) (a : ℕ) : endPtr (xs ++ [a]) = .next a := by
  simp [endPtr]

theorem load_endPtr {b : ℕ} (h : Path 0 s.next s.signalList l b) : s.load (endPtr l) = b := by
  rcases List.eq_nil_or_concat l with rfl | ⟨xs, a, rfl⟩
  · exact h
  · rw [List.concat_eq_append] at h ⊢
    obtain ⟨c, -, -, -, hnext⟩ := path_append.mp h
    rw [endPtr_append]
    exact hnext

/-- A new end of the list is stored through the pointer behind its last entry. -/
theorem store_endPtr {a : ℕ} (h : Path 0 s.next s.signalList l 0) (hd : l.Nodup)
    (hused : ∀ b ∈ l, b ∈ s.used) :
    Path 0 (s.store a (endPtr l)).next (s.store a (endPtr l)).signalList l a ∧
      (s.store a (endPtr l)).wroteFreed = s.wroteFreed := by
  rcases List.eq_nil_or_concat l with rfl | ⟨xs, b, rfl⟩
  · exact ⟨rfl, rfl⟩
  · rw [List.concat_eq_append] at h hd hused ⊢
    obtain ⟨c, hxs, hc, hb, -⟩ := path_append.mp h
    have hbused : b ∈ s.used := hused b (by simp)
    have hnot : b ∉ xs := by
      intro hmem
      exact (List.nodup_append.mp hd).2.2 b hmem b (by simp) rfl
    have hstore : s.store a (.next b) = { s with next := Function.update s.next b a } := by
      have htouch : s.touch b = s := if_pos hbused
      unfold store
      dsimp only
      rw [htouch]
    rw [endPtr_append, hstore]
    refine ⟨path_append.mpr ⟨c, hxs.congr fun x hx => ?_, hc, hb, ?_⟩, rfl⟩
    · have hxb : x ≠ b := fun he => hnot (he ▸ hx)
      exact Function.update_of_ne hxb ..
    · exact Function.update_self ..

theorem Pending.load {a : ℕ} (h : s.Pending l a) : s.load (endPtr l) = a := load_endPtr h.1

theorem Pending.touch {a : ℕ} (h : s.Pending l a) : s.touch a = s := if_pos h.2.2.1

/-! ## `send_signal` -/

/-- Another thread is at its place: nobody else is inside. -/
theorem Inv.place_of_ne {t u : ℕ} (h : s.Inv process l) (ht : (s.stage t).Inside) (hut : u ≠ t) :
    ¬(s.stage u).Inside := fun hu => hut (h.one u t hu ht)

theorem place_of_not_inside {stage : SendStage} (h : ¬stage.Inside) : s.Place l stage := by
  cases stage with
  | idle | locking _ | refused _ | asleep _ => trivial
  | walking _ _ | found _ _ | linked _ _ | filled _ _ | complete _ => exact absurd trivial h

/-- A thread that is outside and stays outside. -/
theorem Inv.outside {t : ℕ} {g : SendStage} {mutex : Mutex} (h : s.Inv process l)
    (hold : ¬(s.stage t).Inside) (hnew : ¬g.Inside) (hmutex : mutex.lockedBy = s.mutex.lockedBy) :
    ({ s.goto t g with mutex := mutex } : SignalState).Inv process l := by
  have hinside : ∀ u, (Function.update s.stage t g u).Inside ↔ (s.stage u).Inside := by
    intro u
    by_cases hut : u = t
    · rw [hut, Function.update_self]
      exact iff_of_false hnew hold
    · rw [Function.update_of_ne hut]
  refine ⟨h.nodup, h.used, h.handled, h.wroteFreed, fun u hu => ?_, fun u v hu hv => ?_, fun u => ?_,
    fun hnone => ?_⟩
  · exact hmutex.trans (h.locked u ((hinside u).mp hu))
  · exact h.one u v ((hinside u).mp hu) ((hinside v).mp hv)
  · by_cases hut : u = t
    · apply place_of_not_inside
      change ¬(Function.update s.stage t g u).Inside
      rw [hut, Function.update_self]
      exact hnew
    · change s.Place l (Function.update s.stage t g u)
      rw [Function.update_of_ne hut]
      exact h.place u
  · exact h.path fun u hu => hnone u ((hinside u).mpr hu)

/-- A thread that is inside takes a step and stays inside. -/
theorem Inv.inside {t : ℕ} {g : SendStage} (h : s.Inv process l) (hin : (s.stage t).Inside)
    (hnew : g.Inside) (hstage : s'.stage = Function.update s.stage t g)
    (hmutex : s'.mutex = s.mutex) (hused : ∀ a ∈ l, a ∈ s'.used)
    (helement : ∀ a ∈ l, s'.element a = s.element a) (hhandled : s'.handled = s.handled)
    (hsent : s'.sent = s.sent) (hwrote : s'.wroteFreed = s.wroteFreed) (hplace : s'.Place l g) :
    s'.Inv process l := by
  have hself : s'.stage t = g := by rw [hstage, Function.update_self]
  have hother : ∀ u, u ≠ t → ¬(s'.stage u).Inside := by
    intro u hut
    rw [hstage, Function.update_of_ne hut]
    exact h.place_of_ne hin hut
  refine ⟨h.nodup, hused, ?_, hwrote.trans h.wroteFreed, fun u hu => ?_, fun u v hu hv => ?_,
    fun u => ?_, fun hnone => ?_⟩
  · rw [hhandled, hsent, List.map_congr_left helement]
    exact h.handled
  · have hut : u = t := by
      by_contra hut
      exact hother u hut hu
    rw [hmutex, hut]
    exact h.locked t hin
  · have hut : u = t := by
      by_contra hut
      exact hother u hut hu
    have hvt : v = t := by
      by_contra hvt
      exact hother v hvt hv
    rw [hut, hvt]
  · by_cases hut : u = t
    · rw [hut, hself]
      exact hplace
    · exact place_of_not_inside (hother u hut)
  · exact absurd (hself ▸ hnew) (hnone t)

theorem Inv.lock {t : ℕ} (h : s.Inv process l) (hc : s.mutex.lockedBy ≠ some (process t))
    (hs : s.step process (.lock t) = some s') : s'.Inv process l := by
  unfold step at hs
  dsimp only at hs
  split at hs
  · rename_i sig hstage
    rw [Option.some.injEq] at hs
    have hout : ¬(s.stage t).Inside := by
      rw [hstage]
      exact id
    rcases mutexLock_cases (process t) s.mutex with ⟨hown, -⟩ | ⟨-, -, heq⟩ | ⟨hfree, heq⟩
    · exact absurd hown hc
    · rw [heq] at hs
      rw [← hs]
      exact h.outside (g := .refused sig) hout id rfl
    · rw [heq] at hs
      have hnobody : ∀ u, ¬(s.stage u).Inside := by
        intro u hu
        rw [h.locked u hu] at hfree
        cases hfree
      have hstage' : s'.stage = Function.update s.stage t (.walking .head sig) := by rw [← hs]; rfl
      have hlocked : s'.mutex.lockedBy = some (process t) := by rw [← hs]
      have honly : ∀ u, (s'.stage u).Inside → u = t := by
        intro u hu
        by_contra hut
        rw [hstage', Function.update_of_ne hut] at hu
        exact hnobody u hu
      have hpath := h.path hnobody
      refine ⟨h.nodup, ?_, ?_, ?_, fun u hu => ?_, fun u v hu hv => ?_, fun u => ?_, fun hnone => ?_⟩
      · rw [← hs]
        exact h.used
      · rw [← hs]
        exact h.handled
      · rw [← hs]
        exact h.wroteFreed
      · rw [honly u hu]
        exact hlocked
      · rw [honly u hu, honly v hv]
      · by_cases hut : u = t
        · rw [hut, hstage', Function.update_self, ← hs]
          exact ⟨hpath, [], List.nil_prefix, rfl⟩
        · exact place_of_not_inside fun hu => hut (honly u hu)
      · rw [← hs]
        exact hpath
  · cases hs

theorem Inv.walk {t : ℕ} (h : s.Inv process l) (hs : s.step process (.walk t) = some s') :
    s'.Inv process l := by
  unfold step at hs
  dsimp only at hs
  split at hs
  · rename_i listptr sig hstage
    rw [Option.some.injEq] at hs
    have hin : (s.stage t).Inside := by
      rw [hstage]
      trivial
    have hplace := h.place t
    rw [hstage] at hplace
    obtain ⟨hpath, xs, ⟨ys, hys⟩, rfl⟩ := hplace
    rw [← hys] at hpath
    obtain ⟨c, hxs, hrest⟩ := path_append.mp hpath
    have hload := load_endPtr hxs
    rw [hys] at hpath
    rw [← hs]
    cases ys with
    | nil =>
      have hc : c = 0 := hrest
      rw [if_pos (hload.trans hc)]
      refine h.inside (g := .found (endPtr xs) sig) hin trivial rfl rfl h.used
        (fun a _ => rfl) rfl rfl rfl ⟨hpath, ?_⟩
      rw [← hys, List.append_nil]
    | cons y ys =>
      obtain ⟨hcy, hy, -⟩ := hrest
      have hne : ¬s.load (endPtr xs) = 0 := by
        rw [hload, hcy]
        exact hy
      rw [if_neg hne, hload, hcy]
      refine h.inside (g := .walking (.next y) sig) hin trivial rfl rfl h.used
        (fun a _ => rfl) rfl rfl rfl ⟨hpath, xs ++ [y], ?_, (endPtr_append xs y).symm⟩
      rw [← hys, List.append_cons xs y ys]
      exact List.prefix_append _ _
  · cases hs

theorem store_rest (s : SignalState) (a : ℕ) (listptr : ListPtr) :
    (s.store a listptr).stage = s.stage ∧ (s.store a listptr).mutex = s.mutex ∧
      (s.store a listptr).element = s.element ∧ (s.store a listptr).handled = s.handled ∧
      (s.store a listptr).sent = s.sent := by
  cases listptr with
  | head => exact ⟨rfl, rfl, rfl, rfl, rfl⟩
  | next b =>
    unfold store touch
    dsimp only
    split <;> exact ⟨rfl, rfl, rfl, rfl, rfl⟩

theorem Inv.link {t a : ℕ} (h : s.Inv process l) (hs : s.step process (.link t a) = some s') :
    s'.Inv process l := by
  unfold step at hs
  dsimp only at hs
  split at hs
  · rename_i listptr sig hstage
    split at hs
    · rename_i hnew
      rw [Option.some.injEq] at hs
      have hin : (s.stage t).Inside := by
        rw [hstage]
        trivial
      have hplace := h.place t
      rw [hstage] at hplace
      obtain ⟨hpath, rfl⟩ := hplace
      obtain ⟨hend, hwrote⟩ := store_endPtr (a := a) hpath h.nodup h.used
      obtain ⟨hsame, hmutex, helement, hhandled, hsent⟩ := store_rest s a (endPtr l)
      have hal : a ∉ l := fun hmem => hnew.2 (h.used a hmem)
      rw [← hs]
      refine h.inside (g := .linked (endPtr l) sig) hin trivial ?_ hmutex ?_ ?_ hhandled hsent
        hwrote ⟨rfl, a, hend, hnew.1, Finset.mem_insert_self a _, hal⟩
      · unfold goto
        rw [hsame]
      · intro b hb
        exact Finset.mem_insert_of_mem (h.used b hb)
      · intro b _
        exact congrFun helement b
    · cases hs
  · cases hs

theorem Inv.fill {t : ℕ} (h : s.Inv process l) (hs : s.step process (.fill t) = some s') :
    s'.Inv process l := by
  unfold step at hs
  dsimp only at hs
  split at hs
  · rename_i listptr sig hstage
    rw [Option.some.injEq] at hs
    have hin : (s.stage t).Inside := by
      rw [hstage]
      trivial
    have hplace := h.place t
    rw [hstage] at hplace
    obtain ⟨rfl, a, hpending⟩ := hplace
    rw [hpending.load, hpending.touch] at hs
    rw [← hs]
    refine h.inside (g := .filled (endPtr l) sig) hin trivial rfl rfl h.used (fun b hb => ?_)
      rfl rfl rfl ⟨rfl, a, hpending, Function.update_self ..⟩
    have hba : b ≠ a := fun he => hpending.2.2.2 (he ▸ hb)
    exact Function.update_of_ne hba ..
  · cases hs

theorem Inv.terminate {t : ℕ} (h : s.Inv process l) (hs : s.step process (.terminate t) = some s') :
    s'.Inv process l := by
  unfold step at hs
  dsimp only at hs
  split at hs
  · rename_i listptr sig hstage
    rw [Option.some.injEq] at hs
    have hin : (s.stage t).Inside := by
      rw [hstage]
      trivial
    have hplace := h.place t
    rw [hstage] at hplace
    obtain ⟨rfl, a, hpending, helement⟩ := hplace
    rw [hpending.load, hpending.touch] at hs
    rw [← hs]
    refine h.inside (g := .complete sig) hin trivial rfl rfl h.used (fun b _ => rfl) rfl rfl rfl
      ⟨a, ⟨hpending.1.congr fun b hb => ?_, hpending.2⟩, Function.update_self .., helement⟩
    have hba : b ≠ a := fun he => hpending.2.2.2 (he ▸ hb)
    exact Function.update_of_ne hba ..
  · cases hs

theorem Inv.unlock {t : ℕ} (h : s.Inv process l) (hs : s.step process (.unlock t) = some s') :
    ∃ l', s'.Inv process l' := by
  unfold step at hs
  dsimp only at hs
  split at hs
  · rename_i sig hstage
    rw [Option.some.injEq] at hs
    have hin : (s.stage t).Inside := by
      rw [hstage]
      trivial
    have hplace := h.place t
    rw [hstage] at hplace
    obtain ⟨a, ⟨hpath, ha, haused, hal⟩, hend, helement⟩ := hplace
    have hstage' : s'.stage = Function.update s.stage t .idle := by rw [← hs]; rfl
    have hnobody : ∀ u, ¬(s'.stage u).Inside := by
      intro u hu
      rw [hstage'] at hu
      by_cases hut : u = t
      · rw [hut, Function.update_self] at hu
        exact hu
      · rw [Function.update_of_ne hut] at hu
        exact h.place_of_ne hin hut hu
    refine ⟨l ++ [a], ?_, ?_, ?_, ?_, fun u hu => absurd hu (hnobody u),
      fun u v hu => absurd hu (hnobody u), fun u => place_of_not_inside (hnobody u), fun _ => ?_⟩
    · rw [List.nodup_append]
      refine ⟨h.nodup, List.nodup_singleton a, fun b hb c hc he => hal ?_⟩
      rw [List.mem_singleton] at hc
      rw [← hc, ← he]
      exact hb
    · intro b hb
      rw [← hs]
      rw [List.mem_append, List.mem_singleton] at hb
      cases hb with
      | inl hb => exact h.used b hb
      | inr hb => exact hb ▸ haused
    · rw [← hs, List.map_append, List.map_singleton]
      change s.handled ++ (l.map s.element ++ [s.element a]) = s.sent ++ [sig]
      rw [← List.append_assoc, h.handled, helement]
    · rw [← hs]
      exact h.wroteFreed
    · rw [← hs]
      exact path_append.mpr ⟨a, hpath, rfl, ha, hend⟩
  · cases hs

/-! ## `handle_signals` -/

/-- With nobody at the mutex the loop handles all signals of the list. -/
theorem handleLoop_eq {p fuel : ℕ} (hmutex : s.mutex = ⟨none, []⟩)
    (hpath : Path 0 s.next s.signalList l 0) (hfuel : l.length < fuel) :
    ∃ s', s.handleLoop p fuel s.signalList = some s' ∧
      s'.handled = s.handled ++ l.map s.element ∧ s'.signalList = 0 ∧ s'.mutex = s.mutex ∧
      s'.stage = s.stage ∧ s'.sent = s.sent ∧ s'.wroteFreed = s.wroteFreed := by
  induction l generalizing s fuel with
  | nil =>
    have hnil : s.signalList = 0 := hpath
    obtain ⟨fuel, rfl⟩ := Nat.exists_eq_succ_of_ne_zero (Nat.ne_zero_of_lt hfuel)
    refine ⟨s, if_pos hnil, ?_, hnil, rfl, rfl, rfl, rfl⟩
    rw [List.map_nil, List.append_nil]
  | cons a l ih =>
    obtain ⟨fuel, rfl⟩ := Nat.exists_eq_succ_of_ne_zero (Nat.ne_zero_of_lt hfuel)
    obtain ⟨hhead, ha, hrest⟩ := hpath
    have hlock : mutexLock p s.mutex = (.none, ⟨some p, []⟩) := by
      rw [hmutex]
      rfl
    have hunlock : (mutexUnlock p ⟨some p, []⟩).2 = s.mutex := by
      rw [hmutex]
      simp [mutexUnlock]
    let t : SignalState := { s with
      handled := s.handled ++ [s.element a]
      used := s.used.erase a
      signalList := s.next a }
    obtain ⟨u, hu, hhandled, hnil, hm, hstage, hsent, hwrote⟩ :=
      ih (s := t) hmutex hrest (Nat.lt_of_succ_lt_succ hfuel)
    refine ⟨u, ?_, ?_, hnil, hm, hstage, hsent, hwrote⟩
    · rw [handleLoop, hhead, if_neg ha]
      dsimp only
      rw [hlock, if_pos rfl, hunlock]
      exact hu
    · rw [hhandled, List.map_cons, List.append_cons]

theorem Inv.length_lt (h : s.Inv process l) : l.length < s.used.card + 1 := by
  rw [← List.toFinset_card_of_nodup h.nodup]
  refine Nat.lt_succ_of_le (Finset.card_le_card fun a ha => ?_)
  exact h.used a (List.mem_toFinset.mp ha)

theorem Inv.handleSignals (h : s.Inv process l) (hmutex : s.mutex = ⟨none, []⟩) (p : ℕ) :
    ∃ s', s.handleSignals p = some s' ∧ s'.handled = s.sent ∧ s'.Inv process [] := by
  have hnobody : ∀ t, ¬(s.stage t).Inside := by
    intro t ht
    have hlocked := h.locked t ht
    rw [hmutex] at hlocked
    cases hlocked
  have hpath := h.path hnobody
  unfold SignalState.handleSignals
  by_cases hnil : s.signalList = 0
  · have hl : l = [] := by
      cases l with
      | nil => rfl
      | cons a l => exact absurd (hpath.1.symm.trans hnil) hpath.2.1
    subst hl
    rw [if_pos hnil]
    refine ⟨s, rfl, ?_, h⟩
    rw [← h.handled, List.map_nil, List.append_nil]
  · rw [if_neg hnil]
    obtain ⟨s', hs', hhandled, hhead, hm, hstage, hsent, hwrote⟩ :=
      handleLoop_eq (p := p) hmutex hpath h.length_lt
    have hall : s'.handled = s.sent := hhandled.trans h.handled
    have hnobody' : ∀ t, ¬(s'.stage t).Inside := by
      intro t
      rw [hstage]
      exact hnobody t
    refine ⟨s', hs', hall, List.nodup_nil, fun a ha => absurd ha List.not_mem_nil, ?_,
      hwrote.trans h.wroteFreed, fun t ht => absurd ht (hnobody' t), fun t u ht => absurd ht (hnobody' t),
      fun t => place_of_not_inside (hnobody' t), fun _ => hhead⟩
    rw [List.map_nil, List.append_nil, hall, hsent]

theorem Inv.tick {p : ℕ} (h : s.Inv process l) (hc : s.Careful process (.tick p))
    (hs : s.step process (.tick p) = some s') : ∃ l', s'.Inv process l' := by
  change s.handleSignals p = some s' at hs
  cases hc with
  | inl hnil =>
    have hsame : s.handleSignals p = some s := if_pos hnil
    rw [hsame, Option.some.injEq] at hs
    exact ⟨l, hs ▸ h⟩
  | inr hmutex =>
    obtain ⟨t, ht, -, hinv⟩ := h.handleSignals hmutex p
    rw [ht, Option.some.injEq] at hs
    exact ⟨[], hs ▸ hinv⟩

theorem Inv.step {a : SignalAction} (h : s.Inv process l) (hc : s.Careful process a)
    (hs : s.step process a = some s') : ∃ l', s'.Inv process l' := by
  cases a with
  | call t target sig zombie =>
    unfold SignalState.step at hs
    dsimp only at hs
    split at hs
    · rename_i hstage
      have hout : ¬(s.stage t).Inside := by
        rw [hstage]
        exact id
      split at hs
      · rw [Option.some.injEq] at hs
        exact ⟨l, hs ▸ h⟩
      · rw [Option.some.injEq] at hs
        exact ⟨l, hs ▸ h.outside (g := .locking (target, sig)) hout id rfl⟩
    · cases hs
  | lock t => exact ⟨l, h.lock hc hs⟩
  | wait t =>
    unfold SignalState.step at hs
    dsimp only at hs
    split at hs
    · rename_i sig hstage
      have hout : ¬(s.stage t).Inside := by
        rw [hstage]
        exact id
      rw [Option.some.injEq] at hs
      exact ⟨l, hs ▸ h.outside (g := .asleep sig) hout id rfl⟩
    · cases hs
  | walk t => exact ⟨l, h.walk hs⟩
  | link t a => exact ⟨l, h.link hs⟩
  | fill t => exact ⟨l, h.fill hs⟩
  | terminate t => exact ⟨l, h.terminate hs⟩
  | unlock t => exact h.unlock hs
  | tick p => exact h.tick hc hs

theorem Inv.delivers (h : s.Inv process l) : s.Delivers := by
  refine ⟨⟨_, h.handled⟩, h.wroteFreed, fun hmutex p => ?_⟩
  obtain ⟨s', hs', hall, hinv⟩ := h.handleSignals hmutex p
  exact ⟨s', hs', hall, hinv.wroteFreed⟩

/-- The list is empty, and no signal has been sent. -/
structure Fresh (s : SignalState) : Prop where
  signalList : s.signalList = 0
  stage : ∀ t, s.stage t = .idle
  sent : s.sent = []
  handled : s.handled = []
  wroteFreed : s.wroteFreed = false

theorem Fresh.inv (h : s.Fresh) : s.Inv process [] := by
  have hnobody : ∀ t, ¬(s.stage t).Inside := by
    intro t
    rw [h.stage t]
    exact id
  refine ⟨List.nodup_nil, fun a ha => absurd ha List.not_mem_nil, ?_, h.wroteFreed,
    fun t ht => absurd ht (hnobody t), fun t u ht => absurd ht (hnobody t),
    fun t => place_of_not_inside (hnobody t), fun _ => h.signalList⟩
  rw [h.handled, h.sent]
  rfl

end SignalState

/-- In every run in which ticks do not fall into a `send_signal`, no process waits when
the mutex is unlocked, and threads of one process do not call at a time, all signals are
delivered. -/
theorem signals_delivered_of_careful (process : ℕ → ℕ) {s₀ s : SignalState} (h₀ : s₀.Fresh)
    (h : Reach (SignalState.step process) (SignalState.Careful process) s₀ s) : s.Delivers := by
  have hinv : ∃ l, s.Inv process l := by
    refine Reach.invariant (I := fun s => ∃ l, s.Inv process l) ?_ ⟨[], h₀.inv⟩ h
    intro t a u ⟨l, hl⟩ hc hu
    exact hl.step hc hu
  obtain ⟨l, hl⟩ := hinv
  exact hl.delivers

def noSignals : SignalState where
  signalList := 0
  next _ := 0
  element _ := (0, 0)
  used := ∅
  mutex := ⟨none, []⟩
  stage _ := .idle
  sent := []
  handled := []
  wroteFreed := false

/-- Thread 1 sends signal 3 to process 7. -/
def sendOnce : List SignalAction :=
  [.call 1 7 3 false, .lock 1, .walk 1, .link 1 16, .fill 1, .terminate 1, .unlock 1]

/-- A tick comes after the call. -/
theorem signals_delivered_after_call :
    ∃ s, run (SignalState.step id) noSignals (sendOnce ++ [.tick 1]) = some s ∧
      s.sent = [(7, 3)] ∧ s.handled = [(7, 3)] ∧ s.Delivers := by
  have hfresh : noSignals.Fresh := ⟨rfl, fun _ => rfl, rfl, rfl, rfl⟩
  refine ⟨_, rfl, by decide, by decide, signals_delivered_of_careful id hfresh ?_⟩
  have hsteps : AllSteps (SignalState.step id) (SignalState.Careful id) noSignals
      (sendOnce ++ [.tick 1]) :=
    .cons rfl trivial (.cons rfl (Option.some_ne_none 1).symm (.cons rfl trivial (.cons rfl trivial
      (.cons rfl trivial (.cons rfl trivial (.cons rfl rfl (.cons rfl (Or.inr rfl) trivial)))))))
  exact hsteps.reach Reach.start rfl

/-- Thread 1 sends a second signal, and a tick falls between the search for the end of
the list and the new entry: it is linked to an entry that the tick has freed, and the
signal is lost. -/
theorem signals_lost_at_tick :
    ∃ s, run (SignalState.step id) noSignals (sendOnce ++ [.call 1 8 4 false, .lock 1, .walk 1,
        .walk 1, .tick 1, .link 1 32, .fill 1, .terminate 1, .unlock 1]) = some s ∧
      s.sent = [(7, 3), (8, 4)] ∧ s.handled = [(7, 3)] ∧ s.signalList = 0 ∧ s.wroteFreed = true ∧
      ¬s.Delivers := by
  refine ⟨_, rfl, by decide, by decide, by decide, by decide, fun h => ?_⟩
  have hwrote := h.wroteFreed
  revert hwrote
  decide

end VkKernel
