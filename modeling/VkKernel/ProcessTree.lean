import VkKernel.Lib.Trace
import VkKernel.System

/-!
# The tree of processes

Parents and children over `fork`, `exit_process` and `syscall_wait`. A process is
named by the address of its `process_t`. Every process but init has a parent and is
to be in the list of its children. `exit_process` gives its children to init
without adding them to init's list, and `syscall_wait` drops the whole list with
its first element.
-/

namespace VkKernel.Tasking
open Trace

/-- The part of a `process_t` that the tree works on. `exitCode` is the `eax` of the
active thread, where `exit_process` leaves it. -/
structure Relative where
  pid : ℤ
  gid : ℤ
  zombie : Bool
  exitCode : ℕ
  parent : Option ℕ
  children : List ℕ

/-- `used` holds the processes that are live or zombies nobody has waited for. -/
structure Family where
  proc : ℕ → Relative
  used : ℕ → Bool
  processes : ℕ → Option ℕ
  processesSize : ℕ

/-- What `syscall_wait` hands over: the pid and the exit code of the child. -/
structure Reaped where
  child : ℕ
  pid : ℤ
  code : ℕ

namespace Family

def set (s : Family) (p : ℕ) (r : Relative) : Family :=
  { s with proc := Function.update s.proc p r }

/-- The loop of `init_process` over the table of processes. A table that grows has
`rest` in its new half. -/
def register (s : Family) (q : ℕ) (rest : ℕ → Option ℕ) : ℕ × Family :=
  match (List.range' 1 (s.processesSize - 1)).find? fun j => s.processes j = none with
  | some j => (j, { s with processes := Function.update s.processes j (some q) })
  | none =>
    (s.processesSize + 1, { s with
      processes := Function.update (fun j => if j < s.processesSize then s.processes j else rest j)
        (s.processesSize + 1) (some q)
      processesSize := s.processesSize * 2 })

/-- `init_process` for the process `q` that the current process `p` forks. It is in
the group of its parent and the last one of its children. -/
def fork (s : Family) (p q : ℕ) (rest : ℕ → Option ℕ) : Family :=
  let (pid, t) := s.register q rest
  { (t.set p { s.proc p with children := (s.proc p).children ++ [q] }).set q
      ⟨pid, (s.proc p).gid, false, 0, some p, []⟩ with
    used := Function.update s.used q true }

/-- All children get attached to init. -/
def attachToInit (s : Family) (c : ℕ) : Family :=
  s.set c { s.proc c with parent := s.processes 1 }

/-- `exit_process`; init must not exit. -/
def exitProcess (s : Family) (p exitcode : ℕ) : Option Family :=
  if (s.proc p).pid = 1 then none
  else
    let t := (s.proc p).children.foldl attachToInit s
    some (t.set p { t.proc p with zombie := true, exitCode := exitcode })

/-- The children that the four branches of `syscall_wait` take. -/
def waitsFor (s : Family) (p : ℕ) (pid : ℤ) (c : ℕ) : Bool :=
  (s.proc c).zombie &&
    if pid < -1 then decide ((s.proc c).gid = -pid)
    else if pid = -1 then true
    else if pid = 0 then decide ((s.proc c).gid = (s.proc p).gid)
    else decide ((s.proc c).pid = pid)

/-- The loop over the list of children, with the elements before `ptr`. -/
def scanChildren (found : ℕ → Bool) : List ℕ → List ℕ → Option (ℕ × List ℕ)
  | _, [] => none
  | before, c :: rest =>
    if found c then some (c, if before = [] then [] else before ++ rest)
    else scanChildren found (before ++ [c]) rest

/-- One turn of `syscall_wait` from `wait_start` on; without a result the thread goes
to sleep. -/
def wait (s : Family) (p : ℕ) (pid : ℤ) : Option (Reaped × Family) :=
  match scanChildren (s.waitsFor p pid) [] (s.proc p).children with
  | none => none
  | some (c, children) =>
    some (⟨c, (s.proc c).pid, (s.proc c).exitCode⟩, { s.set p { s.proc p with children } with
      used := Function.update s.used c false
      processes := Function.update s.processes (s.proc c).pid.toNat none })

/-- The processes that can take a step. -/
def Runs (s : Family) (p : ℕ) : Prop := s.used p = true ∧ (s.proc p).zombie = false

instance (s : Family) (p : ℕ) : Decidable (s.Runs p) := inferInstanceAs (Decidable (_ ∧ _))

end Family

inductive FamilyAction
  | fork (p q : ℕ) (rest : ℕ → Option ℕ)
  | exit (p exitcode : ℕ)
  | wait (p : ℕ) (pid : ℤ)

/-- One step of a process. A process that is forked gets memory of its own. -/
def Family.step (s : Family) : FamilyAction → Option Family
  | .fork p q rest => if s.Runs p ∧ s.used q = false then some (s.fork p q rest) else none
  | .exit p exitcode => if s.Runs p then s.exitProcess p exitcode else none
  | .wait p pid => if s.Runs p then some ((s.wait p pid).elim s Prod.snd) else none

namespace Family

/-- A process with a parent is once in the parent's list, and a list has only
processes whose parent is its owner. -/
structure Consistent (s : Family) : Prop where
  listed : ∀ p q, s.used q = true → (s.proc q).parent = some p → (s.proc p).children.count q = 1
  owned : ∀ p c, s.used p = true → c ∈ (s.proc p).children →
    s.used c = true ∧ (s.proc c).parent = some p

/-- The child, and no other, leaves the list of the process that waits. -/
structure Reaps (s : Family) (p : ℕ) (r : Reaped) (s' : Family) : Prop where
  mem : r.child ∈ (s.proc p).children
  zombie : (s.proc r.child).zombie = true
  erased : (s'.proc p).children = (s.proc p).children.erase r.child
  kept : ∀ q, q ≠ p → (s'.proc q).children = (s.proc q).children

/-- A process exits without children, and the child that is waited for is not the
first one of several. -/
def Careful (s : Family) : FamilyAction → Prop
  | .fork _ _ _ => True
  | .exit p _ => (s.proc p).children = []
  | .wait p pid => ∀ c rest, (s.proc p).children = c :: rest → s.waitsFor p pid c = true → rest = []

/-- Parents are not freed before their children, and zombies have no children. -/
structure Inv (s : Family) : Prop extends Consistent s where
  parent_used : ∀ p q, s.used q = true → (s.proc q).parent = some p → s.used p = true
  childless : ∀ p, s.used p = true → (s.proc p).zombie = true → (s.proc p).children = []

variable {s s' : Family} {p q c : ℕ}

theorem proc_set_self (s : Family) (p : ℕ) (r : Relative) : (s.set p r).proc p = r :=
  Function.update_self ..

theorem proc_set_of_ne (s : Family) (r : Relative) (h : p ≠ q) : (s.set q r).proc p = s.proc p :=
  Function.update_of_ne h ..

/-! ## `fork` -/

theorem register_proc (s : Family) (q : ℕ) (rest : ℕ → Option ℕ) :
    (s.register q rest).2.proc = s.proc := by
  unfold register
  split <;> rfl

theorem fork_children (s : Family) (p q : ℕ) (rest : ℕ → Option ℕ) (x : ℕ) :
    ((s.fork p q rest).proc x).children =
      if x = q then [] else if x = p then (s.proc p).children ++ [q] else (s.proc x).children := by
  unfold fork
  dsimp only
  by_cases hq : x = q
  · rw [hq, proc_set_self, if_pos rfl]
  · rw [proc_set_of_ne _ _ hq, if_neg hq]
    by_cases hp : x = p
    · rw [hp, proc_set_self, if_pos rfl]
    · rw [proc_set_of_ne _ _ hp, if_neg hp, register_proc]

theorem fork_of_ne (s : Family) (rest : ℕ → Option ℕ) {x : ℕ} (h : x ≠ q) :
    ((s.fork p q rest).proc x).parent = (s.proc x).parent ∧
      ((s.fork p q rest).proc x).zombie = (s.proc x).zombie := by
  unfold fork
  dsimp only
  rw [proc_set_of_ne _ _ h]
  by_cases hp : x = p
  · rw [hp, proc_set_self]
    exact ⟨rfl, rfl⟩
  · rw [proc_set_of_ne _ _ hp, register_proc]
    exact ⟨rfl, rfl⟩

theorem fork_self (s : Family) (p q : ℕ) (rest : ℕ → Option ℕ) :
    ((s.fork p q rest).proc q).parent = some p ∧ ((s.fork p q rest).proc q).zombie = false := by
  unfold fork
  dsimp only
  rw [proc_set_self]
  exact ⟨rfl, rfl⟩

theorem fork_used (s : Family) (p q x : ℕ) (rest : ℕ → Option ℕ) :
    (s.fork p q rest).used x = true ↔ x = q ∨ s.used x = true := by
  change Function.update s.used q true x = true ↔ _
  by_cases hx : x = q
  · rw [hx, Function.update_self]
    exact iff_of_true rfl (Or.inl rfl)
  · rw [Function.update_of_ne hx]
    exact (or_iff_right hx).symm

theorem Inv.fork (h : s.Inv) (hp : s.Runs p) (hq : s.used q = false) (rest : ℕ → Option ℕ) :
    (s.fork p q rest).Inv := by
  have hne : ∀ x, s.used x = true → x ≠ q := by
    intro x hx he
    rw [he, hq] at hx
    cases hx
  have hpq := hne p hp.1
  refine ⟨⟨fun x y hy hxy => ?_, fun x y hx hy => ?_⟩, fun x y hy hxy => ?_, fun x hx hz => ?_⟩
  · rw [fork_used] at hy
    rw [fork_children]
    by_cases hyq : y = q
    · -- the new process is in no list, and added to the one of its parent
      rw [hyq, (fork_self s p q rest).1] at hxy
      have hnew : q ∉ (s.proc p).children := fun hmem => hne q (h.owned p q hp.1 hmem).1 rfl
      rw [← Option.some.inj hxy, if_neg hpq, if_pos rfl, hyq, List.count_append,
        List.count_singleton_self, List.count_eq_zero.mpr hnew]
    · rw [(fork_of_ne s rest hyq).1] at hxy
      have hused := hy.resolve_left hyq
      rw [if_neg (hne x (h.parent_used x y hused hxy))]
      by_cases hxp : x = p
      · rw [if_pos hxp, List.count_append, List.count_singleton, if_neg (by simpa using Ne.symm hyq),
          ← hxp, h.listed x y hused hxy]
      · rw [if_neg hxp]
        exact h.listed x y hused hxy
  · rw [fork_used] at hx ⊢
    rw [fork_children] at hy
    split at hy
    · cases hy
    · rename_i hxq
      have hused := hx.resolve_left hxq
      have hold : y ∈ (s.proc x).children →
          (y = q ∨ s.used y = true) ∧ ((s.fork p q rest).proc y).parent = some x := by
        intro hmem
        have hy := h.owned x y hused hmem
        rw [(fork_of_ne s rest (hne y hy.1)).1]
        exact ⟨Or.inr hy.1, hy.2⟩
      split at hy
      · rename_i hxp
        rw [List.mem_append, List.mem_singleton] at hy
        cases hy with
        | inl hy => exact hold (hxp ▸ hy)
        | inr hy =>
          rw [hy, hxp]
          exact ⟨Or.inl rfl, (fork_self s p q rest).1⟩
      · exact hold hy
  · rw [fork_used] at hy ⊢
    by_cases hyq : y = q
    · rw [hyq, (fork_self s p q rest).1] at hxy
      rw [← Option.some.inj hxy]
      exact Or.inr hp.1
    · rw [(fork_of_ne s rest hyq).1] at hxy
      exact Or.inr (h.parent_used x y (hy.resolve_left hyq) hxy)
  · rw [fork_used] at hx
    rw [fork_children]
    by_cases hxq : x = q
    · rw [if_pos hxq]
    · rw [(fork_of_ne s rest hxq).2] at hz
      have hxp : x ≠ p := by
        intro he
        rw [he, hp.2] at hz
        cases hz
      rw [if_neg hxq, if_neg hxp]
      exact h.childless x (hx.resolve_left hxq) hz

/-! ## `exit_process` -/

theorem Inv.exitProcess (h : s.Inv) {exitcode : ℕ} (hc : (s.proc p).children = [])
    (hexit : s.exitProcess p exitcode = some s') : s'.Inv := by
  unfold Family.exitProcess at hexit
  split at hexit
  · cases hexit
  rw [hc, List.foldl_nil, Option.some.injEq] at hexit
  have hsame : ∀ x, (s'.proc x).parent = (s.proc x).parent ∧
      (s'.proc x).children = (s.proc x).children := by
    intro x
    rw [← hexit]
    by_cases hx : x = p
    · rw [hx, proc_set_self]
      exact ⟨rfl, rfl⟩
    · rw [proc_set_of_ne _ _ hx]
      exact ⟨rfl, rfl⟩
  have hused : s'.used = s.used := by
    rw [← hexit]
    rfl
  refine ⟨⟨fun x y hy hxy => ?_, fun x y hx hy => ?_⟩, fun x y hy hxy => ?_, fun x hx hz => ?_⟩
  · rw [hused] at hy
    rw [(hsame y).1] at hxy
    rw [(hsame x).2]
    exact h.listed x y hy hxy
  · rw [hused] at hx ⊢
    rw [(hsame x).2] at hy
    rw [(hsame y).1]
    exact h.owned x y hx hy
  · rw [hused] at hy ⊢
    rw [(hsame y).1] at hxy
    exact h.parent_used x y hy hxy
  · rw [hused] at hx
    rw [(hsame x).2]
    by_cases hxp : x = p
    · rw [hxp, hc]
    · rw [← hexit, proc_set_of_ne _ _ hxp] at hz
      exact h.childless x hx hz

/-! ## `syscall_wait` -/

theorem scanChildren_eq_some {found : ℕ → Bool} {before l l' : List ℕ}
    (h : scanChildren found before l = some (c, l')) :
    ∃ mid post, l = mid ++ c :: post ∧ found c = true ∧ c ∉ mid ∧
      l' = if before ++ mid = [] then [] else before ++ mid ++ post := by
  induction l generalizing before with
  | nil => cases h
  | cons d rest ih =>
    unfold scanChildren at h
    split at h
    · rename_i hd
      rw [Option.some.injEq, Prod.mk.injEq] at h
      obtain ⟨rfl, rfl⟩ := h
      exact ⟨[], rest, rfl, hd, List.not_mem_nil, by rw [List.append_nil]⟩
    · rename_i hd
      obtain ⟨mid, post, hrest, hc, hmid, hl'⟩ := ih h
      refine ⟨d :: mid, post, by rw [hrest, List.cons_append], hc, ?_, ?_⟩
      · intro hmem
        cases hmem with
        | head => exact hd hc
        | tail _ hmem => exact hmid hmem
      · rw [hl', List.append_assoc, List.singleton_append]

/-- A careful wait erases the child that it reaps. -/
theorem wait_eq_some {pid : ℤ} {r : Reaped} (hc : s.Careful (.wait p pid))
    (h : s.wait p pid = some (r, s')) :
    r.child ∈ (s.proc p).children ∧ (s.proc r.child).zombie = true ∧
      s'.used = Function.update s.used r.child false ∧
      s'.proc = Function.update s.proc p { s.proc p with
        children := (s.proc p).children.erase r.child } := by
  unfold wait at h
  split at h
  · cases h
  rename_i c l hscan
  rw [Option.some.injEq, Prod.mk.injEq] at h
  obtain ⟨rfl, rfl⟩ := h
  obtain ⟨mid, post, hl, hfound, hmid, rfl⟩ := scanChildren_eq_some hscan
  have herase : (s.proc p).children.erase c = mid ++ post := by
    rw [hl, List.erase_append_right _ hmid, List.erase_cons_head]
  have hkept : (if [] ++ mid = [] then [] else [] ++ mid ++ post) = mid ++ post := by
    rw [List.nil_append]
    split
    · -- the first child is the only one
      rename_i hnil
      rw [hnil, List.nil_append] at hl ⊢
      exact (hc c post hl hfound).symm
    · rfl
  refine ⟨?_, ?_, rfl, ?_⟩
  · rw [hl]
    exact List.mem_append_right _ (List.mem_cons_self ..)
  · unfold waitsFor at hfound
    rw [Bool.and_eq_true] at hfound
    exact hfound.1
  · rw [herase, ← hkept]
    rfl

theorem reaps_of_careful {pid : ℤ} {r : Reaped} (hc : s.Careful (.wait p pid))
    (h : s.wait p pid = some (r, s')) : s.Reaps p r s' := by
  obtain ⟨hmem, hz, -, hproc⟩ := wait_eq_some hc h
  refine ⟨hmem, hz, ?_, fun q hq => ?_⟩
  · rw [hproc, Function.update_self]
  · rw [hproc, Function.update_of_ne hq]

theorem Inv.wait (h : s.Inv) (hp : s.Runs p) {pid : ℤ} {r : Reaped}
    (hc : s.Careful (.wait p pid)) (hwait : s.wait p pid = some (r, s')) : s'.Inv := by
  obtain ⟨hmem, hz, hused, hproc⟩ := wait_eq_some hc hwait
  have hreap := h.owned p r.child hp.1 hmem
  have hleaf := h.childless r.child hreap.1 hz
  have hused' : ∀ x, s'.used x = true ↔ x ≠ r.child ∧ s.used x = true := by
    intro x
    rw [hused]
    by_cases hx : x = r.child
    · rw [hx, Function.update_self]
      exact iff_of_false Bool.false_ne_true fun hne => hne.1 rfl
    · rw [Function.update_of_ne hx]
      exact (and_iff_right hx).symm
  have hsame : ∀ x, (s'.proc x).parent = (s.proc x).parent ∧
      (s'.proc x).zombie = (s.proc x).zombie ∧
      (s'.proc x).children = if x = p then (s.proc p).children.erase r.child
        else (s.proc x).children := by
    intro x
    rw [hproc]
    by_cases hx : x = p
    · rw [hx, Function.update_self, if_pos rfl]
      exact ⟨rfl, rfl, rfl⟩
    · rw [Function.update_of_ne hx, if_neg hx]
      exact ⟨rfl, rfl, rfl⟩
  refine ⟨⟨fun x y hy hxy => ?_, fun x y hx hy => ?_⟩, fun x y hy hxy => ?_, fun x hx hzx => ?_⟩
  · rw [hused'] at hy
    rw [(hsame y).1] at hxy
    rw [(hsame x).2.2]
    split
    · rename_i hxp
      rw [List.count_erase_of_ne hy.1, ← hxp]
      exact h.listed x y hy.2 hxy
    · exact h.listed x y hy.2 hxy
  · rw [hused'] at hx ⊢
    rw [(hsame x).2.2] at hy
    rw [(hsame y).1]
    split at hy
    · rename_i hxp
      have hold := h.owned p y hp.1 (List.mem_of_mem_erase hy)
      refine ⟨⟨fun he => ?_, hold.1⟩, hxp ▸ hold.2⟩
      have hcount := List.count_pos_iff.mpr hy
      rw [he, List.count_erase_self, h.listed p r.child hreap.1 hreap.2] at hcount
      omega
    · rename_i hxp
      have hold := h.owned x y hx.2 hy
      refine ⟨⟨fun he => hxp ?_, hold.1⟩, hold.2⟩
      rw [he, hreap.2] at hold
      exact (Option.some.inj hold.2).symm
  · rw [hused'] at hy ⊢
    rw [(hsame y).1] at hxy
    refine ⟨fun he => ?_, h.parent_used x y hy.2 hxy⟩
    have hcount := h.listed x y hy.2 hxy
    rw [he, hleaf, List.count_nil] at hcount
    omega
  · rw [hused'] at hx
    rw [(hsame x).2.1] at hzx
    rw [(hsame x).2.2]
    split
    · rename_i hxp
      rw [hxp, hp.2] at hzx
      cases hzx
    · exact h.childless x hx.2 hzx

theorem Inv.step (h : s.Inv) {a : FamilyAction} (hc : s.Careful a) (hstep : s.step a = some s') :
    s'.Inv := by
  cases a with
  | fork p q rest =>
    change (if s.Runs p ∧ s.used q = false then some (s.fork p q rest) else none) = some s' at hstep
    split at hstep
    · rename_i hpq
      rw [← Option.some.inj hstep]
      exact h.fork hpq.1 hpq.2 rest
    · cases hstep
  | exit p exitcode =>
    change (if s.Runs p then s.exitProcess p exitcode else none) = some s' at hstep
    split at hstep
    · exact h.exitProcess hc hstep
    · cases hstep
  | wait p pid =>
    change (if s.Runs p then some ((s.wait p pid).elim s Prod.snd) else none) = some s' at hstep
    split at hstep
    · rename_i hp
      rw [← Option.some.inj hstep]
      cases hwait : s.wait p pid with
      | none => exact h
      | some result => exact h.wait hp hc hwait
    · cases hstep

end Family

/-- Init has been spawned and is the only process. -/
structure OnlyInit (s : Family) (p : ℕ) : Prop where
  used_iff : ∀ q, s.used q = true ↔ q = p
  parent : (s.proc p).parent = none
  children : (s.proc p).children = []

theorem OnlyInit.inv {s : Family} {p : ℕ} (h : OnlyInit s p) : s.Inv := by
  have hnone : ∀ q, s.used q = true → (s.proc q).parent = none ∧ (s.proc q).children = [] := by
    intro q hq
    rw [(h.used_iff q).mp hq]
    exact ⟨h.parent, h.children⟩
  refine ⟨⟨fun x y hy hxy => ?_, fun x y hx hy => ?_⟩, fun x y hy hxy => ?_,
    fun x hx _ => (hnone x hx).2⟩
  · rw [(hnone y hy).1] at hxy
    cases hxy
  · rw [(hnone x hx).2] at hy
    cases hy
  · rw [(hnone y hy).1] at hxy
    cases hxy

/-- In every run in which only processes without children exit and only the last child
of a list is reaped from its head, parents and children agree, and a wait takes
exactly the child that it reaps from the list. -/
theorem family_consistent_of_careful {s₀ s : Family} {init : ℕ} (h₀ : OnlyInit s₀ init)
    (h : Reach Family.step Family.Careful s₀ s) :
    s.Consistent ∧ ∀ p pid r s', s.Careful (.wait p pid) → s.wait p pid = some (r, s') →
      s.Reaps p r s' := by
  have hinv : s.Inv := Reach.invariant (fun _ _ _ ht hc hu => ht.step hc hu) h₀.inv h
  exact ⟨hinv.toConsistent, fun p pid r s' hc hwait => Family.reaps_of_careful hc hwait⟩

/-- Init as process 1 at address 100. -/
def initOnly : Family where
  proc _ := ⟨1, 1, false, 0, none, []⟩
  used q := q = 100
  processes j := if j = 1 then some 100 else none
  processesSize := 10

theorem initOnly_onlyInit : OnlyInit initOnly 100 :=
  ⟨fun _ => decide_eq_true_iff, rfl, rfl⟩

/-- Init has two children, and the second one exits. -/
def secondExits : List FamilyAction :=
  [.fork 100 101 fun _ => none, .fork 100 102 fun _ => none, .exit 102 256]

theorem family_consistent_of_careful_second :
    ∃ s r s', run Family.step initOnly secondExits = some s ∧ s.wait 100 (-1) = some (r, s') ∧
      (r.pid, r.code) = (3, 256) ∧ s.Consistent ∧ s.Reaps 100 r s' := by
  have hfork : Reach Family.step Family.Careful initOnly _ :=
    Reach.start.next (show Family.Careful _ (.fork 100 101 fun _ => none) from trivial) rfl
  have hfork' := hfork.next (show Family.Careful _ (.fork 100 102 fun _ => none) from trivial) rfl
  have hexit := hfork'.next (show Family.Careful _ (.exit 102 256) from rfl) rfl
  have hcons := family_consistent_of_careful initOnly_onlyInit hexit
  refine ⟨_, _, _, rfl, rfl, by decide, hcons.1, hcons.2 100 (-1) _ _ (fun c rest hc hw => ?_) rfl⟩
  -- the first child is not a zombie
  have hfirst : c = 101 := (List.cons.inj hc).1.symm
  rw [hfirst] at hw
  exact absurd hw (by decide)

/-- Init has two children, and waits for the first one: the second one is in no
list. A child of a process that exits is in no list, either. -/
theorem family_loses_children :
    (∃ s, run Family.step initOnly [.fork 100 101 fun _ => none, .fork 100 102 fun _ => none,
        .exit 101 256, .wait 100 (-1)] = some s ∧ ¬s.Consistent) ∧
      ∃ s, run Family.step initOnly [.fork 100 101 fun _ => none, .fork 101 102 fun _ => none,
        .exit 101 256] = some s ∧ ¬s.Consistent := by
  refine ⟨⟨_, rfl, fun h => ?_⟩, ⟨_, rfl, fun h => ?_⟩⟩
  · have hone := h.listed 100 102 (by decide) (by decide)
    revert hone
    decide
  · have hone := h.listed 100 102 (by decide) (by decide)
    revert hone
    decide

end VkKernel.Tasking
