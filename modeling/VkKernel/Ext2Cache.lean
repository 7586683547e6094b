import VkKernel.Lib.Trace
import VkKernel.Mutex

/-!
# The inode cache

`ext2_std_inode_read` as a sequence of steps. A process can be switched out at
each read of the disk and at each operation on the cache mutex, so the code
between two of these is one step.
-/

namespace VkKernel.Ext2
open Trace

/-! ## The steps of `ext2_std_inode_read` -/

/-- A node in memory: its address and its inode number. -/
structure CachedNode where
  addr : ℕ
  inodeNbr : ℕ
deriving DecidableEq, Repr

/-- Where a process is in its call for an inode: asleep in `mutex_wait`, before
the read of the group descriptor, before the read of the inode, and with the new
node before `mutex_lock`, between the lock and the append, and before
`mutex_unlock`. -/
inductive Pc
  | idle
  | waiting (inode : ℕ)
  | missed (inode : ℕ)
  | descriptorRead (inode : ℕ)
  | normalized (node : CachedNode)
  | locked (node : CachedNode)
  | appended (node : CachedNode)
deriving DecidableEq, Repr

/-- `inodeCache` has `inode_cache_size` entries. `nextAddr` is the address of the
next new node. `opened` is ghost state: the nodes that calls have returned. -/
structure CacheState where
  inodeCache : List CachedNode
  mutex : Mutex
  pc : ℕ → Pc
  nextAddr : ℕ
  opened : List CachedNode

inductive Action
  | call (inode : ℕ)
  | resume
  | readDescriptor (ok : Bool)
  | readInode (ok : Bool)
  | lock
  | append
  | unlock
deriving DecidableEq, Repr

namespace CacheState

def goto (s : CacheState) (p : ℕ) (c : Pc) : CacheState :=
  { s with pc := Function.update s.pc p c }

def opens (s : CacheState) (n : CachedNode) : CacheState := { s with opened := n :: s.opened }

/-- The loop over the cache. -/
def lookup (s : CacheState) (p inode : ℕ) : CacheState :=
  match s.inodeCache.find? fun n => n.inodeNbr = inode with
  | some n => (s.goto p .idle).opens n
  | none => s.goto p (.missed inode)

/-- One step of process `p`. -/
def step (s : CacheState) : ℕ × Action → Option CacheState
  | (p, .call inode) =>
    if s.pc p ≠ .idle then none
    else if s.mutex.lockedBy ≠ none then
      some { s.goto p (.waiting inode) with mutex := mutexWait p s.mutex }
    else some (s.lookup p inode)
  | (p, .resume) =>
    match s.pc p with
    | .waiting inode => some (s.lookup p inode)
    | _ => none
  | (p, .readDescriptor ok) =>
    match s.pc p with
    | .missed inode => some (s.goto p (if ok then .descriptorRead inode else .idle))
    | _ => none
  | (p, .readInode ok) =>
    match s.pc p with
    | .descriptorRead inode =>
      if ok then
        some { s.goto p (.normalized ⟨s.nextAddr, inode⟩) with nextAddr := s.nextAddr + 1 }
      else some (s.goto p .idle)
    | _ => none
  | (p, .lock) =>
    match s.pc p with
    -- the error that `mutex_lock` returns for a mutex of another process is not looked at
    | .normalized n => some { s.goto p (.locked n) with mutex := (mutexLock p s.mutex).2 }
    | _ => none
  | (p, .append) =>
    match s.pc p with
    | .locked n => some { s.goto p (.appended n) with inodeCache := s.inodeCache ++ [n] }
    | _ => none
  | (p, .unlock) =>
    match s.pc p with
    | .appended n =>
      some { (s.goto p .idle).opens n with mutex := (mutexUnlock p s.mutex).2 }
    | _ => none

end CacheState

/-- The inode that a process has not found in the cache and has not yet added
to it. -/
def Pc.pending : Pc → Option ℕ
  | .idle | .waiting _ | .appended _ => none
  | .missed inode | .descriptorRead inode => some inode
  | .normalized n | .locked n => some n.inodeNbr

/-- The process whose next step searches the cache for this inode. -/
def CacheState.Searches (s : CacheState) : ℕ × Action → ℕ → Prop
  | (_, .call inode), i => i = inode ∧ s.mutex.lockedBy = none
  | (p, .resume), i => s.pc p = .waiting i
  | _, _ => False

/-- No process searches the cache for an inode that another process is about to
add to it. -/
def CacheState.Careful (s : CacheState) (a : ℕ × Action) : Prop :=
  ∀ inode, s.Searches a inode → ∀ q, (s.pc q).pending ≠ some inode

/-! ## One node for each inode -/

/-- What careful steps keep true of the cache, the processes and the nodes that
calls have returned. -/
structure CacheInv (cache : List CachedNode) (pc : ℕ → Pc) (opened : List CachedNode) : Prop where
  nodup : (cache.map CachedNode.inodeNbr).Nodup
  pending_unique : ∀ p q i, (pc p).pending = some i → (pc q).pending = some i → p = q
  pending_new : ∀ p i, (pc p).pending = some i → i ∉ cache.map CachedNode.inodeNbr
  appended_mem : ∀ p n, pc p = .appended n → n ∈ cache
  opened_mem : ∀ n ∈ opened, n ∈ cache

section Invariant
variable {cache opened : List CachedNode} {pc : ℕ → Pc} {p : ℕ}

/-- A process goes on without a search and without an append. -/
theorem CacheInv.goto (h : CacheInv cache pc opened) {c : Pc}
    (hc : c.pending = none ∨ c.pending = (pc p).pending) (happ : ∀ n, c ≠ .appended n) :
    CacheInv cache (Function.update pc p c) opened := by
  have hback : ∀ q i, (Function.update pc p c q).pending = some i → (pc q).pending = some i := by
    intro q i hq
    by_cases hqp : q = p
    · subst hqp
      rw [Function.update_self] at hq
      rcases hc with hc | hc
      · rw [hc] at hq
        cases hq
      · rwa [hc] at hq
    · rwa [Function.update_of_ne hqp] at hq
  refine ⟨h.nodup, ?_, ?_, ?_, h.opened_mem⟩
  · intro q r i hq hr
    exact h.pending_unique q r i (hback q i hq) (hback r i hr)
  · intro q i hq
    exact h.pending_new q i (hback q i hq)
  · intro q n hq
    by_cases hqp : q = p
    · subst hqp
      rw [Function.update_self] at hq
      exact absurd hq (happ n)
    · rw [Function.update_of_ne hqp] at hq
      exact h.appended_mem q n hq

theorem CacheInv.opens (h : CacheInv cache pc opened) {n : CachedNode} (hn : n ∈ cache) :
    CacheInv cache pc (n :: opened) where
  nodup := h.nodup
  pending_unique := h.pending_unique
  pending_new := h.pending_new
  appended_mem := h.appended_mem
  opened_mem m hm := by
    rcases List.mem_cons.mp hm with rfl | hm
    · exact hn
    · exact h.opened_mem m hm

/-- A search that finds nothing, for an inode that nobody is about to add. -/
theorem CacheInv.miss (h : CacheInv cache pc opened) {inode : ℕ}
    (hnew : inode ∉ cache.map CachedNode.inodeNbr) (hfree : ∀ q, (pc q).pending ≠ some inode) :
    CacheInv cache (Function.update pc p (.missed inode)) opened := by
  have hcase : ∀ q i, (Function.update pc p (.missed inode) q).pending = some i →
      q = p ∧ i = inode ∨ q ≠ p ∧ (pc q).pending = some i := by
    intro q i hq
    by_cases hqp : q = p
    · subst hqp
      rw [Function.update_self] at hq
      exact Or.inl ⟨rfl, (Option.some.inj hq).symm⟩
    · rw [Function.update_of_ne hqp] at hq
      exact Or.inr ⟨hqp, hq⟩
  refine ⟨h.nodup, ?_, ?_, ?_, h.opened_mem⟩
  · intro q r i hq hr
    rcases hcase q i hq with ⟨rfl, rfl⟩ | ⟨-, hq'⟩
    · rcases hcase r i hr with ⟨rfl, -⟩ | ⟨-, hr'⟩
      · rfl
      · exact absurd hr' (hfree r)
    · rcases hcase r i hr with ⟨rfl, rfl⟩ | ⟨-, hr'⟩
      · exact absurd hq' (hfree q)
      · exact h.pending_unique q r i hq' hr'
  · intro q i hq
    rcases hcase q i hq with ⟨-, rfl⟩ | ⟨-, hq'⟩
    · exact hnew
    · exact h.pending_new q i hq'
  · intro q n hq
    by_cases hqp : q = p
    · subst hqp
      rw [Function.update_self] at hq
      cases hq
    · rw [Function.update_of_ne hqp] at hq
      exact h.appended_mem q n hq

theorem CacheInv.append (h : CacheInv cache pc opened) {n : CachedNode} (hn : pc p = .locked n) :
    CacheInv (cache ++ [n]) (Function.update pc p (.appended n)) opened := by
  have hp : (pc p).pending = some n.inodeNbr := by rw [hn]; rfl
  have hback : ∀ q i, (Function.update pc p (.appended n) q).pending = some i →
      q ≠ p ∧ (pc q).pending = some i := by
    intro q i hq
    by_cases hqp : q = p
    · subst hqp
      rw [Function.update_self] at hq
      cases hq
    · rw [Function.update_of_ne hqp] at hq
      exact ⟨hqp, hq⟩
  refine ⟨?_, ?_, ?_, ?_, fun m hm => List.mem_append_left _ (h.opened_mem m hm)⟩
  · rw [List.map_append, List.map_singleton, ← List.concat_eq_append, List.nodup_concat]
    exact ⟨h.pending_new p _ hp, h.nodup⟩
  · intro q r i hq hr
    exact h.pending_unique q r i (hback q i hq).2 (hback r i hr).2
  · intro q i hq
    obtain ⟨hqp, hq'⟩ := hback q i hq
    rw [List.map_append, List.mem_append, not_or]
    refine ⟨h.pending_new q i hq', ?_⟩
    rw [List.map_singleton, List.mem_singleton]
    rintro rfl
    exact hqp (h.pending_unique q p _ hq' hp)
  · intro q m hq
    by_cases hqp : q = p
    · subst hqp
      rw [Function.update_self] at hq
      cases hq
      exact List.mem_append_right _ (List.mem_singleton_self n)
    · rw [Function.update_of_ne hqp] at hq
      exact List.mem_append_left _ (h.appended_mem q m hq)

end Invariant

def CacheState.Inv (s : CacheState) : Prop := CacheInv s.inodeCache s.pc s.opened

theorem CacheState.Inv.lookup {s : CacheState} (h : s.Inv) {p inode : ℕ}
    (hfree : ∀ q, (s.pc q).pending ≠ some inode) : (s.lookup p inode).Inv := by
  unfold CacheState.lookup
  cases hf : s.inodeCache.find? fun n => n.inodeNbr = inode with
  | some n =>
    exact CacheInv.opens (CacheInv.goto h (Or.inl rfl) fun _ => Pc.noConfusion)
      (List.mem_of_find?_eq_some hf)
  | none =>
    apply CacheInv.miss h _ hfree
    intro hmem
    obtain ⟨n, hn, hi⟩ := List.mem_map.mp hmem
    have := List.find?_eq_none.mp hf n hn
    simp only [decide_eq_true_eq] at this
    exact this hi

/-- The step lemma: one case for each action. -/
theorem CacheState.Inv.step {s t : CacheState} {a : ℕ × Action} (h : s.Inv) (hc : s.Careful a)
    (hs : s.step a = some t) : t.Inv := by
  obtain ⟨p, a⟩ := a
  cases a with
  | call inode =>
    simp only [CacheState.step] at hs
    split_ifs at hs with hidle hlock
    · cases hs
      exact CacheInv.goto h (Or.inl rfl) fun _ => Pc.noConfusion
    · cases hs
      exact h.lookup fun q => hc inode ⟨rfl, not_not.mp hlock⟩ q
  | resume =>
    simp only [CacheState.step] at hs
    split at hs
    · rename_i inode hpc
      cases hs
      exact h.lookup fun q => hc inode hpc q
    · cases hs
  | readDescriptor ok =>
    simp only [CacheState.step] at hs
    split at hs
    · rename_i inode hpc
      cases hs
      apply CacheInv.goto h
      · cases ok
        · exact Or.inl rfl
        · right
          rw [hpc]
          rfl
      · cases ok <;> exact fun _ => Pc.noConfusion
    · cases hs
  | readInode ok =>
    simp only [CacheState.step] at hs
    split at hs
    · rename_i inode hpc
      split_ifs at hs
      · cases hs
        apply CacheInv.goto h _ fun _ => Pc.noConfusion
        right
        rw [hpc]
        rfl
      · cases hs
        exact CacheInv.goto h (Or.inl rfl) fun _ => Pc.noConfusion
    · cases hs
  | lock =>
    simp only [CacheState.step] at hs
    split at hs
    · rename_i n hpc
      cases hs
      apply CacheInv.goto h _ fun _ => Pc.noConfusion
      right
      rw [hpc]
      rfl
    · cases hs
  | append =>
    simp only [CacheState.step] at hs
    split at hs
    · rename_i n hpc
      cases hs
      exact CacheInv.append h hpc
    · cases hs
  | unlock =>
    simp only [CacheState.step] at hs
    split at hs
    · rename_i n hpc
      cases hs
      exact CacheInv.opens (CacheInv.goto h (Or.inl rfl) fun _ => Pc.noConfusion)
        (h.appended_mem p n hpc)
    · cases hs

/-- No process is in a call, and the cache holds each inode once. -/
structure CacheState.Fresh (s : CacheState) : Prop where
  nodup : (s.inodeCache.map CachedNode.inodeNbr).Nodup
  idle : ∀ p, s.pc p = .idle
  opened : s.opened = []

theorem CacheState.Fresh.inv {s : CacheState} (h : s.Fresh) : s.Inv where
  nodup := h.nodup
  pending_unique p q i hp := by
    rw [h.idle] at hp
    cases hp
  pending_new p i hp := by
    rw [h.idle] at hp
    cases hp
  appended_mem p n hp := by
    rw [h.idle] at hp
    cases hp
  opened_mem n hn := by
    rw [h.opened] at hn
    cases hn

/-- In every run in which no process searches the cache for an inode that
another one has missed and not yet added, the cache holds one node for each
inode, and all calls for an inode have returned this node. -/
theorem cache_one_node_of_careful {s t : CacheState} (hs : s.Fresh)
    (h : Reach CacheState.step CacheState.Careful s t) :
    (t.inodeCache.map CachedNode.inodeNbr).Nodup ∧
      ∀ m ∈ t.opened, ∀ n ∈ t.opened, m.inodeNbr = n.inodeNbr → m = n := by
  have hinv : t.Inv := h.invariant (fun _ _ _ hi hc hst => hi.step hc hst) hs.inv
  refine ⟨hinv.nodup, fun m hm n hn heq => ?_⟩
  exact List.inj_on_of_nodup_map hinv.nodup (hinv.opened_mem m hm) (hinv.opened_mem n hn) heq

/-- The cache after `ext2_init`, which has read the root directory. -/
def mountedCache : CacheState where
  inodeCache := [⟨0, 2⟩]
  mutex := ⟨none, []⟩
  pc := fun _ => .idle
  nextAddr := 1
  opened := []

theorem mountedCache_fresh : mountedCache.Fresh where
  nodup := List.nodup_singleton _
  idle _ := rfl
  opened := rfl

theorem CacheState.careful_of_idle {s : CacheState} (h : ∀ q, s.pc q = .idle) (a : ℕ × Action) :
    s.Careful a := by
  intro inode _ q hq
  rw [h q] at hq
  cases hq

theorem CacheState.careful_of_goes_on (s : CacheState) (p : ℕ) {a : Action}
    (hc : ∀ i, a ≠ .call i) (hr : a ≠ .resume) : s.Careful (p, a) := by
  intro inode h
  cases a with
  | call i => exact absurd rfl (hc i)
  | resume => exact absurd rfl hr
  | _ => cases h

/-- Process 1 opens inode 5 from the disk, process 2 opens it after that. -/
theorem cache_one_node_two_calls : ∃ t,
    Reach CacheState.step CacheState.Careful mountedCache t ∧
      t.opened = [⟨1, 5⟩, ⟨1, 5⟩] ∧ (t.inodeCache.map CachedNode.inodeNbr).Nodup := by
  have goes : ∀ {s : CacheState} {a : Action}, (∀ i, a ≠ .call i) → a ≠ .resume →
      s.Careful (1, a) := fun hc hr => CacheState.careful_of_goes_on _ 1 hc hr
  have hmiss : mountedCache.lookup 1 5 = mountedCache.goto 1 (.missed 5) := rfl
  have h1 : Reach CacheState.step CacheState.Careful mountedCache _ :=
    Reach.start.next (a := (1, .call 5)) (CacheState.careful_of_idle (fun _ => rfl) _) rfl
  have h2 := h1.next (a := (1, .readDescriptor true))
    (goes (fun _ => Action.noConfusion) (by decide)) rfl
  have h3 := h2.next (a := (1, .readInode true))
    (goes (fun _ => Action.noConfusion) (by decide)) rfl
  have h4 := h3.next (a := (1, .lock)) (goes (fun _ => Action.noConfusion) (by decide)) rfl
  have h5 := h4.next (a := (1, .append)) (goes (fun _ => Action.noConfusion) (by decide)) rfl
  have h6 := h5.next (a := (1, .unlock)) (goes (fun _ => Action.noConfusion) (by decide)) rfl
  have h7 := h6.next (a := (2, .call 5)) (CacheState.careful_of_idle (fun q => by
    by_cases hq : q = 1
    · subst hq
      rfl
    · simp only [hmiss, CacheState.goto, CacheState.opens, Function.update_of_ne hq]
      rfl) _) rfl
  exact ⟨_, h7, rfl, (cache_one_node_of_careful mountedCache_fresh h7).1⟩

/-- Process 2 searches the cache while process 1 waits for the disk, and both
add a node for inode 5. -/
theorem cache_two_nodes_interleaved : ∃ t,
    Reach CacheState.step (fun _ _ => True) mountedCache t ∧
      ¬(t.inodeCache.map CachedNode.inodeNbr).Nodup ∧ ⟨1, 5⟩ ∈ t.opened ∧ ⟨2, 5⟩ ∈ t.opened := by
  let steps : List (ℕ × Action) :=
    [(1, .call 5), (2, .call 5), (1, .readDescriptor true), (1, .readInode true), (1, .lock),
      (1, .append), (1, .unlock), (2, .readDescriptor true), (2, .readInode true), (2, .lock),
      (2, .append), (2, .unlock)]
  refine ⟨_, Reach.start.of_run (l := steps) (fun _ _ _ => trivial) rfl, by decide, by decide, by decide⟩

end VkKernel.Ext2
