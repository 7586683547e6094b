import VkKernel.UserStores

/-!
# The program break

`sbrk` moves the end of the heap of a process, and maps the range that is new unless the page of
the new break is mapped already. `load_executable` starts a heap without bytes, `fork` copies it.
-/

namespace VkKernel
open Outcome IntervalUpdate

/-! ## The source -/

/-- The heap of a process. -/
structure ProgramBreak where
  heapAddr : ℕ
  heapSize : ℕ
deriving DecidableEq, Repr

/-- `sbrk` returns the old break. -/
def sbrk (fuel pd : ℕ) (b : ProgramBreak) (incr : ℕ) (k : Kernel) :
    Result (ℕ × ProgramBreak × Kernel) := do
  let oldLastAddr := u32 (b.heapAddr + b.heapSize)
  let newLastAddr := u32 (oldLastAddr + incr)
  let k ← if isMapped newLastAddr pd k.paging then .ok k
    else mapMemoryIfNotMapped (kmalloc fuel) incr oldLastAddr pd k
  .ok (oldLastAddr, { b with heapSize := u32 (b.heapSize + incr) }, k)

/-! ## Runs -/

def ProgramBreak.stop (b : ProgramBreak) : ℕ := b.heapAddr + b.heapSize

/-- The bytes of a heap. -/
def ProgramBreak.Holds (b : ProgramBreak) (v : ℕ) : Prop := b.heapAddr ≤ v ∧ v < b.stop

/-- A range of user memory that `sbrk` can be asked for. -/
def ProgramBreak.CanGrow (b : ProgramBreak) (incr : ℕ) : Prop :=
  0 < incr ∧ b.stop + incr ≤ kernelVirtualBase ∧ rangeSize incr b.stop ≤ 0x400000

/-- The page of the new break is not mapped, or the range that is new is mapped. -/
def ProgramBreak.Reaches (b : ProgramBreak) (incr pd : ℕ) (g : Paging) : Prop :=
  isMapped (b.stop + incr) pd g = false ∨
    ∀ v, b.stop ≤ v → v < b.stop + incr → isMapped v pd g = true

/-- The reservations behind a call of `sbrk`. -/
def SbrkReserves (fuel d incr : ℕ) (b : ProgramBreak) (k : Kernel) (rv rv' : List (ℕ × ℕ)) : Prop :=
  if isMapped (b.stop + incr) d k.paging then rv' = rv
  else ∃ a k₁, reserveBlock (kmalloc fuel) (rangeSize incr b.stop) (blockTypeFor d k.paging) k =
    .ok (a, k₁) ∧ rv' = (a, rangeSize incr b.stop) :: rv

/-- The bytes that a call takes away from a process. -/
def MemoryCall.unmaps : MemoryCall → ℕ → ℕ → Prop
  | .unmapMemoryIfMapped size virt d, e, v
  | .freeSegment size virt d, e, v => e = d ∧ virt ≤ v ∧ v < virt + alignup size 4096
  | _, _, _ => False

/-- The memory and the heaps, by their directories. -/
abbrev BreakState := MemoryState × (ℕ → ProgramBreak)

/-- One completed call. An `sbrk` reaches the new break, and no other call takes bytes of a heap
away. -/
inductive BreakStep : BreakState → BreakState → Prop
  | sbrk {k k' : Kernel} {ds : List ℕ} {rv rv' : List (ℕ × ℕ)} {br : ℕ → ProgramBreak}
      {fuel d incr p : ℕ} {b : ProgramBreak} : d ∈ ds → (br d).CanGrow incr →
      (br d).Reaches incr d k.paging → sbrk fuel d (br d) incr k = .ok (p, b, k') →
      SbrkReserves fuel d incr (br d) k rv rv' →
      BreakStep ((k, ds, rv), br) ((k', ds, rv'), Function.update br d b)
  | loadExecutable {s : MemoryState} {br : ℕ → ProgramBreak} {d addr : ℕ} :
      addr ≤ kernelVirtualBase → BreakStep (s, br) (s, Function.update br d ⟨addr, 0⟩)
  | getKernelPdClone {k k' : Kernel} {ds : List ℕ} {rv rv' : List (ℕ × ℕ)} {br : ℕ → ProgramBreak}
      {d : ℕ} : MemoryStep .getKernelPdClone (k, ds, rv) (k', d :: ds, rv') →
      BreakStep ((k, ds, rv), br) ((k', d :: ds, rv'), Function.update br d ⟨0, 0⟩)
  | fork {k k' : Kernel} {ds : List ℕ} {rv rv' : List (ℕ × ℕ)} {br : ℕ → ProgramBreak}
      {pd tr : ℕ} : MemoryStep (.copyAdressSpace pd) (k, ds, rv) (k', tr :: ds, rv') →
      BreakStep ((k, ds, rv), br) ((k', tr :: ds, rv'), Function.update br tr (br pd))
  | memory {s s' : MemoryState} {br : ℕ → ProgramBreak} {c : MemoryCall} : MemoryStep c s s' →
      c ≠ .getKernelPdClone → (∀ pd, c ≠ .copyAdressSpace pd) →
      (∀ d ∈ s'.2.1, ∀ v, (br d).Holds v → ¬c.unmaps d v) → BreakStep (s, br) (s', br)

/-- The runs from a kernel without processes. -/
def BreakRun (k₀ : Kernel) (s : BreakState) : Prop :=
  Relation.ReflTransGen BreakStep ((k₀, [], []), fun _ => ⟨0, 0⟩) s

/-- Every heap lies in user memory, and all of its bytes are mapped. -/
def HeapsMapped (s : BreakState) : Prop :=
  ∀ d ∈ s.1.2.1, (s.2 d).stop ≤ kernelVirtualBase ∧
    ∀ v, (s.2 d).Holds v → (s.1.1.userByte d v).isSome

/-! ## One call of `sbrk` -/

section Call
variable {k₀ k k' : Kernel} {rs₀ : List PRegion} {ds : List ℕ} {rv : List (ℕ × ℕ)}
  {fuel d incr p : ℕ} {b b' : ProgramBreak}

/-- The range as pages. -/
theorem ProgramBreak.CanGrow.range (h : b.CanGrow incr) :
    UserRange (rangeSize incr b.stop) (aligndown b.stop 4096) ∧ 0 < rangeSize incr b.stop ∧
      ∀ v, b.stop ≤ v → v < b.stop + incr → InRange incr b.stop v := by
  obtain ⟨hpos, hlt, hsmall⟩ := h
  obtain ⟨hu, h0, hin, -⟩ := userRange_segment hpos hlt hsmall
  refine ⟨hu, h0, fun v hv hv' => ?_⟩
  have hrange := hin (v - b.stop) (by omega)
  rwa [Nat.add_sub_cancel' hv] at hrange

theorem PrivateFrames.isMapped_eq_userByte {σ : Translations} (h : PrivateFrames k ds σ rv)
    (hd : d ∈ ds) {v : ℕ} (hv : v < kernelVirtualBase) :
    isMapped v d k.paging = (k.userByte d v).isSome := by
  rw [h.spaces.isMapped_eq hd hv, h.userByte_eq hd hv, memoriesOf_apply hd hv, Option.isSome_map]

/-- What the two cases of `sbrk` do. -/
theorem sbrk_cases (hg : b.CanGrow incr) (hr : sbrk fuel d b incr k = .ok (p, b', k')) :
    p = b.stop ∧ b' = ⟨b.heapAddr, b.heapSize + incr⟩ ∧
      if isMapped (b.stop + incr) d k.paging then k' = k
      else mapMemoryIfNotMapped (kmalloc fuel) (rangeSize incr b.stop) (aligndown b.stop 4096) d k =
        .ok k' := by
  obtain ⟨-, hlt, -⟩ := hg
  unfold kernelVirtualBase at hlt
  have hstop : u32 (b.heapAddr + b.heapSize) = b.stop := by
    unfold ProgramBreak.stop at hlt ⊢
    exact u32_of_lt (by omega)
  have hsize : u32 (b.heapSize + incr) = b.heapSize + incr := by
    unfold ProgramBreak.stop at hlt
    exact u32_of_lt (by omega)
  rw [sbrk, hstop, u32_of_lt (by omega), hsize] at hr
  split_ifs at hr ⊢
  · cases hr
    exact ⟨rfl, rfl, rfl⟩
  · obtain ⟨k₁, hk₁, hr⟩ := bind_eq_ok.mp hr
    cases hr
    rw [mapMemoryIfNotMapped_align] at hk₁
    exact ⟨rfl, rfl, hk₁⟩

/-- The pages that were not mapped are new, and all bytes that were there are kept. -/
theorem MemoryRun.fill (h₀ : InitialList k₀ rs₀) (hrun : MemoryRun k₀ (k, ds, rv)) (hd : d ∈ ds)
    {size virt : ℕ} (hu : UserRange size virt) (hpos : 0 < size)
    (hr : mapMemoryIfNotMapped (VkKernel.kmalloc fuel) size virt d k = .ok k') :
    (∃ a k₁, reserveBlock (VkKernel.kmalloc fuel) (alignup size 4096) (blockTypeFor d k.paging) k =
      .ok (a, k₁) ∧ MemoryRun k₀ (k', ds, (a, alignup size 4096) :: rv)) ∧
      (∀ e ∈ ds, ∀ v < kernelVirtualBase, (k.userByte e v).isSome →
        k'.userByte e v = k.userByte e v) ∧
      ∀ v, virt ≤ v → v < virt + alignup size 4096 → (k'.userByte d v).isSome := by
  obtain ⟨σ, h⟩ := hrun.frames h₀
  obtain ⟨a, k₁, hres, hnew, h', hk'⟩ := h.mapMemoryIfNotMapped hd hu hpos hr
  have hram : k'.ram = k.ram := by
    rw [hk']
    exact hnew.ram
  have hbelow := hu.below
  refine ⟨⟨a, k₁, hres, hrun.tail ⟨_, .mapMemoryIfNotMapped hd hu hpos hres hr⟩⟩,
    fun e he v hv hsome => ?_, fun v hlo hhi => ?_⟩
  · rw [h.userByte_eq he hv] at hsome
    rw [h'.userByte_eq he hv, h.userByte_eq he hv, memoriesOf_fill hd hu, hram]
    by_cases hed : e = d
    · subst hed
      rw [Function.update_self]
      by_cases hin : virt ≤ v ∧ v < virt + alignup size 4096
      · obtain ⟨x, hx⟩ := Option.isSome_iff_exists.mp hsome
        rw [overwrite_of_mem hin.1 hin.2, Nat.add_sub_cancel' hin.1, hx]
        rfl
      · rw [overwrite_of_notMem (by omega)]
    · rw [Function.update_of_ne hed]
  · rw [h'.userByte_eq hd (by omega), memoriesOf_fill hd hu, Function.update_self,
      overwrite_of_mem hlo hhi]
    rfl

/-- `sbrk` keeps all bytes, and the range that is new is mapped exactly if it reaches the break. -/
theorem MemoryRun.sbrk (h₀ : InitialList k₀ rs₀) (hrun : MemoryRun k₀ (k, ds, rv)) (hd : d ∈ ds)
    (hg : b.CanGrow incr) (hr : VkKernel.sbrk fuel d b incr k = .ok (p, b', k')) :
    (∃ rv', SbrkReserves fuel d incr b k rv rv') ∧
      (∀ rv', SbrkReserves fuel d incr b k rv rv' → MemoryRun k₀ (k', ds, rv')) ∧
      (∀ e ∈ ds, ∀ v < kernelVirtualBase, (k.userByte e v).isSome →
        k'.userByte e v = k.userByte e v) ∧
      (b.Reaches incr d k.paging ↔
        ∀ v, b.stop ≤ v → v < b.stop + incr → (k'.userByte d v).isSome) := by
  obtain ⟨-, -, hcase⟩ := sbrk_cases hg hr
  obtain ⟨hu, hpos, hin⟩ := hg.range
  have hlt := hg.2.1
  unfold ProgramBreak.Reaches
  by_cases hmapped : isMapped (b.stop + incr) d k.paging = true
  · rw [if_pos hmapped] at hcase
    subst hcase
    obtain ⟨σ, h⟩ := hrun.frames h₀
    have hsame : ∀ rv', SbrkReserves fuel d incr b k' rv rv' ↔ rv' = rv := by
      intro rv'
      rw [SbrkReserves, if_pos hmapped]
    refine ⟨⟨rv, (hsame rv).mpr rfl⟩, fun rv' hrv => (hsame rv').mp hrv ▸ hrun,
      fun _ _ _ _ _ => rfl, ?_⟩
    rw [hmapped]
    simp only [Bool.true_eq_false, false_or]
    refine forall_congr' fun v => imp_congr_right fun _ => forall_congr' fun hv => ?_
    rw [h.isMapped_eq_userByte hd (by omega)]
  · rw [if_neg hmapped] at hcase
    unfold SbrkReserves
    simp only [if_neg hmapped]
    obtain ⟨⟨a, k₁, hres, hrun'⟩, hkept, hnew⟩ := hrun.fill h₀ hd hu hpos hcase
    have hround : alignup (rangeSize incr b.stop) 4096 = rangeSize incr b.stop :=
      alignup_of_dvd (Nat.dvd_of_mod_eq_zero (rangeSize_page _ _).1)
    rw [hround] at hres hrun' hnew
    refine ⟨⟨_, a, k₁, hres, rfl⟩, ?_, hkept, ?_⟩
    · rintro rv' ⟨a', k₂, hres', rfl⟩
      rw [hres] at hres'
      cases hres'
      exact hrun'
    · rw [Bool.not_eq_true] at hmapped
      constructor
      · intro _ v hv hv'
        obtain ⟨hlo, hhi⟩ := hin v hv hv'
        exact hnew v hlo hhi
      · exact fun _ => .inl hmapped

end Call

/-! ## Whole runs -/

section Runs
variable {k₀ : Kernel} {rs₀ : List PRegion} {ds ds' : List ℕ} {m m' : Memories} {c : MemoryCall}

/-- A byte is taken away by the calls that unmap it only. -/
theorem PrivateStep.isSome (hs : PrivateStep c (ds, m) (ds', m')) (hc : c ≠ .getKernelPdClone)
    (hcopy : ∀ pd, c ≠ .copyAdressSpace pd) {d v : ℕ} (hd : d ∈ ds') (hn : ds.Nodup)
    (hu : ¬c.unmaps d v) (hm : (m d v).isSome) : (m' d v).isSome := by
  have hset : ∀ {e virt n : ℕ} {w : ℕ → Option UInt8},
      ((d = e ∧ virt ≤ v ∧ v < virt + n) → (w (v - virt)).isSome) →
      (Function.update m e (overwrite (m e) virt n w) d v).isSome := by
    intro e virt n w hw
    by_cases hde : d = e
    · subst hde
      rw [Function.update_self]
      by_cases hin : virt ≤ v ∧ v < virt + n
      · rw [overwrite_of_mem hin.1 hin.2]
        exact hw ⟨rfl, hin⟩
      · rwa [overwrite_of_notMem (by omega)]
    · rwa [Function.update_of_ne hde]
  cases hs with
  | getKernelPdClone => exact absurd rfl hc
  | mapMemory new _ => exact hset fun _ => rfl
  | mapMemoryIfNotMapped new _ => exact hset fun _ => rfl
  | unmapMemoryIfMapped _ => exact hset fun hin => absurd hin hu
  | freeSegment _ => exact hset fun hin => absurd hin hu
  | copyAdressSpace _ _ => exact absurd rfl (hcopy _)
  | @ptFree _ _ e he =>
    rwa [Function.update_of_ne (hn.mem_erase_iff.mp hd).1]
  | @store _ _ virt e b he hsome =>
    by_cases hde : d = e
    · subst hde
      rw [Function.update_self, Function.update_apply]
      split_ifs
      · rfl
      · exact hm
    · rwa [Function.update_of_ne hde]
  | pdSwitch => exact hm
  | other => exact hm

/-- Other calls bring no new directory. -/
theorem PrivateStep.mem (hs : PrivateStep c (ds, m) (ds', m')) (hc : c ≠ .getKernelPdClone)
    (hcopy : ∀ pd, c ≠ .copyAdressSpace pd) {d : ℕ} (hd : d ∈ ds') (hn : ds.Nodup) : d ∈ ds := by
  cases hs with
  | getKernelPdClone => exact absurd rfl hc
  | copyAdressSpace _ _ => exact absurd rfl (hcopy _)
  | ptFree _ => exact (hn.mem_erase_iff.mp hd).2
  | mapMemory _ _ => exact hd
  | mapMemoryIfNotMapped _ _ => exact hd
  | unmapMemoryIfMapped _ => exact hd
  | freeSegment _ => exact hd
  | store _ _ => exact hd
  | pdSwitch => exact hd
  | other => exact hd

theorem PrivateStep.clone_eq {d : ℕ} (hs : PrivateStep .getKernelPdClone (ds, m) (d :: ds, m')) :
    ∀ e ∈ ds, m' e = m e := by
  cases hs with
  | getKernelPdClone hd =>
    intro e he
    apply Function.update_of_ne
    rintro rfl
    exact hd he

theorem PrivateStep.copy_eq {pd tr : ℕ}
    (hs : PrivateStep (.copyAdressSpace pd) (ds, m) (tr :: ds, m')) :
    pd ∈ ds ∧ m' tr = m pd ∧ ∀ e ∈ ds, m' e = m e := by
  cases hs with
  | copyAdressSpace hpd htr =>
    refine ⟨hpd, Function.update_self _ _ _, fun e he => Function.update_of_ne ?_ _ _⟩
    rintro rfl
    exact htr he

theorem userMemories_apply (k : Kernel) (rv : List (ℕ × ℕ)) {d v : ℕ} (hd : d ∈ ds)
    (hv : v < kernelVirtualBase) : (userMemories (k, ds, rv)).2 d v = k.userByte d v :=
  if_pos ⟨hd, hv⟩

section Directories
variable {k k' : Kernel} {rv rv' : List (ℕ × ℕ)} (h₀ : InitialList k₀ rs₀)
  (hrun : MemoryRun k₀ (k, ds, rv))
include h₀ hrun

theorem MemoryRun.clone_userByte {d : ℕ}
    (hstep : MemoryStep .getKernelPdClone (k, ds, rv) (k', d :: ds, rv')) :
    ∀ e ∈ ds, ∀ v < kernelVirtualBase, k'.userByte e v = k.userByte e v := by
  intro e he v hv
  have hsame : (userMemories (k', d :: ds, rv')).2 e v = (userMemories (k, ds, rv)).2 e v :=
    congrFun ((hstep.private (hrun.private h₀).1).2.clone_eq e he) v
  rwa [userMemories_apply k' rv' (List.mem_cons_of_mem d he) hv, userMemories_apply k rv he hv]
    at hsame

theorem MemoryRun.copy_userByte {pd tr : ℕ}
    (hstep : MemoryStep (.copyAdressSpace pd) (k, ds, rv) (k', tr :: ds, rv')) :
    pd ∈ ds ∧ (∀ v < kernelVirtualBase, k'.userByte tr v = k.userByte pd v) ∧
      ∀ e ∈ ds, ∀ v < kernelVirtualBase, k'.userByte e v = k.userByte e v := by
  obtain ⟨hpd, hcopy, hkept⟩ := (hstep.private (hrun.private h₀).1).2.copy_eq
  refine ⟨hpd, fun v hv => ?_, fun e he v hv => ?_⟩
  · have hsame : (userMemories (k', tr :: ds, rv')).2 tr v = (userMemories (k, ds, rv)).2 pd v :=
      congrFun hcopy v
    rwa [userMemories_apply k' rv' List.mem_cons_self hv, userMemories_apply k rv hpd hv] at hsame
  · have hsame : (userMemories (k', tr :: ds, rv')).2 e v = (userMemories (k, ds, rv)).2 e v :=
      congrFun (hkept e he) v
    rwa [userMemories_apply k' rv' (List.mem_cons_of_mem tr he) hv, userMemories_apply k rv he hv]
      at hsame

/-- Calls that leave the list of directories alone, up to one that is given back. -/
theorem MemoryRun.call_userByte {c : MemoryCall} (hstep : MemoryStep c (k, ds, rv) (k', ds', rv'))
    (hc : c ≠ .getKernelPdClone) (hcopy : ∀ pd, c ≠ .copyAdressSpace pd) :
    ∀ e ∈ ds', e ∈ ds ∧ ∀ v < kernelVirtualBase, ¬c.unmaps e v → (k.userByte e v).isSome →
      (k'.userByte e v).isSome := by
  obtain ⟨hn, -⟩ := (hrun.private h₀).1
  have hpriv := (hstep.private (hrun.private h₀).1).2
  intro e he
  have hmem := hpriv.mem hc hcopy he hn
  refine ⟨hmem, fun v hv hu hsome => ?_⟩
  have hsame : ((userMemories (k', ds', rv')).2 e v).isSome := by
    refine hpriv.isSome hc hcopy he hn hu ?_
    have happly : (userMemories (k, ds, rv)).2 e v = k.userByte e v := userMemories_apply k rv hmem hv
    exact (congrArg Option.isSome happly).trans hsome
  rwa [userMemories_apply k' rv' he hv] at hsame

end Directories

/-- One step keeps the heaps mapped. -/
theorem BreakStep.heapsMapped (h₀ : InitialList k₀ rs₀) {s s' : BreakState} (hs : BreakStep s s')
    (hrun : MemoryRun k₀ s.1) (h : HeapsMapped s) : MemoryRun k₀ s'.1 ∧ HeapsMapped s' := by
  -- bytes of heaps that are as before
  have hframe : ∀ {k k' : Kernel} {ds : List ℕ} {br : ℕ → ProgramBreak} {rv : List (ℕ × ℕ)},
      HeapsMapped ((k, ds, rv), br) → ∀ e ∈ ds, (∀ v < kernelVirtualBase, (k.userByte e v).isSome →
        (k'.userByte e v).isSome) → (br e).stop ≤ kernelVirtualBase ∧
          ∀ v, (br e).Holds v → (k'.userByte e v).isSome := by
    intro k k' ds br rv h e he hkept
    obtain ⟨hstop, hbytes⟩ := h e he
    refine ⟨hstop, fun v hv => hkept v ?_ (hbytes v hv)⟩
    exact hv.2.trans_le hstop
  cases hs with
  | @sbrk k k' ds rv rv' br fuel d incr p b hd hg hreach hr hrv =>
    obtain ⟨-, hrun', hkept, hmapped⟩ := hrun.sbrk h₀ hd hg hr
    obtain ⟨-, rfl, -⟩ := sbrk_cases hg hr
    have hsome : ∀ e ∈ ds, ∀ v < kernelVirtualBase, (k.userByte e v).isSome →
        (k'.userByte e v).isSome := by
      intro e he v hv hsome
      rwa [hkept e he v hv hsome]
    refine ⟨hrun' rv' hrv, fun e he => ?_⟩
    obtain ⟨hstop, hbytes⟩ := hframe h e he (hsome e he)
    dsimp only
    by_cases hed : e = d
    · subst hed
      rw [Function.update_self]
      refine ⟨?_, fun v hv => ?_⟩
      · have := hg.2.1
        unfold ProgramBreak.stop at this ⊢
        dsimp only
        omega
      · by_cases hold : v < (br e).stop
        · exact hbytes v ⟨hv.1, hold⟩
        · refine hmapped.mp hreach v (by omega) ?_
          have := hv.2
          unfold ProgramBreak.stop at this ⊢
          dsimp only at this
          omega
    · rw [Function.update_of_ne hed]
      exact ⟨hstop, hbytes⟩
  | @loadExecutable s br d addr haddr =>
    refine ⟨hrun, fun e he => ?_⟩
    dsimp only
    by_cases hed : e = d
    · subst hed
      rw [Function.update_self]
      refine ⟨haddr, fun v hv => ?_⟩
      obtain ⟨hlo, hhi⟩ := hv
      unfold ProgramBreak.stop at hhi
      dsimp only at hlo hhi
      omega
    · rw [Function.update_of_ne hed]
      exact h e he
  | @getKernelPdClone k k' ds rv rv' br d hstep =>
    have hsame := hrun.clone_userByte h₀ hstep
    refine ⟨hrun.tail ⟨_, hstep⟩, fun e he => ?_⟩
    dsimp only
    by_cases hed : e = d
    · subst hed
      rw [Function.update_self]
      refine ⟨Nat.zero_le _, fun v hv => ?_⟩
      exact absurd hv.2 (Nat.not_lt_zero v)
    · rw [Function.update_of_ne hed]
      have he' := (List.mem_cons.mp he).resolve_left hed
      refine hframe h e he' fun v hv hsome => ?_
      rwa [hsame e he' v hv]
  | @fork k k' ds rv rv' br pd tr hstep =>
    obtain ⟨hpd, hcopy, hsame⟩ := hrun.copy_userByte h₀ hstep
    refine ⟨hrun.tail ⟨_, hstep⟩, fun e he => ?_⟩
    dsimp only
    by_cases het : e = tr
    · subst het
      rw [Function.update_self]
      obtain ⟨hstop, hbytes⟩ := h pd hpd
      refine ⟨hstop, fun v hv => ?_⟩
      rw [hcopy v (hv.2.trans_le hstop)]
      exact hbytes v hv
    · rw [Function.update_of_ne het]
      have he' := (List.mem_cons.mp he).resolve_left het
      refine hframe h e he' fun v hv hsome => ?_
      rwa [hsame e he' v hv]
  | @memory s s' br c hstep hc hcopy hkeeps =>
    obtain ⟨k, ds, rv⟩ := s
    obtain ⟨k', ds', rv'⟩ := s'
    refine ⟨hrun.tail ⟨_, hstep⟩, fun e he => ?_⟩
    obtain ⟨hmem, hkept⟩ := hrun.call_userByte h₀ hstep hc hcopy e he
    obtain ⟨hstop, hbytes⟩ := h e hmem
    refine ⟨hstop, fun v hv => ?_⟩
    exact hkept v (hv.2.trans_le hstop) (hkeeps e he v hv) (hbytes v hv)

end Runs

/-- The calls that bring a page agree where no page is mapped. -/
theorem PrivateFrames.mapMemoryIfNotMapped_page {k k' : Kernel} {ds : List ℕ} {σ : Translations}
    {rv : List (ℕ × ℕ)} {fuel virt d : ℕ} (h : PrivateFrames k ds σ rv) (hu : UserRange 4096 virt)
    (hm : isMapped virt d k.paging = false)
    (hr : VkKernel.mapMemory (kmalloc fuel) 4096 virt d k = .ok k') :
    VkKernel.mapMemoryIfNotMapped (kmalloc fuel) 4096 virt d k = .ok k' := by
  have hone : pageCount 4096 = 1 := by rw [pageCount, alignup_of_dvd (by decide)]
  have hvirt : u32 (virt + 0) = virt := by
    have hlt := (hu.lt (i := 0) (by omega)).1
    unfold kernelVirtualBase at hlt
    exact u32_of_lt (by omega)
  obtain ⟨⟨a, k₁⟩, hres, hr⟩ := bind_eq_ok.mp hr
  obtain ⟨g, hloop, hr⟩ := bind_eq_ok.mp hr
  obtain ⟨bs, hheap⟩ := h.sound
  have hg := (hheap.reserveBlock_paging hres).1
  refine bind_eq_ok.mpr ⟨(a, k₁), hres, bind_eq_ok.mpr ⟨g, ?_, hr⟩⟩
  rw [hu.rangeSize_eq, hu.aligndown_eq, hu.forRange_eq, hone, hg] at hloop ⊢
  rw [stepLoop, hvirt] at hloop ⊢
  rw [hm]
  exact hloop

end VkKernel
