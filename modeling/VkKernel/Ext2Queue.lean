import VkKernel.Ext2Read

/-!
# Merging read requests

`ext2_queue_read` appends a request or adds its bytes to one whose sectors and buffer end
where it starts. Both ends are compared as 32-bit words, so a request behind the last sector
number is merged with one at the first sectors.
-/

namespace VkKernel.Ext2
open ByteMemory PackedStruct IntervalUpdate

/-- A sequence of calls of `ext2_queue_read`. -/
def queueAll : List ReadRequest → List ReadRequest → Option (List ReadRequest)
  | rs, [] => some rs
  | rs, q :: qs => (queueRead rs q).bind fun rs => queueAll rs qs

def totalCount (rs : List ReadRequest) : ℕ := (rs.map ReadRequest.count).sum

/-- The buffers follow each other from `p` on. -/
def Consecutive : ℕ → List ReadRequest → Prop
  | _, [] => True
  | p, q :: qs => q.buffer = p ∧ Consecutive (p + q.count) qs

/-- A request for whole blocks or the last piece of a file. -/
structure IsCall (q : ReadRequest) : Prop where
  sector_ne : q.sector ≠ 0
  sector_lt : q.sector < 2 ^ 32
  offset : q.offset = 0
  count : 1 ≤ q.count

/-- The calls that `ext2_inode_read_content` makes from the start of a block on. The number
of bytes is a 32-bit word, and the buffer ends within the address space. -/
structure Calls (p : ℕ) (qs : List ReadRequest) : Prop where
  consecutive : Consecutive p qs
  call : ∀ q ∈ qs, IsCall q
  whole : ∀ q ∈ qs.dropLast, bytesPerSector ∣ q.count
  range : p + totalCount qs ≤ 2 ^ 32
  size : totalCount qs < 2 ^ 32

/-- The sector behind a request. -/
def ReadRequest.stop (q : ReadRequest) : ℕ := q.sector + q.count / bytesPerSector

/-- The call `q'` starts where `q` ends, if its sector is that one as a 32-bit word. -/
def Follows (q q' : ReadRequest) : Prop := u32 q.stop = q'.sector → q.stop = q'.sector

/-- No call starts behind the one before it only after a wrap-around of the sector number. -/
def NoWrap (qs : List ReadRequest) : Prop := qs.IsChain Follows

/-- The byte of the disk that the requests read to the address `x`. -/
def diskAddr : List ReadRequest → ℕ → ℕ
  | [], _ => 0
  | q :: qs, x =>
    if x < q.buffer + q.count then bytesPerSector * q.sector + q.offset + (x - q.buffer)
    else diskAddr qs x

/-! ## Consecutive buffers -/

@[simp] theorem totalCount_nil : totalCount [] = 0 := rfl

@[simp] theorem totalCount_cons (q : ReadRequest) (qs : List ReadRequest) :
    totalCount (q :: qs) = q.count + totalCount qs := by
  simp [totalCount]

@[simp] theorem totalCount_append (qs rs : List ReadRequest) :
    totalCount (qs ++ rs) = totalCount qs + totalCount rs := by
  simp [totalCount]

theorem consecutive_append {p : ℕ} {qs rs : List ReadRequest} :
    Consecutive p (qs ++ rs) ↔ Consecutive p qs ∧ Consecutive (p + totalCount qs) rs := by
  induction qs generalizing p with
  | nil => simp [Consecutive]
  | cons q qs ih =>
    rw [List.cons_append, Consecutive, Consecutive, ih, totalCount_cons, and_assoc, Nat.add_assoc]

theorem consecutive_singleton {p : ℕ} {q : ReadRequest} : Consecutive p [q] ↔ q.buffer = p := by
  simp [Consecutive]

theorem Consecutive.bounds {p : ℕ} {qs : List ReadRequest} (h : Consecutive p qs) {q : ReadRequest}
    (hq : q ∈ qs) : p ≤ q.buffer ∧ q.buffer + q.count ≤ p + totalCount qs := by
  induction qs generalizing p with
  | nil => cases hq
  | cons r qs ih =>
    obtain ⟨hr, hrest⟩ := h
    rw [totalCount_cons]
    cases hq with
    | head => omega
    | tail _ hq =>
      have := ih hrest hq
      omega

theorem diskAddr_cons_of_lt {q : ReadRequest} {x : ℕ} (h : x < q.buffer + q.count)
    (qs : List ReadRequest) :
    diskAddr (q :: qs) x = bytesPerSector * q.sector + q.offset + (x - q.buffer) :=
  if_pos h

theorem diskAddr_append_of_lt {p x : ℕ} {qs : List ReadRequest} (h : Consecutive p qs)
    (hp : p ≤ x) (hx : x < p + totalCount qs) (rs : List ReadRequest) :
    diskAddr (qs ++ rs) x = diskAddr qs x := by
  induction qs generalizing p with
  | nil =>
    rw [totalCount_nil] at hx
    omega
  | cons q qs ih =>
    obtain ⟨hq, hrest⟩ := h
    rw [totalCount_cons] at hx
    rw [List.cons_append, diskAddr, diskAddr]
    split_ifs with hin
    · rfl
    · exact ih hrest (by omega) (by omega)

theorem diskAddr_append_of_le {p x : ℕ} {qs : List ReadRequest} (h : Consecutive p qs)
    (hx : p + totalCount qs ≤ x) (rs : List ReadRequest) : diskAddr (qs ++ rs) x = diskAddr rs x := by
  induction qs generalizing p with
  | nil => rfl
  | cons q qs ih =>
    obtain ⟨hq, hrest⟩ := h
    rw [totalCount_cons] at hx
    rw [List.cons_append, diskAddr, if_neg (by omega)]
    exact ih hrest (by omega)

/-- What the requests of an array leave in memory. -/
theorem sendRequests_eq {B : BlockLayer} (hB : B.Exact) (disk : Mem) {p : ℕ} {qs : List ReadRequest}
    (h : Consecutive p qs) (hne : ∀ q ∈ qs, q.sector ≠ 0) (k : ℕ) (mem : Mem) :
    sendRequests B disk (qs ++ List.replicate k .empty) mem = (.none, fun x =>
      if p ≤ x ∧ x < p + totalCount qs then disk (diskAddr qs x) else mem x) := by
  induction qs generalizing p mem with
  | nil =>
    have hempty : sendRequests B disk (List.replicate k .empty) mem = (.none, mem) := by
      cases k with
      | zero => rfl
      | succ k =>
        rw [List.replicate_succ, sendRequests]
        exact if_pos rfl
    rw [List.nil_append, hempty, totalCount_nil]
    congr 1
    funext x
    rw [if_neg (by omega)]
  | cons q qs ih =>
    obtain ⟨hq, hrest⟩ := h
    rw [List.cons_append, sendRequests, if_neg (hne q List.mem_cons_self)]
    dsimp only
    rw [if_neg (not_not.mpr (hB.read_none ..)), if_neg (not_not.mpr (hB.read_none ..)),
      ih hrest fun r hr => hne r (List.mem_cons_of_mem _ hr)]
    congr 1
    funext x
    rw [totalCount_cons, diskAddr]
    by_cases hin : q.buffer ≤ x ∧ x < q.buffer + q.count
    · rw [if_neg (by omega), if_pos (by omega), if_pos hin.2, overwrite_of_mem hin.1 hin.2,
        hB.read_data _ _ _ _ _ (by omega)]
    · rw [overwrite_of_notMem (by omega)]
      by_cases hx : p + q.count ≤ x ∧ x < p + q.count + totalCount qs
      · rw [if_pos hx, if_pos (by omega), if_neg (by omega)]
      · rw [if_neg hx, if_neg (by omega)]

/-! ## One call -/

/-- The requests in front of the last one end before the buffer of the call. -/
theorem queueRead_append {t rs : List ReadRequest} {q : ReadRequest}
    (h : ∀ r ∈ t, r.sector ≠ 0 ∧ r.buffer + r.count < q.buffer) (hq : q.buffer < 2 ^ 32) :
    queueRead (t ++ rs) q = (queueRead rs q).map (t ++ ·) := by
  induction t with
  | nil => simp
  | cons r t ih =>
    obtain ⟨hne, hlt⟩ := h r List.mem_cons_self
    have hbuffer : r.buffer ≠ u32 (q.buffer + 2 ^ 32 - r.count) := by
      unfold u32
      omega
    rw [List.cons_append, queueRead, if_neg hne, if_neg fun hm => hbuffer hm.2,
      ih fun s hs => h s (List.mem_cons_of_mem _ hs), Option.map_map]
    rfl

/-- The requests `rs` that the calls `done` leave in the array. -/
structure Merged (p : ℕ) (done rs : List ReadRequest) : Prop where
  consecutive : Consecutive p rs
  total : totalCount rs = totalCount done
  call : ∀ r ∈ rs, IsCall r
  length : rs.length ≤ done.length
  last : ∀ d q, done = d ++ [q] → (∀ x ∈ done, bytesPerSector ∣ x.count) →
    ∃ t r, rs = t ++ [r] ∧ bytesPerSector ∣ r.count ∧ u32 r.stop = u32 q.stop ∧
      (NoWrap done → r.stop = q.stop)
  same : (∀ x, p ≤ x → x < p + totalCount done → diskAddr rs x = diskAddr done x) ↔ NoWrap done

theorem merged_nil (p : ℕ) : Merged p [] [] where
  consecutive := trivial
  total := rfl
  call := by simp
  length := le_rfl
  last := by simp
  same := by simp [NoWrap]

theorem noWrap_concat {d : List ReadRequest} {q₀ q : ReadRequest} :
    NoWrap (d ++ [q₀] ++ [q]) ↔ NoWrap (d ++ [q₀]) ∧ Follows q₀ q := by
  unfold NoWrap
  rw [List.isChain_append]
  simp

/-- The first call goes to an empty array. -/
theorem merged_first {p : ℕ} {q : ReadRequest} (hq : IsCall q) (hp : q.buffer = p) : Merged p [q] [q] where
  consecutive := consecutive_singleton.mpr hp
  total := rfl
  call := by simpa using hq
  length := le_rfl
  last := by
    intro d q' heq hwhole
    refine ⟨[], q, rfl, hwhole q (List.mem_singleton_self q), ?_⟩
    obtain ⟨-, hlast⟩ := List.append_inj' (show [] ++ [q] = d ++ [q'] from heq) rfl
    rw [List.singleton_inj.mp hlast]
    exact ⟨rfl, fun _ => rfl⟩
  same := by simp [NoWrap]

section Step
variable {p : ℕ} {d t : List ReadRequest} {q₀ q r : ReadRequest}

/-- The end of the last request as it is compared with the sector of a call. -/
theorem sector_eq_iff (hr : r.sector < 2 ^ 32) (hc : r.count < 2 ^ 32) (hq : q.sector < 2 ^ 32) :
    r.sector = u32 (q.sector + 2 ^ 32 - r.count / bytesPerSector) ↔ u32 r.stop = q.sector := by
  have hdiv : r.count / bytesPerSector < 2 ^ 32 := (Nat.div_le_self _ _).trans_lt hc
  unfold u32 ReadRequest.stop
  omega

/-- Bytes that are added to the last request are read from behind it. -/
theorem diskAddr_merged {c x : ℕ} (hc : Consecutive p (t ++ [r])) (hoffset : r.offset = 0)
    (hx : p + totalCount (t ++ [r]) ≤ x) (hlt : x < p + totalCount (t ++ [r]) + c)
    (hdvd : bytesPerSector ∣ r.count) :
    diskAddr (t ++ [{ r with count := r.count + c }]) x =
      bytesPerSector * r.stop + (x - (p + totalCount (t ++ [r]))) := by
  obtain ⟨ht, hr⟩ := consecutive_append.mp hc
  rw [consecutive_singleton] at hr
  rw [totalCount_append, totalCount_cons, totalCount_nil] at hx hlt ⊢
  have hmul := Nat.mul_div_cancel' hdvd
  have hin : x < r.buffer + (r.count + c) := by omega
  rw [diskAddr_append_of_le ht (by omega), diskAddr_cons_of_lt hin]
  dsimp only
  rw [hoffset, ReadRequest.stop, Nat.mul_add, hmul]
  omega

/-- Older bytes are read from where they were. -/
theorem diskAddr_merged_of_lt {c x : ℕ} (hc : Consecutive p (t ++ [r])) (hp : p ≤ x)
    (hx : x < p + totalCount (t ++ [r])) :
    diskAddr (t ++ [{ r with count := r.count + c }]) x = diskAddr (t ++ [r]) x := by
  obtain ⟨ht, hr⟩ := consecutive_append.mp hc
  rw [consecutive_singleton] at hr
  rw [totalCount_append, totalCount_cons, totalCount_nil] at hx
  by_cases hin : x < p + totalCount t
  · rw [diskAddr_append_of_lt ht hp hin, diskAddr_append_of_lt ht hp hin]
  · have hlt : x < r.buffer + r.count := by omega
    have hlt' : x < r.buffer + (r.count + c) := by omega
    rw [diskAddr_append_of_le ht (by omega), diskAddr_append_of_le ht (by omega), diskAddr_cons_of_lt hlt,
      diskAddr_cons_of_lt hlt']

theorem forall_range_iff {a b c : ℕ} {P : ℕ → Prop} (hab : a ≤ b) :
    (∀ x, a ≤ x → x < b + c → P x) ↔ (∀ x, a ≤ x → x < b → P x) ∧ ∀ x, b ≤ x → x < b + c → P x := by
  constructor
  · intro h
    exact ⟨fun x h1 h2 => h x h1 (by omega), fun x h1 h2 => h x (by omega) h2⟩
  · rintro ⟨h1, h2⟩ x ha hx
    by_cases hb : x < b
    · exact h1 x ha hb
    · exact h2 x (by omega) hx

theorem Merged.same_append {done rs rs' : List ReadRequest} {qs : List ReadRequest} (h : Merged p done rs)
    (hdone : Consecutive p done)
    (hold : ∀ x, p ≤ x → x < p + totalCount done → diskAddr rs' x = diskAddr rs x) :
    (∀ x, p ≤ x → x < p + totalCount done → diskAddr rs' x = diskAddr (done ++ qs) x) ↔
      NoWrap done := by
  rw [← h.same]
  apply forall_congr'
  intro x
  apply forall_congr'
  intro hp
  apply forall_congr'
  intro hx
  rw [hold x hp hx, diskAddr_append_of_lt hdone hp hx]

/-- A call whose bytes are added to the last request. -/
theorem Merged.extend (h : Merged p (d ++ [q₀]) (t ++ [r])) (hdone : Consecutive p (d ++ [q₀]))
    (hq : IsCall q)
    (hbuffer : q.buffer = p + totalCount (d ++ [q₀])) (hdvd : bytesPerSector ∣ r.count)
    (hmod : u32 r.stop = u32 q₀.stop) (hstop : NoWrap (d ++ [q₀]) → r.stop = q₀.stop)
    (heq : u32 r.stop = q.sector) :
    Merged p (d ++ [q₀] ++ [q]) (t ++ [{ r with count := r.count + q.count }]) := by
  have htotal := h.total
  have hr := h.call r (by simp)
  obtain ⟨hct, hcr⟩ := consecutive_append.mp h.consecutive
  have hmerged : ReadRequest.stop { r with count := r.count + q.count } =
      r.stop + q.count / bytesPerSector := by
    unfold ReadRequest.stop
    dsimp only
    rw [Nat.add_div_of_dvd_right hdvd, Nat.add_assoc]
  refine ⟨?_, ?_, ?_, ?_, ?_, ?_⟩
  · exact consecutive_append.mpr ⟨hct, consecutive_singleton.mpr (consecutive_singleton.mp hcr)⟩
  · simp only [totalCount_append, totalCount_cons, totalCount_nil] at htotal ⊢
    omega
  · intro x hx
    rw [List.mem_append, List.mem_singleton] at hx
    rcases hx with hx | rfl
    · exact h.call x (by simp [hx])
    · exact ⟨hr.sector_ne, hr.sector_lt, hr.offset, hr.count.trans (Nat.le_add_right _ _)⟩
  · have := h.length
    simp only [List.length_append, List.length_singleton] at this ⊢
    omega
  · intro d' q' hd' hwhole
    obtain ⟨-, hlast⟩ := List.append_inj' hd' rfl
    rw [List.singleton_inj] at hlast
    subst hlast
    have hqdvd := hwhole q (by simp)
    refine ⟨t, _, rfl, (Nat.dvd_add_right hdvd).mpr hqdvd, ?_, ?_⟩
    · rw [hmerged, ReadRequest.stop.eq_def q, ← heq]
      unfold u32
      rw [Nat.mod_add_mod]
    · intro hno
      obtain ⟨hno, hfollows⟩ := noWrap_concat.mp hno
      rw [hmod] at heq
      rw [hmerged, hstop hno, hfollows heq]
      rfl
  · rw [totalCount_append, ← Nat.add_assoc, forall_range_iff (Nat.le_add_right _ _), noWrap_concat,
      h.same_append hdone fun x hp hx => diskAddr_merged_of_lt h.consecutive hp (by omega)]
    apply and_congr_right
    intro hno
    -- the new bytes come from behind the last request, or from the sector of the call
    have hnew : ∀ x, p + totalCount (d ++ [q₀]) ≤ x →
        x < p + totalCount (d ++ [q₀]) + totalCount [q] →
        diskAddr (t ++ [{ r with count := r.count + q.count }]) x =
          bytesPerSector * r.stop + (x - (p + totalCount (d ++ [q₀]))) ∧
        diskAddr (d ++ [q₀] ++ [q]) x =
          bytesPerSector * q.sector + (x - (p + totalCount (d ++ [q₀]))) := by
      intro x hp hx
      rw [totalCount_cons, totalCount_nil] at hx
      have hlt : x < q.buffer + q.count := by omega
      rw [diskAddr_append_of_le hdone hp, diskAddr_cons_of_lt hlt, hq.offset, hbuffer, ← htotal,
        diskAddr_merged h.consecutive hr.offset (by omega) (by omega) hdvd]
      exact ⟨rfl, rfl⟩
    constructor
    · intro hall _
      have hcount := hq.count
      have hx : p + totalCount (d ++ [q₀]) < p + totalCount (d ++ [q₀]) + totalCount [q] := by
        rw [totalCount_cons]
        omega
      obtain ⟨h1, h2⟩ := hnew _ le_rfl hx
      have hboth := hall _ le_rfl hx
      rw [h1, h2, bytesPerSector] at hboth
      rw [← hstop hno]
      omega
    · intro hfollows x hp hx
      obtain ⟨h1, h2⟩ := hnew x hp hx
      rw [h1, h2, hstop hno, hfollows (hmod ▸ heq)]

/-- A call whose request is appended. -/
theorem Merged.append (h : Merged p (d ++ [q₀]) (t ++ [r])) (hdone : Consecutive p (d ++ [q₀]))
    (hq : IsCall q) (hbuffer : q.buffer = p + totalCount (d ++ [q₀]))
    (hmod : u32 r.stop = u32 q₀.stop) (hne : u32 r.stop ≠ q.sector) :
    Merged p (d ++ [q₀] ++ [q]) (t ++ [r] ++ [q]) := by
  have htotal := h.total
  refine ⟨?_, ?_, ?_, ?_, ?_, ?_⟩
  · rw [consecutive_append, htotal, consecutive_singleton]
    exact ⟨h.consecutive, hbuffer⟩
  · rw [totalCount_append (t ++ [r]), totalCount_append (d ++ [q₀]), htotal]
  · intro x hx
    rw [List.mem_append, List.mem_singleton] at hx
    rcases hx with hx | rfl
    · exact h.call x hx
    · exact hq
  · have := h.length
    simp only [List.length_append, List.length_singleton] at this ⊢
    omega
  · intro d' q' hd' hwhole
    obtain ⟨-, hlast⟩ := List.append_inj' hd' rfl
    rw [List.singleton_inj] at hlast
    subst hlast
    exact ⟨t ++ [r], q, rfl, hwhole q (by simp), rfl, fun _ => rfl⟩
  · rw [totalCount_append, ← Nat.add_assoc, forall_range_iff (Nat.le_add_right _ _), noWrap_concat,
      h.same_append hdone fun x hp hx => diskAddr_append_of_lt h.consecutive hp (by omega) [q]]
    apply and_congr_right
    intro _
    constructor
    · intro _ heq
      exact absurd (hmod.trans heq) hne
    · intro _ x hp hx
      rw [diskAddr_append_of_le hdone hp, diskAddr_append_of_le h.consecutive (by omega)]

end Step

theorem Merged.step {p k : ℕ} {done rs : List ReadRequest} {q : ReadRequest} (h : Merged p done rs)
    (hdone : Consecutive p done) (hq : IsCall q) (hbuffer : q.buffer = p + totalCount done)
    (hwhole : ∀ x ∈ done, bytesPerSector ∣ x.count) (hrange : p + totalCount done + q.count ≤ 2 ^ 32)
    (hsize : totalCount done + q.count < 2 ^ 32) :
    ∃ rs' k', queueRead (rs ++ List.replicate (k + 1) .empty) q =
        some (rs' ++ List.replicate k' .empty) ∧
      rs'.length + k' = rs.length + (k + 1) ∧ Merged p (done ++ [q]) rs' := by
  rcases List.eq_nil_or_concat done with rfl | ⟨d, q₀, rfl⟩
  · have hnil : rs = [] := List.eq_nil_of_length_eq_zero (Nat.le_zero.mp h.length)
    subst hnil
    refine ⟨[q], k, rfl, by simp; omega, ?_⟩
    exact merged_first hq hbuffer
  · rw [List.concat_eq_append] at h hdone hbuffer hwhole hrange hsize ⊢
    obtain ⟨t, r, rfl, hdvd, hmod, hstop⟩ := h.last d q₀ rfl hwhole
    have hr := h.call r (by simp)
    have htotal := h.total
    have hcount := hq.count
    obtain ⟨ht, hcr⟩ := consecutive_append.mp h.consecutive
    rw [consecutive_singleton] at hcr
    rw [totalCount_append t, totalCount_cons, totalCount_nil] at htotal
    have hskip : ∀ x ∈ t, x.sector ≠ 0 ∧ x.buffer + x.count < q.buffer := by
      intro x hx
      have hle := (ht.bounds hx).2
      have hpos := hr.count
      exact ⟨(h.call x (by simp [hx])).sector_ne, by omega⟩
    rw [List.append_assoc, queueRead_append hskip (by omega), List.singleton_append, queueRead,
      if_neg hr.sector_ne]
    by_cases hm : u32 r.stop = q.sector
    · have hsector := (sector_eq_iff hr.sector_lt (by omega) hq.sector_lt).mpr hm
      have hbuf : r.buffer = u32 (q.buffer + 2 ^ 32 - r.count) := by
        unfold u32
        omega
      refine ⟨t ++ [{ r with count := r.count + q.count }], k + 1, ?_, by simp,
        h.extend hdone hq hbuffer hdvd hmod hstop hm⟩
      rw [if_pos ⟨hsector, hbuf⟩, u32_of_lt (show r.count + q.count < 2 ^ 32 by omega)]
      simp
    · refine ⟨t ++ [r] ++ [q], k, ?_, by simp; omega, h.append hdone hq hbuffer hmod hm⟩
      rw [if_neg fun hc => hm ((sector_eq_iff hr.sector_lt (by omega) hq.sector_lt).mp hc.1),
        List.replicate_succ]
      simp [queueRead, ReadRequest.empty]

/-! ## All calls -/

theorem Merged.run {p k : ℕ} {done qs rs : List ReadRequest} (h : Merged p done rs)
    (hcalls : Calls p (done ++ qs)) (hk : done.length + qs.length ≤ rs.length + k) :
    ∃ rs' k', queueAll (rs ++ List.replicate k .empty) qs = some (rs' ++ List.replicate k' .empty) ∧
      rs'.length + k' = rs.length + k ∧ Merged p (done ++ qs) rs' := by
  induction qs generalizing done rs k with
  | nil => exact ⟨rs, k, rfl, rfl, by simpa using h⟩
  | cons q qs ih =>
    rw [List.length_cons] at hk
    have hlength := h.length
    obtain ⟨k, rfl⟩ : ∃ l, k = l + 1 := ⟨k - 1, by omega⟩
    obtain ⟨hdone, hbuffer, -⟩ := consecutive_append.mp hcalls.consecutive
    have hrange := hcalls.range
    have hsize := hcalls.size
    rw [totalCount_append, totalCount_cons] at hrange hsize
    have hwhole : ∀ x ∈ done, bytesPerSector ∣ x.count := by
      intro x hx
      apply hcalls.whole
      rw [List.dropLast_append_of_ne_nil (List.cons_ne_nil q qs)]
      exact List.mem_append_left _ hx
    obtain ⟨rs1, k1, hq1, hlen1, h1⟩ := h.step (k := k) hdone (hcalls.call q (by simp)) hbuffer hwhole
      (by omega) (by omega)
    rw [List.append_cons] at hcalls ⊢
    obtain ⟨rs', k', hrun, hlen, h'⟩ := ih (k := k1) h1 hcalls (by
      rw [List.length_append, List.length_singleton]
      omega)
    refine ⟨rs', k', ?_, by omega, h'⟩
    rw [queueAll, hq1]
    exact hrun

/-- Two lists of requests for the same buffer read the same from every disk exactly if they
read each byte from the same place. -/
theorem sendRequests_eq_iff {p k k' : ℕ} {qs rs : List ReadRequest} (hq : Consecutive p qs)
    (hr : Consecutive p rs) (hqs : ∀ q ∈ qs, q.sector ≠ 0) (hrs : ∀ r ∈ rs, r.sector ≠ 0)
    (htotal : totalCount rs = totalCount qs) :
    (∀ B : BlockLayer, B.Exact → ∀ disk mem,
      sendRequests B disk (rs ++ List.replicate k .empty) mem =
        sendRequests B disk (qs ++ List.replicate k' .empty) mem) ↔
      ∀ x, p ≤ x → x < p + totalCount qs → diskAddr rs x = diskAddr qs x := by
  constructor
  · intro h x hp hx
    -- a disk with a single byte at the place
    let disk : Mem := fun a => if a = diskAddr qs x then 1 else 0
    have hB := BlockLayer.exact_exactWith (fun _ => 0)
    have hsame := h _ hB disk fun _ => 0
    rw [sendRequests_eq hB disk hr hrs, sendRequests_eq hB disk hq hqs, htotal, Prod.mk.injEq] at hsame
    have hbyte := congrFun hsame.2 x
    rw [if_pos ⟨hp, hx⟩, if_pos ⟨hp, hx⟩] at hbyte
    by_contra hne
    simp [disk, hne] at hbyte
  · intro h B hB disk mem
    rw [sendRequests_eq hB disk hr hrs, sendRequests_eq hB disk hq hqs, htotal]
    congr 1
    funext x
    by_cases hx : p ≤ x ∧ x < p + totalCount qs
    · rw [if_pos hx, if_pos hx, h x hx.1 hx.2]
    · rw [if_neg hx, if_neg hx]

/-- The merged requests number no more than the calls, their buffers follow each other over
the same range, and they read what the calls read if and only if no call starts behind the
one before it only after a wrap-around. -/
theorem queueRead_preserves_iff {p n : ℕ} {qs : List ReadRequest} (h : Calls p qs) (hn : qs.length ≤ n) :
    ∃ rs k, queueAll (List.replicate n .empty) qs = some (rs ++ List.replicate k .empty) ∧
      rs.length ≤ qs.length ∧ Consecutive p rs ∧ totalCount rs = totalCount qs ∧
      ((∀ B : BlockLayer, B.Exact → ∀ disk mem,
        sendRequests B disk (rs ++ List.replicate k .empty) mem = sendRequests B disk qs mem) ↔
        NoWrap qs) := by
  obtain ⟨rs, k, hrun, -, hm⟩ : ∃ rs k, queueAll (List.replicate n .empty) qs =
      some (rs ++ List.replicate k .empty) ∧ rs.length + k = n ∧ Merged p qs rs := by
    have hrun := (merged_nil p).run (k := n) h (by simpa using hn)
    simpa using hrun
  refine ⟨rs, k, hrun, hm.length, hm.consecutive, hm.total, ?_⟩
  rw [← hm.same, ← @sendRequests_eq_iff p k 0 qs rs h.consecutive hm.consecutive
    (fun q hq => (h.call q hq).sector_ne) (fun r hr => (hm.call r hr).sector_ne) hm.total]
  simp

/-- A call for the sectors behind the last 32-bit sector number, and one for sector 2. -/
def wrappingCalls : List ReadRequest := [⟨0xFFFFFFFE, 2048, 0, 0x1000⟩, ⟨2, 512, 0, 0x1800⟩]

/-- They are merged, and the bytes of the second one are read from elsewhere. -/
theorem queueRead_wraps :
    Calls 0x1000 wrappingCalls ∧
    queueAll (List.replicate 2 .empty) wrappingCalls = some [⟨0xFFFFFFFE, 2560, 0, 0x1000⟩, .empty] ∧
    ¬∀ B : BlockLayer, B.Exact → ∀ disk mem,
      sendRequests B disk [⟨0xFFFFFFFE, 2560, 0, 0x1000⟩, .empty] mem =
        sendRequests B disk wrappingCalls mem := by
  refine ⟨⟨⟨rfl, rfl, trivial⟩, ?_, ?_, by decide, by decide⟩, by decide, ?_⟩
  · intro q hq
    simp only [wrappingCalls, List.mem_cons, List.not_mem_nil, or_false] at hq
    rcases hq with rfl | rfl
    · exact ⟨by decide, by decide, rfl, by decide⟩
    · exact ⟨by decide, by decide, rfl, by decide⟩
  · simp [wrappingCalls, bytesPerSector]
  · intro h
    have hiff := @sendRequests_eq_iff 0x1000 1 0 wrappingCalls [⟨0xFFFFFFFE, 2560, 0, 0x1000⟩]
      ⟨rfl, rfl, trivial⟩ ⟨rfl, trivial⟩
      (by simp [wrappingCalls]) (by simp) rfl
    have hplace := hiff.mp (by simpa using h) 0x1800 (by decide) (by decide)
    revert hplace
    decide

/-- Two neighbouring blocks are read by one request. -/
theorem queueRead_preserves_two :
    ∃ rs k, queueAll (List.replicate 2 .empty) [⟨8, 1024, 0, 0x1000⟩, ⟨10, 24, 0, 0x1400⟩] =
        some (rs ++ List.replicate k .empty) ∧ rs.length ≤ 2 ∧
      ∀ B : BlockLayer, B.Exact → ∀ disk mem,
        sendRequests B disk (rs ++ List.replicate k .empty) mem =
          sendRequests B disk [⟨8, 1024, 0, 0x1000⟩, ⟨10, 24, 0, 0x1400⟩] mem := by
  have hcalls : Calls 0x1000 [⟨8, 1024, 0, 0x1000⟩, ⟨10, 24, 0, 0x1400⟩] := by
    refine ⟨⟨rfl, rfl, trivial⟩, ?_, by simp [bytesPerSector], by decide, by decide⟩
    intro q hq
    simp only [List.mem_cons, List.not_mem_nil, or_false] at hq
    rcases hq with rfl | rfl
    · exact ⟨by decide, by decide, rfl, by decide⟩
    · exact ⟨by decide, by decide, rfl, by decide⟩
  obtain ⟨rs, k, hrun, hlen, -, -, hiff⟩ := queueRead_preserves_iff hcalls le_rfl
  exact ⟨rs, k, hrun, hlen, hiff.mpr (by simp [NoWrap, Follows, ReadRequest.stop, bytesPerSector])⟩

end VkKernel.Ext2
