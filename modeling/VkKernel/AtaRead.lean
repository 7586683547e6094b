import VkKernel.Ata

/-!
# Reads from ATA drives

One transfer, successful or not, stores a run of bytes from the front of its
part of the buffer. From this follow which bytes a whole read stores, and when
they are the bytes of the disk.
-/

namespace VkKernel.Ata
open ByteMemory IntervalUpdate

/-! ## One transfer -/

theorem checkSector_of_lt {lba48 : Bool} {sector : ℕ} (h : sector < 2 ^ 28) :
    checkSector lba48 sector = .none := by
  have hand : sector &&& 0xF0000000 = 0 := by
    apply Nat.eq_of_testBit_eq
    intro i
    rw [Nat.testBit_and, Nat.zero_testBit, Bool.and_eq_false_iff]
    by_cases hi : i < 28
    · right
      rw [show 0xF0000000 = 15 <<< 28 by rfl, Nat.testBit_shiftLeft]
      simp only [ge_iff_le, Bool.and_eq_false_iff, decide_eq_false_iff_not]
      left
      omega
    · left
      apply Nat.testBit_lt_two_pow
      calc sector < 2 ^ 28 := h
        _ ≤ 2 ^ i := Nat.pow_le_pow_right (by norm_num) (by omega)
  unfold checkSector
  rw [if_neg (by omega), hand, if_neg (by decide)]

theorem sectorCount_eq {count : ℕ} (h : count < 2 ^ 32) :
    sectorCount bytesPerSector count = (count + 511) / 512 := by
  have hdiv : u32 (count / 512) = count / 512 := u32_of_lt (by omega)
  unfold sectorCount bytesPerSector
  rw [hdiv]
  split_ifs
  · rw [u32_of_lt (by omega)]
    omega
  · rw [u32_of_lt (by omega)]
    omega

/-- One of the polls within the first `n` bytes reports an error. The drive is
polled before the transfer and after every 1024 bytes. -/
def Attempt.Fails (t : Attempt) (n : ℕ) : Prop := ∃ p, 1024 * p ≤ n ∧ t.poll p ≠ .none

theorem Attempt.Fails.mono {t : Attempt} {n k : ℕ} (h : t.Fails n) (hk : n ≤ k) : t.Fails k := by
  obtain ⟨p, hp, hf⟩ := h
  exact ⟨p, by omega, hf⟩

/-- The memory after the bytes below `i` have been read. -/
def readSoFar (m : Mem) (port : Mem) (offset a count i : ℕ) : Mem :=
  overwrite m a (min (i - offset) count) fun t => port (offset + t)

/-- One word: the two stores of the loop body. -/
theorem readSoFar_step (m port : Mem) {offset a count i : ℕ} (hi : i < count + offset) :
    (if i + 1 < offset then readSoFar m port offset a count i
      else
        let m := if i ≥ offset then
            Function.update (readSoFar m port offset a count i) (a + (i - offset)) (port i)
          else readSoFar m port offset a count i
        if i + 1 < count + offset then Function.update m (a + (i + 1 - offset)) (port (i + 1))
        else m) = readSoFar m port offset a count (i + 2) := by
  have store : ∀ j, offset ≤ j → j < count + offset →
      Function.update (readSoFar m port offset a count j) (a + (j - offset)) (port j) =
        readSoFar m port offset a count (j + 1) := by
    intro j hj hlt
    unfold readSoFar
    rw [show min (j + 1 - offset) count = (j - offset) + 1 by omega, overwrite_succ_eq_update,
      show min (j - offset) count = j - offset by omega, Nat.add_sub_of_le hj]
  have stay : ∀ j k, min (j - offset) count = min (k - offset) count →
      readSoFar m port offset a count j = readSoFar m port offset a count k := by
    intro j k h
    unfold readSoFar
    rw [h]
  by_cases h1 : i + 1 < offset
  · rw [if_pos h1]
    exact stay _ _ (by omega)
  · rw [if_neg h1]
    have hfirst : (if i ≥ offset then
        Function.update (readSoFar m port offset a count i) (a + (i - offset)) (port i)
          else readSoFar m port offset a count i) = readSoFar m port offset a count (i + 1) := by
      split_ifs with h2
      · exact store i h2 hi
      · exact stay _ _ (by omega)
    rw [hfirst]
    dsimp only
    split_ifs with h3
    · exact store (i + 1) (by omega) h3
    · exact stay _ _ (by omega)

/-- The loop stores a run of bytes from the front: all of them if no poll fails,
else those before the first failing poll. -/
theorem pioReadLoop_spec (t : Attempt) (m port : Mem) (offset a : ℕ) {count fuel i : ℕ}
    (hcount : 0 < count) (hfuel : count + offset ≤ i + 2 * fuel) (hi : i % 2 = 0)
    (hle : i ≤ count + offset + (count + offset) % 2)
    (hpoll : ∀ p, 1024 * p ≤ i → t.poll p = .none) :
    let r := pioReadLoop t.poll port offset a count fuel i (readSoFar m port offset a count i)
    let total := count + offset + (count + offset) % 2
    (¬t.Fails total ∧ r = (.none, overwrite m a count fun j => port (offset + j))) ∨
      t.Fails total ∧ r.1 ≠ .none ∧ ∃ n ≤ count,
        r.2 = (overwrite m a n fun j => port (offset + j)) ∧
          ∀ x < count, n ≤ x ↔ t.Fails (offset + x) := by
  have done : ∀ i, i % 2 = 0 → count + offset ≤ i → i ≤ count + offset + (count + offset) % 2 →
      (∀ p, 1024 * p ≤ i → t.poll p = .none) →
      ¬t.Fails (count + offset + (count + offset) % 2) ∧
        ((.none, readSoFar m port offset a count i) : ErrorT × Mem) =
          (.none, overwrite m a count fun j => port (offset + j)) := by
    intro i hi hge hle hpoll
    constructor
    · rintro ⟨p, hp, hf⟩
      exact hf (hpoll p (by omega))
    · unfold readSoFar
      rw [show min (i - offset) count = count by omega]
  induction fuel generalizing i with
  | zero =>
    left
    exact done i hi (by omega) hle hpoll
  | succ fuel ih =>
    dsimp only
    rw [pioReadLoop]
    by_cases hlt : i < count + offset
    · rw [if_pos hlt, readSoFar_step m port hlt]
      by_cases hfail : (i + 2) % (512 * 2) = 0 ∧ t.poll ((i + 2) / (512 * 2)) ≠ .none
      · rw [if_pos hfail]
        right
        have hp : 1024 * ((i + 2) / (512 * 2)) = i + 2 := by omega
        refine ⟨⟨_, by omega, hfail.2⟩, hfail.2, min (i + 2 - offset) count, by omega, rfl, ?_⟩
        intro x hx
        constructor
        · intro hn
          exact ⟨_, by omega, hfail.2⟩
        · rintro ⟨p, hpx, hpf⟩
          -- polls up to `i` have succeeded, so `p` is not before the failing one
          have hp' : i < 1024 * p := by
            by_contra hle'
            exact hpf (hpoll p (by omega))
          omega
      · rw [if_neg hfail]
        apply ih (by omega) (by omega) (by omega)
        intro p hp
        by_cases hpi : 1024 * p ≤ i
        · exact hpoll p hpi
        · have hpe : 1024 * p = i + 2 := by omega
          rw [not_and_or, not_not] at hfail
          rcases hfail with h | h
          · omega
          · rwa [show (i + 2) / (512 * 2) = p by omega] at h
    · rw [if_neg hlt]
      left
      exact done i hi (by omega) hle hpoll

/-- The bytes that a request for `count` bytes makes the drive deliver. -/
def transferred (count : ℕ) : ℕ := 512 * ((count + 511) / 512)

theorem le_transferred (count : ℕ) : count ≤ transferred count := by
  unfold transferred
  omega

/-- What a transfer function does with a request of at most `limit` bytes. It
succeeds if `ok` holds of the offset, the size and the number of the transfer.
`Bad` holds of the states in which the bytes behind the delivered sectors come
from `b`. -/
structure ReadSpec (read : ℕ → ℕ → ℕ → ℕ → State → ErrorT × State) (ok : ℕ → ℕ → ℕ → Prop)
    (limit : ℕ) (Bad : State → Prop) (b : Mem) : Prop where
  disk : ∀ {sector offset a count s}, sector < 2 ^ 28 → 0 < count → count ≤ limit →
    (read sector offset a count s).2.disk = s.disk
  transfers : ∀ {sector offset a count s}, sector < 2 ^ 28 → 0 < count → count ≤ limit →
    (read sector offset a count s).2.transfers = s.transfers + 1
  code : ∀ {sector offset a count s}, sector < 2 ^ 28 → 0 < count → count ≤ limit →
    ((read sector offset a count s).1 = .none ↔ ok offset count s.transfers)
  stores : ∀ {sector offset a count s}, sector < 2 ^ 28 → 0 < count → count ≤ limit →
    ∃ n ≤ count, ∃ w, (read sector offset a count s).2.memory = overwrite s.memory a n w
  data : ∀ {sector offset a count s}, sector < 2 ^ 28 → 0 < count → count ≤ limit →
    (read sector offset a count s).1 = .none → ∀ i, i < count →
      (offset + i < transferred count →
        (read sector offset a count s).2.memory (a + i) = s.disk (512 * sector + (offset + i))) ∧
      (transferred count ≤ offset + i → Bad s →
        (read sector offset a count s).2.memory (a + i) = b (offset + i))
  bad : ∀ {sector offset a count s}, sector < 2 ^ 28 → 0 < count → count ≤ limit →
    (read sector offset a count s).1 ≠ .none → Bad s → Bad (read sector offset a count s).2

/-- The result of one PIO transfer: the bytes that it stores, and that it fails
if one of its polls does. -/
theorem pioReadFlexible_spec (e : Drive) (left : Leftover) (sector offset a count : ℕ) (s : State)
    (hsector : sector < 2 ^ 28) (hcount : 0 < count) (hle : count ≤ 255 * 512) :
    let t := e.attempts s.transfers
    let r := pioReadFlexible e left sector offset a count s
    let total := count + offset + (count + offset) % 2
    let v := fun j => delivered s.disk bytesPerSector sector ((count + 511) / 512)
      (left.port s.transfers) (offset + j)
    (r.1 = .none ↔ ¬t.Fails total) ∧ ∃ n ≤ count,
      r.2 = { s with memory := overwrite s.memory a n v, transfers := s.transfers + 1 } ∧
        (r.1 = .none → n = count) ∧
          (r.1 ≠ .none → ∀ x < count, n ≤ x ↔ t.Fails (offset + x)) := by
  intro t r total v
  have hr : r = if t.poll 0 ≠ .none then
      (t.poll 0, { s with transfers := s.transfers + 1 })
      else
        let r := pioReadLoop t.poll (delivered s.disk bytesPerSector sector ((count + 511) / 512)
          (left.port s.transfers)) offset a count (count + offset) 0 s.memory
        (r.1, { s with memory := r.2, transfers := s.transfers + 1 }) := by
    change pioReadFlexible e left sector offset a count s = _
    unfold pioReadFlexible
    dsimp only
    rw [if_neg (by omega), sectorCount_eq (by omega), if_neg (by omega), checkSector_of_lt hsector,
      if_neg (by decide)]
  by_cases h0 : t.poll 0 ≠ .none
  · rw [if_pos h0] at hr
    rw [hr]
    refine ⟨⟨fun h => absurd h h0, fun h => absurd ⟨0, by omega, h0⟩ h⟩, 0, by omega, ?_,
      fun h => absurd h h0, fun _ x _ => ⟨fun _ => ⟨0, by omega, h0⟩, fun _ => Nat.zero_le x⟩⟩
    rw [overwrite_zero]
  · rw [if_neg h0, not_not] at *
    have hspec := pioReadLoop_spec t s.memory (delivered s.disk bytesPerSector sector
      ((count + 511) / 512) (left.port s.transfers)) offset a (i := 0) hcount
      (show count + offset ≤ 0 + 2 * (count + offset) by omega) rfl (by omega) (by
        intro p hp
        rwa [show p = 0 by omega])
    have hstart : readSoFar s.memory (delivered s.disk bytesPerSector sector
        ((count + 511) / 512) (left.port s.transfers)) offset a count 0 = s.memory := by
      unfold readSoFar
      rw [show min (0 - offset) count = 0 by omega, overwrite_zero]
    rw [hstart] at hspec
    rcases hspec with ⟨hok, heq⟩ | ⟨hfail, herr, n, hn, hm, hx⟩
    · rw [hr, heq]
      exact ⟨⟨fun _ => hok, fun _ => rfl⟩, count, le_rfl, rfl, fun _ => rfl,
        fun h => absurd rfl h⟩
    · rw [hr]
      refine ⟨⟨fun h => absurd h herr, fun h => absurd hfail h⟩, n, hn, ?_,
        fun h => absurd h herr, fun _ => hx⟩
      dsimp only
      rw [hm]

/-- A PIO transfer of this size succeeds. -/
def PioOk (e : Drive) (offset count k : ℕ) : Prop :=
  ¬(e.attempts k).Fails (count + offset + (count + offset) % 2)

theorem readSpec_pio (e : Drive) (left : Leftover) (b : Mem) :
    ReadSpec (pioReadFlexible e left) (PioOk e) (255 * 512) (fun _ => ∀ k, left.port k = b) b where
  disk hs hc hl := by
    obtain ⟨-, n, -, heq, -⟩ := pioReadFlexible_spec e left _ _ _ _ _ hs hc hl
    rw [heq]
  transfers hs hc hl := by
    obtain ⟨-, n, -, heq, -⟩ := pioReadFlexible_spec e left _ _ _ _ _ hs hc hl
    rw [heq]
  code hs hc hl := (pioReadFlexible_spec e left _ _ _ _ _ hs hc hl).1
  stores {sector offset a count s} hs hc hl := by
    obtain ⟨-, n, hn, heq, -⟩ := pioReadFlexible_spec e left sector offset a count s hs hc hl
    have hm := congrArg State.memory heq
    dsimp only at hm
    exact ⟨n, hn, _, hm⟩
  data hs hc hl hok i hi := by
    obtain ⟨-, n, -, heq, hnone, -⟩ := pioReadFlexible_spec e left _ _ _ _ _ hs hc hl
    rw [heq, hnone hok]
    dsimp only
    rw [overwrite_of_mem (by omega) (by omega), Nat.add_sub_cancel_left]
    unfold delivered
    constructor
    · intro h
      exact if_pos h
    · intro h hb
      rw [if_neg (by unfold bytesPerSector; unfold transferred at h; omega), hb]
  bad _ _ _ _ hb := hb

/-- A DMA transfer succeeds, whatever its size. -/
def DmaOk (e : Drive) (_offset _count k : ℕ) : Prop :=
  (e.attempts k).locked = false ∧ (e.attempts k).dmaOk

/-- The three ways a DMA read of a hard disk can go. -/
theorem dmaTransfer_cases (e : Drive) (left : Leftover) (hatapi : e.atapi = false) (owned : Bool)
    (sector count : ℕ) (s : State) (hsector : sector < 2 ^ 28) (hcount : 0 < count)
    (hle : count ≤ 127 * 512) :
    let t := e.attempts s.transfers
    dmaTransfer e left owned sector count s =
      if t.locked ∧ ¬owned then
        (.mutexAlreadyLocked, false, { s with transfers := s.transfers + 1 })
      else if t.dmaOk then
        (.none, true, { s with
          buffer := overwrite s.buffer 0 (transferred count) fun j => s.disk (512 * sector + j)
          transfers := s.transfers + 1 })
      else
        (.diskInternal, true,
          { s with buffer := left.buffer s.transfers, transfers := s.transfers + 1 }) := by
  intro t
  unfold dmaTransfer
  dsimp only
  rw [if_neg (by omega), hatapi]
  simp only [Bool.false_eq_true, if_false, and_false, false_and, not_false_eq_true, true_and]
  rw [sectorCount_eq (by omega), if_neg (by omega : ¬(count + 511) / 512 > 127),
    checkSector_of_lt hsector]
  simp only [ne_eq, not_true_eq_false, if_false]
  rfl

theorem dmaReadFlexible_cases (e : Drive) (left : Leftover) (hatapi : e.atapi = false)
    (sector offset a count : ℕ) (s : State) (hsector : sector < 2 ^ 28) (hcount : 0 < count)
    (hle : count ≤ 127 * 512) :
    let t := e.attempts s.transfers
    let full := overwrite s.buffer 0 (transferred count) fun j => s.disk (512 * sector + j)
    let failed := left.buffer s.transfers
    dmaReadFlexible e left sector offset a count s =
      if t.locked = true then (.mutexAlreadyLocked, { s with transfers := s.transfers + 1 })
      else if t.dmaOk then
        (.none, { s with
          buffer := full
          memory := overwrite s.memory a count fun i => full (offset + i)
          transfers := s.transfers + 1 })
      else
        (.diskInternal, { s with
          buffer := failed
          memory := overwrite s.memory a count fun i => failed (offset + i)
          transfers := s.transfers + 1 }) := by
  intro t full failed
  unfold dmaReadFlexible
  rw [dmaTransfer_cases e left hatapi false sector count s hsector hcount hle]
  by_cases hlock : (e.attempts s.transfers).locked = true
  · rw [if_pos ⟨hlock, by decide⟩, if_pos hlock]
    rfl
  · rw [if_neg (fun h => hlock h.1), if_neg hlock]
    by_cases hok : (e.attempts s.transfers).dmaOk
    · rw [if_pos hok, if_pos hok]
      rfl
    · rw [if_neg hok, if_neg hok]
      rfl

theorem readSpec_dma (e : Drive) (left : Leftover) (hatapi : e.atapi = false) (b : Mem) :
    ReadSpec (dmaReadFlexible e left) (DmaOk e) (127 * 512)
      (fun s => s.buffer = b ∧ ∀ k, left.buffer k = b) b where
  disk {sector offset a count s} hs hc hl := by
    rw [dmaReadFlexible_cases e left hatapi sector offset a count s hs hc hl]
    split_ifs <;> rfl
  transfers {sector offset a count s} hs hc hl := by
    rw [dmaReadFlexible_cases e left hatapi sector offset a count s hs hc hl]
    split_ifs <;> rfl
  code {sector offset a count s} hs hc hl := by
    rw [dmaReadFlexible_cases e left hatapi sector offset a count s hs hc hl]
    unfold DmaOk
    split_ifs with hlock hok
    · simp [hlock]
    · simp [hlock, hok]
    · simp [hok]
  stores {sector offset a count s} hs hc hl := by
    rw [dmaReadFlexible_cases e left hatapi sector offset a count s hs hc hl]
    split_ifs
    · exact ⟨0, by omega, fun _ => 0, (overwrite_zero _ _ _).symm⟩
    · exact ⟨count, le_rfl, _, by dsimp only⟩
    · exact ⟨count, le_rfl, _, by dsimp only⟩
  data {sector offset a count s} hs hc hl hnone i hi := by
    rw [dmaReadFlexible_cases e left hatapi sector offset a count s hs hc hl] at hnone ⊢
    split_ifs at hnone ⊢ with hlock hok
    dsimp only
    rw [overwrite_of_mem (by omega) (by omega), Nat.add_sub_cancel_left]
    constructor
    · intro h
      rw [overwrite_of_mem (by omega) (by omega)]
      rfl
    · intro h hbad
      rw [overwrite_of_notMem (by omega), hbad.1]
  bad {sector offset a count s} hs hc hl herr hbad := by
    rw [dmaReadFlexible_cases e left hatapi sector offset a count s hs hc hl] at herr ⊢
    split_ifs at herr ⊢ with hlock hok
    · exact hbad
    · exact absurd rfl herr
    · exact ⟨hbad.2 _, hbad.2⟩

/-! ## Three attempts -/

section Thrice
variable {f g : State → ErrorT × State} {s : State}

theorem thrice_invariant {I : State → Prop} (hs : I s) (hf : ∀ s, I s → I (f s).2)
    (hg : ∀ s, I s → I (g s).2) : I (thrice f g s).2 := by
  unfold thrice
  dsimp only
  split_ifs
  · exact hf s hs
  · exact hg _ (hf s hs)
  · exact hg _ (hg _ (hf s hs))

/-- What holds before each attempt, and of the attempt that succeeds. -/
theorem thrice_success {I : State → Prop} {Q : State → Prop} (hs : I s)
    (hf : ∀ s, I s → (f s).1 ≠ .none → I (f s).2) (hg : ∀ s, I s → (g s).1 ≠ .none → I (g s).2)
    (hfQ : ∀ s, I s → (f s).1 = .none → Q (f s).2)
    (hgQ : ∀ s, I s → (g s).1 = .none → Q (g s).2) (h : (thrice f g s).1 = .none) :
    Q (thrice f g s).2 := by
  unfold thrice at h ⊢
  dsimp only at h ⊢
  split_ifs at h ⊢ with h1 h2
  · exact hfQ s hs h1
  · exact hgQ _ (hf s hs h1) h2
  · exact hgQ _ (hg _ (hf s hs h1) h2) h

/-- The transfer before `j` is the first one to succeed of the three from `k` on. -/
def Tried (okf okg : ℕ → Prop) (k j : ℕ) : Prop :=
  okf k ∧ j = k + 1 ∨ ¬okf k ∧ okg (k + 1) ∧ j = k + 2 ∨
    ¬okf k ∧ ¬okg (k + 1) ∧ okg (k + 2) ∧ j = k + 3

theorem thrice_iff {okf okg : ℕ → Prop} (hf : ∀ s, (f s).1 = .none ↔ okf s.transfers)
    (hg : ∀ s, (g s).1 = .none ↔ okg s.transfers)
    (hft : ∀ s, (f s).2.transfers = s.transfers + 1)
    (hgt : ∀ s, (g s).2.transfers = s.transfers + 1) (j : ℕ) :
    ((thrice f g s).1 = .none ∧ (thrice f g s).2.transfers = j) ↔ Tried okf okg s.transfers j := by
  unfold thrice Tried
  dsimp only
  have h2 := hg (f s).2
  have h3 := hg (g (f s).2).2
  have t2 := hgt (f s).2
  have t3 := hgt (g (f s).2).2
  rw [hft] at h2 t2
  rw [t2] at h3 t3
  split_ifs with hc1 hc2
  · rw [hf] at hc1
    simp only [hf, hc1, true_and, not_true_eq_false, false_and, or_false, hft]
    exact eq_comm
  · rw [hf] at hc1
    rw [h2] at hc2
    simp only [hc1, false_and, not_false_eq_true, true_and, h2, hc2, not_true_eq_false, or_false,
      false_or, t2]
    exact eq_comm
  · rw [hf] at hc1
    rw [h2] at hc2
    simp only [hc1, false_and, not_false_eq_true, true_and, h3, hc2, false_or, t3]
    rw [eq_comm (a := j)]

end Thrice

/-! ## A read in chunks -/

section Chunks
variable {read : ℕ → ℕ → ℕ → ℕ → State → ErrorT × State} {ok : ℕ → ℕ → ℕ → Prop}
  {chunk sector : ℕ} {lastRetry sectorAt : ℕ → ℕ} {Bad : State → Prop} {b : Mem}

/-- The chunks at the sectors from `asect` on lie within the 28-bit range, and
the buffer within the address space. -/
structure InRange (sector offset a asect count : ℕ) : Prop where
  sectors : 512 * (sector + asect) + offset + count ≤ 512 * 2 ^ 28
  buffer : a + count < 2 ^ 32
  count_pos : 0 < count

theorem InRange.sector_lt {offset a asect count : ℕ} (h : InRange sector offset a asect count) :
    sector + asect < 2 ^ 28 := by
  have := h.sectors
  have := h.count_pos
  omega

/-- The range that is left after one full chunk. -/
theorem InRange.next {offset a asect count : ℕ} (h : InRange sector offset a asect count)
    (hc : count > chunk * 512) :
    u32 (a + chunk * 512) = a + chunk * 512 ∧ u32 (asect + chunk) = asect + chunk ∧
      InRange sector 0 (a + chunk * 512) (asect + chunk) (count - chunk * 512) := by
  have hs := h.sectors
  have hb := h.buffer
  exact ⟨u32_of_lt (by omega), u32_of_lt (by omega), ⟨by omega, by omega, by omega⟩⟩

/-- The sector of a chunk is computed right, and retries are not smaller than
the chunk. -/
structure ChunkSetup (chunk sector : ℕ) (lastRetry sectorAt : ℕ → ℕ) : Prop where
  sectorAt_eq : ∀ asect, sector + asect < 2 ^ 28 → sectorAt asect = sector + asect
  le_lastRetry : ∀ count, count ≤ chunk * 512 → count ≤ lastRetry count
  lastRetry_le : ∀ count, count ≤ chunk * 512 → lastRetry count ≤ chunk * 512

/-- One attempt keeps the disk and what lies before its part of the buffer. -/
theorem ReadSpec.keeps (hr : ReadSpec read ok (chunk * 512) Bad b) {sec offset a count : ℕ}
    (hsec : sec < 2 ^ 28) (hc : 0 < count) (hl : count ≤ chunk * 512) (d m : Mem) (s : State)
    (h : s.disk = d ∧ ∀ x < a, s.memory x = m x) :
    (read sec offset a count s).2.disk = d ∧
      ∀ x < a, (read sec offset a count s).2.memory x = m x := by
  obtain ⟨n, -, w, hm⟩ : ∃ n ≤ count, ∃ w,
      (read sec offset a count s).2.memory = overwrite s.memory a n w := hr.stores hsec hc hl
  refine ⟨(hr.disk hsec hc hl).trans h.1, fun x hx => ?_⟩
  rw [hm, overwrite_of_notMem (by omega)]
  exact h.2 x hx

/-- A successful read of one chunk that fits the delivered sectors. -/
theorem ReadSpec.chunk_data (hr : ReadSpec read ok (chunk * 512) Bad b)
    {sec offset a count retry : ℕ} (hsec : sec < 2 ^ 28) (hc : 0 < count) (hle : count ≤ retry)
    (hl : retry ≤ chunk * 512) (hfit : offset + count ≤ transferred count) {s : State}
    (h : (thrice (read sec offset a count) (read sec offset a retry) s).1 = .none) :
    ∀ i < count, (thrice (read sec offset a count) (read sec offset a retry) s).2.memory (a + i) =
      s.disk (512 * sec + (offset + i)) := by
  have hmono : transferred count ≤ transferred retry := by
    unfold transferred
    have := Nat.div_le_div_right (c := 512) (show count + 511 ≤ retry + 511 by omega)
    omega
  apply thrice_success (I := fun t => t.disk = s.disk)
    (Q := fun t => ∀ i < count, t.memory (a + i) = s.disk (512 * sec + (offset + i))) rfl
    _ _ _ _ h
  · exact fun t ht _ => (hr.disk hsec hc (by omega)).trans ht
  · exact fun t ht _ => (hr.disk hsec (by omega) hl).trans ht
  · intro t ht hok i hi
    rw [(hr.data hsec hc (by omega) hok i hi).1 (by omega), ht]
  · intro t ht hok i hi
    rw [(hr.data hsec (by omega) hl hok i (by omega)).1 (by omega), ht]

theorem ReadSpec.chunk_keeps (hr : ReadSpec read ok (chunk * 512) Bad b) (offset a : ℕ)
    {sec count retry : ℕ} (hsec : sec < 2 ^ 28) (hc : 0 < count) (hle : count ≤ retry)
    (hl : retry ≤ chunk * 512) (s : State) :
    (thrice (read sec offset a count) (read sec offset a retry) s).2.disk = s.disk ∧
      ∀ x < a, (thrice (read sec offset a count) (read sec offset a retry) s).2.memory x =
        s.memory x :=
  thrice_invariant (I := fun t => t.disk = s.disk ∧ ∀ x < a, t.memory x = s.memory x)
    ⟨rfl, fun _ _ => rfl⟩ (fun t => hr.keeps hsec hc (by omega) s.disk s.memory t)
    fun t => hr.keeps hsec (by omega) hl s.disk s.memory t

/-- A whole read keeps the disk and what lies before the buffer. -/
theorem readChunks_keeps (hr : ReadSpec read ok (chunk * 512) Bad b)
    (hset : ChunkSetup chunk sector lastRetry sectorAt) (hchunk : 0 < chunk)
    {fuel offset a asect count : ℕ} {s : State} (hin : InRange sector offset a asect count) :
    (readChunks read 512 chunk lastRetry sectorAt fuel offset a asect count s).2.disk = s.disk ∧
      ∀ x < a, (readChunks read 512 chunk lastRetry sectorAt fuel offset a asect count s).2.memory x =
        s.memory x := by
  induction fuel generalizing offset a asect count s with
  | zero => exact ⟨rfl, fun _ _ => rfl⟩
  | succ fuel ih =>
    have hsec := hin.sector_lt
    rw [readChunks]
    dsimp only
    rw [hset.sectorAt_eq asect hsec]
    split_ifs with hc herr
    · exact hr.chunk_keeps offset a hsec (by omega) le_rfl le_rfl s
    · obtain ⟨ha, has, hnext⟩ := hin.next hc
      have hk := hr.chunk_keeps offset a hsec (show 0 < chunk * 512 by omega) le_rfl le_rfl s
      rw [ha, has]
      refine ⟨(ih hnext).1.trans hk.1, fun x hx => ?_⟩
      rw [(ih hnext).2 x (by omega), hk.2 x hx]
    · exact hr.chunk_keeps offset a hsec hin.count_pos (hset.le_lastRetry count (by omega))
        (hset.lastRetry_le count (by omega)) s

/-- A read that starts at a sector boundary, or whose one chunk fits the
delivered sectors, returns the bytes of the disk. -/
theorem readChunks_data (hr : ReadSpec read ok (chunk * 512) Bad b)
    (hset : ChunkSetup chunk sector lastRetry sectorAt) (hchunk : 0 < chunk)
    {fuel offset a asect count : ℕ} {s : State} (hin : InRange sector offset a asect count)
    (hfit : offset = 0 ∨ count ≤ chunk * 512 ∧ offset + count ≤ transferred count)
    (h : (readChunks read 512 chunk lastRetry sectorAt fuel offset a asect count s).1 = .none) :
    ∀ i < count,
      (readChunks read 512 chunk lastRetry sectorAt fuel offset a asect count s).2.memory (a + i) =
        s.disk (512 * (sector + asect) + (offset + i)) := by
  induction fuel generalizing offset a asect count s with
  | zero => cases h
  | succ fuel ih =>
    have hsec := hin.sector_lt
    rw [readChunks] at h ⊢
    dsimp only at h ⊢
    rw [hset.sectorAt_eq asect hsec] at h ⊢
    split_ifs at h ⊢ with hc herr
    · exact absurd h herr
    · obtain ⟨ha, has, hnext⟩ := hin.next hc
      have h0 : offset = 0 := by omega
      subst h0
      rw [not_not] at herr
      have hk := hr.chunk_keeps 0 a hsec (show 0 < chunk * 512 by omega) le_rfl le_rfl s
      rw [ha, has] at h ⊢
      intro i hi
      by_cases hlt : i < chunk * 512
      · -- a byte of this chunk, which the later ones leave alone
        rw [(readChunks_keeps hr hset hchunk hnext).2 (a + i) (by omega)]
        exact hr.chunk_data hsec (by omega) le_rfl le_rfl
          (by have := le_transferred (chunk * 512); omega) herr i hlt
      · have hi' := ih hnext (Or.inl rfl) h (i - chunk * 512) (by omega)
        rw [show a + chunk * 512 + (i - chunk * 512) = a + i by omega, hk.1] at hi'
        rw [hi']
        congr 1
        omega
    · refine hr.chunk_data hsec hin.count_pos (hset.le_lastRetry count (by omega))
        (hset.lastRetry_le count (by omega)) ?_ h
      rcases hfit with h0 | h1
      · rw [h0, Nat.zero_add]
        exact le_transferred count
      · exact h1.2

/-- The read returns `ERROR_NONE`: each chunk has an attempt that succeeds. -/
def Returns (ok : ℕ → ℕ → ℕ → Prop) (chunk : ℕ) (lastRetry : ℕ → ℕ) : ℕ → ℕ → ℕ → ℕ → Prop
  | 0, _, _, _ => False
  | fuel + 1, offset, count, k =>
    if count > chunk * 512 then
      ∃ j, Tried (ok offset (chunk * 512)) (ok offset (chunk * 512)) k j ∧
        Returns ok chunk lastRetry fuel 0 (count - chunk * 512) j
    else ∃ j, Tried (ok offset count) (ok offset (lastRetry count)) k j

theorem ReadSpec.chunk_iff (hr : ReadSpec read ok (chunk * 512) Bad b) (offset a : ℕ)
    {sec count retry : ℕ} (hsec : sec < 2 ^ 28) (hc : 0 < count) (hle : count ≤ retry)
    (hl : retry ≤ chunk * 512) (s : State) (j : ℕ) :
    ((thrice (read sec offset a count) (read sec offset a retry) s).1 = .none ∧
      (thrice (read sec offset a count) (read sec offset a retry) s).2.transfers = j) ↔
        Tried (ok offset count) (ok offset retry) s.transfers j :=
  thrice_iff (fun _ => hr.code hsec hc (by omega)) (fun _ => hr.code hsec (by omega) hl)
    (fun _ => hr.transfers hsec hc (by omega)) (fun _ => hr.transfers hsec (by omega) hl) j

/-- The result does not depend on the bytes that are transferred. -/
theorem readChunks_none_iff (hr : ReadSpec read ok (chunk * 512) Bad b)
    (hset : ChunkSetup chunk sector lastRetry sectorAt) (hchunk : 0 < chunk)
    {fuel offset a asect count : ℕ} {s : State} (hin : InRange sector offset a asect count) :
    (readChunks read 512 chunk lastRetry sectorAt fuel offset a asect count s).1 = .none ↔
      Returns ok chunk lastRetry fuel offset count s.transfers := by
  induction fuel generalizing offset a asect count s with
  | zero => exact ⟨fun h => ErrorT.noConfusion h, False.elim⟩
  | succ fuel ih =>
    have hsec := hin.sector_lt
    rw [readChunks, Returns]
    dsimp only
    rw [hset.sectorAt_eq asect hsec]
    by_cases hc : count > chunk * 512
    · rw [if_pos hc, if_pos hc]
      obtain ⟨ha, has, hnext⟩ := hin.next hc
      have hiff := hr.chunk_iff offset a hsec (show 0 < chunk * 512 by omega) le_rfl le_rfl s
      rw [ha, has]
      constructor
      · intro h
        split_ifs at h with herr
        · exact absurd h herr
        · rw [not_not] at herr
          exact ⟨_, (hiff _).mp ⟨herr, rfl⟩, (ih hnext).mp h⟩
      · rintro ⟨j, hj, hret⟩
        obtain ⟨hnone, htr⟩ := (hiff j).mpr hj
        rw [if_neg (not_not_intro hnone), ih hnext, htr]
        exact hret
    · rw [if_neg hc, if_neg hc]
      have hiff := hr.chunk_iff offset a hsec hin.count_pos (hset.le_lastRetry count (by omega))
        (hset.lastRetry_le count (by omega)) s
      constructor
      · exact fun h => ⟨_, (hiff _).mp ⟨h, rfl⟩⟩
      · rintro ⟨j, hj⟩
        exact ((hiff j).mpr hj).1

/-- A successful chunk that reaches behind the delivered sectors stores what is
there. -/
theorem ReadSpec.chunk_stray (hr : ReadSpec read ok (chunk * 512) Bad b)
    {sec offset a count : ℕ} (hsec : sec < 2 ^ 28) (hc : 0 < count) (hl : count ≤ chunk * 512)
    (hover : transferred count < offset + count) (hoff : offset ≤ transferred count) {s : State}
    (hbad : Bad s) (h : (thrice (read sec offset a count) (read sec offset a count) s).1 = .none) :
    (thrice (read sec offset a count) (read sec offset a count) s).2.memory
      (a + (transferred count - offset)) = b (transferred count) := by
  have hstep : ∀ t, Bad t → (read sec offset a count t).1 = .none →
      (read sec offset a count t).2.memory (a + (transferred count - offset)) =
        b (transferred count) := by
    intro t ht hok
    rw [(hr.data hsec hc hl hok (transferred count - offset) (by omega)).2 (by omega) ht,
      Nat.add_sub_of_le hoff]
  exact thrice_success (I := Bad) (Q := fun t =>
    t.memory (a + (transferred count - offset)) = b (transferred count)) hbad
    (fun t ht herr => hr.bad hsec hc hl herr ht) (fun t ht herr => hr.bad hsec hc hl herr ht)
    hstep hstep h

/-- A read from within a sector that does not fit stores a byte from behind the
delivered sectors, unless its last chunk is retried with another size. -/
theorem readChunks_stray (hr : ReadSpec read ok (chunk * 512) Bad b)
    (hset : ChunkSetup chunk sector lastRetry sectorAt) (hchunk : 0 < chunk)
    {fuel offset a asect count : ℕ} {s : State} (hin : InRange sector offset a asect count)
    (hoff : 0 < offset) (hoff' : offset < 512)
    (hover : count > chunk * 512 ∨ transferred count < offset + count)
    (hfirst : count ≤ chunk * 512 → lastRetry count = count ∨ ok offset count s.transfers)
    (hbad : Bad s)
    (h : (readChunks read 512 chunk lastRetry sectorAt fuel offset a asect count s).1 = .none) :
    ∃ i < count,
      (readChunks read 512 chunk lastRetry sectorAt fuel offset a asect count s).2.memory (a + i) =
        b (offset + i) := by
  cases fuel with
  | zero => cases h
  | succ fuel =>
    have hsec := hin.sector_lt
    have hcount := hin.count_pos
    rw [readChunks] at h ⊢
    dsimp only at h ⊢
    rw [hset.sectorAt_eq asect hsec] at h ⊢
    by_cases hc : count > chunk * 512
    · rw [if_pos hc] at h ⊢
      obtain ⟨ha, has, hnext⟩ := hin.next hc
      have htr : transferred (chunk * 512) = chunk * 512 := by unfold transferred; omega
      split_ifs at h ⊢ with herr
      · exact absurd h herr
      · rw [not_not] at herr
        have hbyte := hr.chunk_stray hsec (by omega) le_rfl (by omega) (by omega) hbad herr
        rw [htr] at hbyte
        refine ⟨chunk * 512 - offset, by omega, ?_⟩
        rw [ha, has, (readChunks_keeps hr hset hchunk hnext).2 _ (by omega), hbyte]
        congr 1
        omega
    · rw [if_neg hc] at h ⊢
      have hover' : transferred count < offset + count := by omega
      have hge : offset ≤ transferred count := by unfold transferred; omega
      refine ⟨transferred count - offset, by omega, ?_⟩
      rw [Nat.add_sub_of_le hge]
      rcases hfirst (by omega) with hlast | hok
      · rw [hlast] at h ⊢
        exact hr.chunk_stray hsec hcount (by omega) hover' hge hbad h
      · have hnone : (read (sector + asect) offset a count s).1 = .none :=
          (hr.code hsec hcount (by omega)).mpr hok
        unfold thrice
        dsimp only
        rw [if_pos hnone,
          (hr.data hsec hcount (by omega) hnone (transferred count - offset) (by omega)).2
            (by omega) hbad, Nat.add_sub_of_le hge]

/-- Reads whose chunks are all retried with their own size store nothing behind
the buffer. -/
theorem readChunks_frame_of_same (hr : ReadSpec read ok (chunk * 512) Bad b)
    (hset : ChunkSetup chunk sector id sectorAt) (hchunk : 0 < chunk)
    {fuel offset a asect count : ℕ} {s : State} (hin : InRange sector offset a asect count) :
    ∀ x, a + count ≤ x →
      (readChunks read 512 chunk id sectorAt fuel offset a asect count s).2.memory x =
        s.memory x := by
  have hone : ∀ {sec offset a n : ℕ} (s : State), sec < 2 ^ 28 → 0 < n → n ≤ chunk * 512 →
      ∀ x, a + n ≤ x →
        (thrice (read sec offset a n) (read sec offset a n) s).2.memory x = s.memory x := by
    intro sec offset a n s hsec hn hl x hx
    have hstep : ∀ t : State, t.memory x = s.memory x →
        (read sec offset a n t).2.memory x = s.memory x := by
      intro t ht
      obtain ⟨k, hk, w, hm⟩ : ∃ k ≤ n, ∃ w,
          (read sec offset a n t).2.memory = overwrite t.memory a k w := hr.stores hsec hn hl
      rw [hm, overwrite_of_notMem (by omega), ht]
    exact thrice_invariant (I := fun t => t.memory x = s.memory x) rfl hstep hstep
  induction fuel generalizing offset a asect count s with
  | zero => exact fun _ _ => rfl
  | succ fuel ih =>
    intro x hx
    have hsec := hin.sector_lt
    rw [readChunks]
    dsimp only
    rw [hset.sectorAt_eq asect hsec]
    split_ifs with hc herr
    · exact hone s hsec (by omega) le_rfl x (by omega)
    · obtain ⟨ha, has, hnext⟩ := hin.next hc
      rw [ha, has, ih hnext x (by omega)]
      exact hone s hsec (by omega) le_rfl x (by omega)
    · exact hone s hsec hin.count_pos (by omega) x hx

end Chunks

/-! ## The retries of a PIO read -/

/-- No PIO transfer stores behind the buffer. The last chunk is retried with
255 sectors, so if its first attempt fails and it is smaller, both retries have
to fail before they have stored more than the chunk. -/
def StopsInTime (e : Drive) : ℕ → ℕ → ℕ → ℕ → Prop
  | 0, _, _, _ => True
  | fuel + 1, offset, count, k =>
    if count > 255 * 512 then
      ∀ j, Tried (PioOk e offset (255 * 512)) (PioOk e offset (255 * 512)) k j →
        StopsInTime e fuel 0 (count - 255 * 512) j
    else
      count = 255 * 512 ∨ PioOk e offset count k ∨
        (e.attempts (k + 1)).Fails (offset + count) ∧ (e.attempts (k + 2)).Fails (offset + count)

section PioFrame
variable {e : Drive} {left : Leftover} {sector : ℕ} {sectorAt : ℕ → ℕ}

theorem chunkSetup_pio (sector : ℕ) :
    ChunkSetup 255 sector (fun _ => 255 * 512) (fun asect => sector + asect) where
  sectorAt_eq _ _ := rfl
  le_lastRetry _ h := h
  lastRetry_le _ _ := le_rfl

/-- The bytes that one retry of the last chunk stores: more than `x` of them
unless a poll fails before. -/
theorem pioRetry_stores (e : Drive) (left : Leftover) {sec : ℕ} (offset a : ℕ) (s : State)
    (hsec : sec < 2 ^ 28) {x : ℕ} (hx : x < 255 * 512) :
    ∃ n, (pioReadFlexible e left sec offset a (255 * 512) s).2 =
        { s with
          memory := overwrite s.memory a n fun j => delivered s.disk bytesPerSector sec 255
            (left.port s.transfers) (offset + j)
          transfers := s.transfers + 1 } ∧
      (n ≤ x ↔ (e.attempts s.transfers).Fails (offset + x)) ∧
        ((pioReadFlexible e left sec offset a (255 * 512) s).1 = .none → ¬n ≤ x) := by
  obtain ⟨hcode, n, hn, heq, hnone, herr⟩ :=
    pioReadFlexible_spec e left sec offset a (255 * 512) s hsec (by omega) le_rfl
  refine ⟨n, heq, ?_, fun h => by rw [hnone h]; omega⟩
  by_cases h : (pioReadFlexible e left sec offset a (255 * 512) s).1 = .none
  · rw [hnone h]
    constructor
    · intro hle
      omega
    · intro hf
      exact absurd (hf.mono (by omega)) (hcode.mp h)
  · exact herr h x hx

/-- A retry that stops before it has stored more than `x` bytes. -/
theorem pioRetry_keeps (e : Drive) (left : Leftover) {sec : ℕ} (offset a : ℕ) (s : State)
    (hsec : sec < 2 ^ 28) {x : ℕ} (hx : x < 255 * 512)
    (hf : (e.attempts s.transfers).Fails (offset + x)) :
    (pioReadFlexible e left sec offset a (255 * 512) s).1 ≠ .none ∧
      ∀ y, a + x ≤ y →
        (pioReadFlexible e left sec offset a (255 * 512) s).2.memory y = s.memory y := by
  obtain ⟨n, heq, hn, hnone⟩ := pioRetry_stores e left offset a s hsec hx
  refine ⟨fun h => hnone h (hn.mpr hf), fun y hy => ?_⟩
  have := hn.mpr hf
  rw [heq]
  dsimp only
  exact overwrite_of_notMem (by omega)

/-- A PIO read that stops in time stores nothing behind the buffer. -/
theorem StopsInTime.frame {fuel offset a asect count : ℕ} {s : State}
    (hin : InRange sector offset a asect count)
    (h : StopsInTime e fuel offset count s.transfers) :
    ∀ x, a + count ≤ x →
      (readChunks (pioReadFlexible e left) 512 255 (fun _ => 255 * 512)
        (fun asect => sector + asect) fuel offset a asect count s).2.memory x = s.memory x := by
  have hkeep : ∀ (sec offset a n : ℕ) (t : State), sec < 2 ^ 28 → 0 < n → n ≤ 255 * 512 →
      ∀ x, a + n ≤ x → (pioReadFlexible e left sec offset a n t).2.memory x = t.memory x := by
    intro sec offset a n t hsec hn hl x hx
    obtain ⟨-, k, hk, heq, -⟩ := pioReadFlexible_spec e left sec offset a n t hsec hn hl
    rw [heq]
    dsimp only
    exact overwrite_of_notMem (by omega)
  induction fuel generalizing offset a asect count s with
  | zero => exact fun _ _ => rfl
  | succ fuel ih =>
    intro x hx
    have hsec := hin.sector_lt
    rw [readChunks]
    rw [StopsInTime] at h
    dsimp only
    by_cases hc : count > 255 * 512
    · rw [if_pos hc] at h ⊢
      obtain ⟨ha, has, hnext⟩ := hin.next hc
      have hstep : ∀ t : State, t.memory x = s.memory x →
          (pioReadFlexible e left (sector + asect) offset a (255 * 512) t).2.memory x =
            s.memory x :=
        fun t ht => (hkeep _ offset a _ t hsec (by omega) le_rfl x (by omega)).trans ht
      have hchunk := thrice_invariant (s := s) (I := fun t => t.memory x = s.memory x) rfl hstep hstep
      split_ifs with herr
      · exact hchunk
      · rw [not_not] at herr
        have hj := ((readSpec_pio e left fun _ => 0).chunk_iff offset a hsec
          (show 0 < 255 * 512 by omega) le_rfl le_rfl s _).mp ⟨herr, rfl⟩
        rw [ha, has, ih hnext (h _ hj) x (by omega)]
        exact hchunk
    · rw [if_neg hc] at h ⊢
      have hle : count ≤ 255 * 512 := by omega
      have hcount := hin.count_pos
      have hfirst := hkeep _ offset a count s hsec hcount hle x hx
      by_cases hM : count = 255 * 512
      · subst hM
        exact thrice_invariant (I := fun t => t.memory x = s.memory x) rfl
          (fun t ht => (hkeep _ offset a _ t hsec hcount le_rfl x hx).trans ht)
          (fun t ht => (hkeep _ offset a _ t hsec hcount le_rfl x hx).trans ht)
      · obtain ⟨hcode, n, -, heq, -⟩ :=
          pioReadFlexible_spec e left (sector + asect) offset a count s hsec hcount hle
        unfold thrice
        dsimp only
        by_cases hok : PioOk e offset count s.transfers
        · rw [if_pos (hcode.mpr hok)]
          exact hfirst
        · obtain ⟨hf1, hf2⟩ := (h.resolve_left hM).resolve_left hok
          rw [if_neg fun hn => hok (hcode.mp hn)]
          have htr := congrArg State.transfers heq
          dsimp only at htr
          rw [← htr] at hf1
          obtain ⟨herr1, hk1⟩ := pioRetry_keeps e left offset a _ hsec (by omega) hf1
          rw [if_neg herr1]
          obtain ⟨n', heq', -⟩ := pioRetry_stores e left offset a
            (pioReadFlexible e left (sector + asect) offset a count s).2 hsec
            (show count < 255 * 512 by omega)
          have htr' := congrArg State.transfers heq'
          dsimp only at htr'
          rw [htr] at htr'
          rw [show s.transfers + 2 = s.transfers + 1 + 1 by omega, ← htr'] at hf2
          obtain ⟨-, hk2⟩ := pioRetry_keeps e left offset a _ hsec (by omega) hf2
          rw [hk2 x hx, hk1 x hx]
          exact hfirst

/-- A PIO read that does not stop in time stores a byte behind the buffer,
whatever has been there. -/
theorem exists_stored_of_not_stopsInTime (d : Mem) (hport : ∀ k, left.port k = fun _ => 0)
    {fuel offset a asect count k : ℕ} (hin : InRange sector offset a asect count)
    (h : ¬StopsInTime e fuel offset count k) :
    ∃ v, ∀ s : State, s.disk = d → s.transfers = k →
      (readChunks (pioReadFlexible e left) 512 255 (fun _ => 255 * 512)
        (fun asect => sector + asect) fuel offset a asect count s).2.memory (a + count) = v := by
  induction fuel generalizing offset a asect count k with
  | zero => exact absurd trivial h
  | succ fuel ih =>
    have hsec := hin.sector_lt
    have hcount := hin.count_pos
    rw [StopsInTime] at h
    by_cases hc : count > 255 * 512
    · rw [if_pos hc] at h
      push Not at h
      obtain ⟨j, hj, hstop⟩ := h
      obtain ⟨ha, has, hnext⟩ := hin.next hc
      obtain ⟨v, hv⟩ := ih hnext hstop
      refine ⟨v, fun s hd hk => ?_⟩
      rw [readChunks]
      dsimp only
      have hspec := readSpec_pio e left fun _ => 0
      have htried := (hspec.chunk_iff offset a hsec (show 0 < 255 * 512 by omega) le_rfl le_rfl s
        j).mpr (hk ▸ hj)
      have hkeep := hspec.chunk_keeps offset a hsec (show 0 < 255 * 512 by omega) le_rfl le_rfl s
      rw [if_pos hc, if_neg (not_not_intro htried.1), ha, has]
      have hend := hv _ (hkeep.1.trans hd) htried.2
      rwa [show a + 255 * 512 + (count - 255 * 512) = a + count by omega] at hend
    · rw [if_neg hc] at h
      push Not at h
      obtain ⟨hM, hok, hret⟩ := h
      refine ⟨delivered d bytesPerSector (sector + asect) 255 (fun _ => 0) (offset + count),
        fun s hd hk => ?_⟩
      rw [readChunks]
      dsimp only
      rw [if_neg hc]
      obtain ⟨hcode, n, -, heq, -⟩ :=
        pioReadFlexible_spec e left (sector + asect) offset a count s hsec hcount (by omega)
      have htr := congrArg State.transfers heq
      have hdisk := congrArg State.disk heq
      dsimp only at htr hdisk
      unfold thrice
      dsimp only
      rw [if_neg fun hn => hok (hk ▸ hcode.mp hn)]
      obtain ⟨n₁, heq₁, hn₁, hnone₁⟩ := pioRetry_stores e left offset a
        (pioReadFlexible e left (sector + asect) offset a count s).2 hsec
        (show count < 255 * 512 by omega)
      have hbyte₁ : ¬n₁ ≤ count →
          (pioReadFlexible e left (sector + asect) offset a (255 * 512)
            (pioReadFlexible e left (sector + asect) offset a count s).2).2.memory (a + count) =
              delivered d bytesPerSector (sector + asect) 255 (fun _ => 0) (offset + count) := by
        intro hn
        rw [heq₁]
        dsimp only
        rw [overwrite_of_mem (by omega) (by omega), Nat.add_sub_cancel_left, hdisk, hd, hport]
      split_ifs with h1
      · exact hbyte₁ (hnone₁ h1)
      · obtain ⟨n₂, heq₂, hn₂, -⟩ := pioRetry_stores e left offset a
          (pioReadFlexible e left (sector + asect) offset a (255 * 512)
            (pioReadFlexible e left (sector + asect) offset a count s).2).2 hsec
          (show count < 255 * 512 by omega)
        have htr₁ := congrArg State.transfers heq₁
        have hdisk₁ := congrArg State.disk heq₁
        dsimp only at htr₁ hdisk₁
        by_cases hle : n₂ ≤ count
        · -- the last retry stops in time, so the one before has stored the byte
          have hf₂ := hn₂.mp hle
          rw [htr₁, htr, hk] at hf₂
          have hgt : ¬n₁ ≤ count := by
            intro hle₁
            have hf₁ := hn₁.mp hle₁
            rw [htr, hk] at hf₁
            exact hret hf₁ hf₂
          rw [heq₂]
          dsimp only
          rw [overwrite_of_notMem (by omega)]
          exact hbyte₁ hgt
        · rw [heq₂]
          dsimp only
          rw [overwrite_of_mem (by omega) (by omega), Nat.add_sub_cancel_left, hdisk₁, hdisk, hd,
            hport]

end PioFrame

/-! ## Whole reads -/

/-- Which transfers a read of a hard disk uses. -/
def Drive.UsesPio (e : Drive) (count : ℕ) : Prop := ¬e.schedulerStarted ∨ count ≤ 1024

instance (e : Drive) (count : ℕ) : Decidable (e.UsesPio count) :=
  inferInstanceAs (Decidable (_ ∨ _))

/-- The size of a full chunk in bytes. -/
def Drive.chunkBytes (e : Drive) (count : ℕ) : ℕ :=
  if e.UsesPio count then 255 * 512 else 127 * 512

/-- The request starts at a sector boundary, or it is a single chunk that lies
within as many sectors as its size alone fills. -/
def ReadFits (e : Drive) (offset count : ℕ) : Prop :=
  offset % 512 = 0 ∨ count ≤ e.chunkBytes count ∧ offset % 512 + count ≤ transferred count

/-- Each chunk has an attempt that succeeds, so the read returns `ERROR_NONE`. -/
def ReadReturns (e : Drive) (offset count k : ℕ) : Prop :=
  if e.UsesPio count then
    Returns (PioOk e) 255 (fun _ => 255 * 512) (count + 1) (offset % 512) count k
  else Returns (DmaOk e) 127 id (count + 1) (offset % 512) count k

/-- Whatever the bytes that nothing determines are, a read that returns
`ERROR_NONE` stores the bytes of the disk `d`, and no read stores behind the
buffer. `k` transfers have been made before. -/
def ReadsExactly (e : Drive) (d : Mem) (k sector offset count : ℕ) : Prop :=
  ∀ left s, s.disk = d → s.transfers = k →
    ((ataReadFlexible e left sector offset count s).1 = .none → ∀ i < count,
      (ataReadFlexible e left sector offset count s).2.memory i =
        d (512 * sector + offset + i)) ∧
    ∀ x, count ≤ x → (ataReadFlexible e left sector offset count s).2.memory x = s.memory x

section Whole
variable {e : Drive} {d : Mem} {k sector offset count : ℕ}

theorem ataReadFlexible_pio (hatapi : e.atapi = false) (hpio : e.UsesPio count)
    (left : Leftover) (s : State) :
    ataReadFlexible e left sector offset count s =
      readChunks (pioReadFlexible e left) 512 255 (fun _ => 255 * 512)
        (fun asect => sector + offset / 512 + asect) (count + 1) (offset % 512) 0 0 count s := by
  unfold ataReadFlexible
  rw [hatapi, if_neg (by decide)]
  exact if_pos hpio

theorem ataReadFlexible_dma (hatapi : e.atapi = false) (hdma : ¬e.UsesPio count)
    (left : Leftover) (s : State) :
    ataReadFlexible e left sector offset count s =
      readChunks (dmaReadFlexible e left) 512 127 id
        (fun asect => u32 (u32 (sector + offset / 512) + asect)) (count + 1) (offset % 512) 0 0
          count s := by
  unfold ataReadFlexible
  rw [hatapi, if_neg (by decide)]
  exact if_neg hdma

theorem chunkSetup_dma {sector : ℕ} (h : sector < 2 ^ 28) :
    ChunkSetup 127 sector id (fun asect => u32 (u32 sector + asect)) where
  sectorAt_eq asect hlt := by
    rw [u32_of_lt (show sector < 2 ^ 32 by omega), u32_of_lt (by omega)]
  le_lastRetry _ _ := le_rfl
  lastRetry_le _ h := h

theorem inRange_read (hrange : 512 * sector + offset + count ≤ 512 * 2 ^ 28)
    (hbuf : count < 2 ^ 32) (hpos : 0 < count) :
    InRange (sector + offset / 512) (offset % 512) 0 0 count :=
  ⟨by omega, by omega, hpos⟩

/-- The byte of the disk at a place of the request. -/
theorem read_addr (sector offset i : ℕ) :
    512 * (sector + offset / 512 + 0) + (offset % 512 + i) = 512 * sector + offset + i := by
  omega

/-- A request that does not fit reaches behind the delivered sectors. -/
theorem over_of_not_readFits (h : ¬ReadFits e offset count) :
    0 < offset % 512 ∧
      (count > e.chunkBytes count ∨ transferred count < offset % 512 + count) := by
  unfold ReadFits at h
  push Not at h
  omega

theorem readsExactly_pio_iff (hatapi : e.atapi = false) (hpio : e.UsesPio count)
    (hrange : 512 * sector + offset + count ≤ 512 * 2 ^ 28) (hbuf : count < 2 ^ 32)
    (hpos : 0 < count) :
    ReadsExactly e d k sector offset count ↔
      (ReadReturns e offset count k → ReadFits e offset count) ∧
        StopsInTime e (count + 1) (offset % 512) count k := by
  have hin := inRange_read hrange hbuf hpos
  have hset := chunkSetup_pio (sector + offset / 512)
  have hbytes : e.chunkBytes count = 255 * 512 := if_pos hpio
  have hret : ReadReturns e offset count k ↔
      Returns (PioOk e) 255 (fun _ => 255 * 512) (count + 1) (offset % 512) count k := by
    unfold ReadReturns
    rw [if_pos hpio]
  rw [hret]
  unfold ReadsExactly
  simp only [ataReadFlexible_pio hatapi hpio]
  constructor
  · intro h
    have hstop : StopsInTime e (count + 1) (offset % 512) count k := by
      by_contra hstop
      let left : Leftover :=
        ⟨fun _ _ => 0, fun _ _ => 0, fun _ _ => 0, fun _ _ => 0⟩
      obtain ⟨v, hv⟩ := exists_stored_of_not_stopsInTime d
        (show ∀ k, left.port k = fun _ => 0 from fun _ => rfl) hin hstop
      have hmem := hv ⟨d, d, fun _ => v + 1, k⟩ rfl rfl
      have hframe := (h left ⟨d, d, fun _ => v + 1, k⟩ rfl rfl).2 count le_rfl
      rw [Nat.zero_add] at hmem
      rw [hmem] at hframe
      simp at hframe
    refine ⟨fun hreturns => ?_, hstop⟩
    by_contra hfit
    obtain ⟨hoff, hover⟩ := over_of_not_readFits hfit
    rw [hbytes] at hover
    -- the bytes behind the delivered sectors differ from those of the disk
    let b : Mem := fun j => d (512 * (sector + offset / 512 + 0) + j) + 1
    let left : Leftover := ⟨fun _ => b, fun _ => b, fun _ => b, fun _ => b⟩
    have hfirst : count ≤ 255 * 512 → 255 * 512 = count ∨ PioOk e (offset % 512) count k := by
      intro hle
      by_contra hno
      push Not at hno
      rw [StopsInTime, if_neg (by omega)] at hstop
      rw [Returns, if_neg (by omega)] at hreturns
      obtain ⟨hf1, hf2⟩ := (hstop.resolve_left fun h => hno.1 h.symm).resolve_left hno.2
      obtain ⟨j, hj⟩ := hreturns
      rcases hj with ⟨hok, -⟩ | ⟨-, hok, -⟩ | ⟨-, -, hok, -⟩
      · exact hno.2 hok
      · exact hok (hf1.mono (by omega))
      · exact hok (hf2.mono (by omega))
    have hspec := readSpec_pio e left b
    have hnone := (readChunks_none_iff hspec hset (by decide) (s := ⟨d, d, d, k⟩) hin).mpr hreturns
    obtain ⟨i, hi, hbyte⟩ := readChunks_stray hspec hset (by decide) hin hoff
      (Nat.mod_lt _ (by decide)) hover hfirst (fun _ => rfl) hnone
    have hdata := (h left ⟨d, d, d, k⟩ rfl rfl).1 hnone i hi
    rw [Nat.zero_add] at hbyte
    rw [hbyte, ← read_addr] at hdata
    simp [b] at hdata
  · rintro ⟨hfit, hstop⟩ left s rfl rfl
    refine ⟨fun hnone i hi => ?_, fun x hx => hstop.frame hin x (by omega)⟩
    have hspec := readSpec_pio e left fun _ => 0
    have hf := hfit ((readChunks_none_iff hspec hset (by decide) hin).mp hnone)
    unfold ReadFits at hf
    rw [hbytes] at hf
    have hdata := readChunks_data hspec hset (by decide) hin hf hnone i hi
    rw [Nat.zero_add, read_addr] at hdata
    exact hdata

theorem readsExactly_dma_iff (hatapi : e.atapi = false) (hdma : ¬e.UsesPio count)
    (hrange : 512 * sector + offset + count ≤ 512 * 2 ^ 28) (hbuf : count < 2 ^ 32)
    (hpos : 0 < count) :
    ReadsExactly e d k sector offset count ↔
      (ReadReturns e offset count k → ReadFits e offset count) := by
  have hin := inRange_read hrange hbuf hpos
  have hset := chunkSetup_dma (show sector + offset / 512 < 2 ^ 28 by omega)
  have hbytes : e.chunkBytes count = 127 * 512 := if_neg hdma
  have hret : ReadReturns e offset count k ↔
      Returns (DmaOk e) 127 id (count + 1) (offset % 512) count k := by
    unfold ReadReturns
    rw [if_neg hdma]
  rw [hret]
  unfold ReadsExactly
  simp only [ataReadFlexible_dma hatapi hdma]
  constructor
  · intro h hreturns
    by_contra hfit
    obtain ⟨hoff, hover⟩ := over_of_not_readFits hfit
    rw [hbytes] at hover
    let b : Mem := fun j => d (512 * (sector + offset / 512 + 0) + j) + 1
    let left : Leftover := ⟨fun _ => b, fun _ => b, fun _ => b, fun _ => b⟩
    have hspec := readSpec_dma e left hatapi b
    have hnone := (readChunks_none_iff hspec hset (by decide) (s := ⟨d, b, d, k⟩) hin).mpr hreturns
    obtain ⟨i, hi, hbyte⟩ := readChunks_stray hspec hset (by decide) hin hoff
      (Nat.mod_lt _ (by decide)) hover (fun _ => Or.inl rfl) ⟨rfl, fun _ => rfl⟩ hnone
    have hdata := (h left ⟨d, b, d, k⟩ rfl rfl).1 hnone i hi
    rw [Nat.zero_add] at hbyte
    rw [hbyte, ← read_addr] at hdata
    simp [b] at hdata
  · rintro hfit left s rfl rfl
    have hspec := readSpec_dma e left hatapi fun _ => 0
    refine ⟨fun hnone i hi => ?_,
      fun x hx => readChunks_frame_of_same hspec hset (by decide) hin x (by omega)⟩
    have hf := hfit ((readChunks_none_iff hspec hset (by decide) hin).mp hnone)
    unfold ReadFits at hf
    rw [hbytes] at hf
    have hdata := readChunks_data hspec hset (by decide) hin hf hnone i hi
    rw [Nat.zero_add, read_addr] at hdata
    exact hdata

theorem readsExactly_zero (hatapi : e.atapi = false) : ReadsExactly e d k sector offset 0 := by
  intro left s _ _
  have hpio : e.UsesPio 0 := Or.inr (by decide)
  rw [ataReadFlexible_pio hatapi hpio]
  exact ⟨fun _ i hi => absurd hi (by omega), fun _ _ => rfl⟩

/-- A read is exact if and only if it fits, when it returns `ERROR_NONE`, and
the retries of a PIO read stop in time. -/
theorem readsExactly_iff (hatapi : e.atapi = false)
    (hrange : 512 * sector + offset + count ≤ 512 * 2 ^ 28) (hbuf : count < 2 ^ 32) :
    ReadsExactly e d k sector offset count ↔
      count = 0 ∨ (ReadReturns e offset count k → ReadFits e offset count) ∧
        (e.UsesPio count → StopsInTime e (count + 1) (offset % 512) count k) := by
  rcases Nat.eq_zero_or_pos count with rfl | hpos
  · exact ⟨fun _ => Or.inl rfl, fun _ => readsExactly_zero hatapi⟩
  · have hne : ¬count = 0 := by omega
    by_cases hpio : e.UsesPio count
    · rw [readsExactly_pio_iff hatapi hpio hrange hbuf hpos]
      simp only [hne, false_or, hpio, true_implies]
    · rw [readsExactly_dma_iff hatapi hpio hrange hbuf hpos]
      simp only [hne, false_or, hpio, false_implies, and_true]

end Whole

/-- A hard disk before the scheduler starts, on which every transfer succeeds. -/
def quietDrive : Drive where
  atapi := false
  lba48 := false
  schedulerStarted := false
  attempts := fun _ => ⟨fun _ _ => 0, false, .none, 4, 0⟩

theorem quietDrive_pioOk (offset count k : ℕ) : PioOk quietDrive offset count k := by
  rintro ⟨p, -, hp⟩
  exact hp (by decide : pioPollStatus (fun _ => 0) = .none)

/-- The first sector of a disk. -/
theorem readsExactly_first_sector : ReadsExactly quietDrive (fun n => UInt8.ofNat n) 0 0 0 512 := by
  apply (readsExactly_iff rfl (by decide) (by decide)).mpr
  refine Or.inr ⟨fun _ => Or.inl rfl, fun _ => ?_⟩
  rw [StopsInTime, if_neg (by decide)]
  exact Or.inr (Or.inl (quietDrive_pioOk 0 512 0))

/-- The same drive, on which the first transfer fails. -/
def hastyDrive : Drive :=
  { quietDrive with
    attempts := fun k => if k = 0 then ⟨fun _ _ => 1, false, .none, 4, 0⟩
      else ⟨fun _ _ => 0, false, .none, 4, 0⟩ }

/-- For the 500 bytes from byte 100 on the drive is asked for one sector, and
one byte that is read at the second attempt is read with the rest of 255
sectors. -/
theorem not_readsExactly_across_sectors :
    ¬ReadsExactly quietDrive (fun n => UInt8.ofNat n) 0 0 100 500 ∧
      ¬ReadsExactly hastyDrive (fun n => UInt8.ofNat n) 0 0 0 1 := by
  constructor
  · intro h
    have hpio : quietDrive.UsesPio 500 := Or.inl (by decide)
    obtain ⟨hfit, -⟩ :=
      (readsExactly_pio_iff rfl hpio (by decide) (by decide) (by decide)).mp h
    have hret : ReadReturns quietDrive 100 500 0 := by
      unfold ReadReturns
      rw [if_pos hpio, Returns, if_neg (by decide)]
      exact ⟨1, Or.inl ⟨quietDrive_pioOk 100 500 0, rfl⟩⟩
    rcases hfit hret with h0 | ⟨-, hle⟩
    · exact absurd h0 (by decide)
    · exact absurd hle (by decide)
  · intro h
    have hpio : hastyDrive.UsesPio 1 := Or.inl (by decide)
    obtain ⟨-, hstop⟩ :=
      (readsExactly_pio_iff rfl hpio (by decide) (by decide) (by decide)).mp h
    rw [StopsInTime, if_neg (by decide)] at hstop
    rcases hstop with h1 | hok | ⟨⟨p, -, hp⟩, -⟩
    · exact absurd h1 (by decide)
    · exact hok ⟨0, by decide, by decide⟩
    · exact hp (by decide : pioPollStatus (fun _ => 0) = .none)

end VkKernel.Ata
