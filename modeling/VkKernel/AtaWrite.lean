import VkKernel.AtaRead

/-!
# Writes to ATA drives

A write sends whole sectors. The bytes around the request come from sectors
that have been read before, and what is sent for them decides when a write
changes the request and nothing else.
-/

namespace VkKernel.Ata
open ByteMemory IntervalUpdate

/-! ## The bytes of a PIO write -/

theorem wordLoop_apply {word : ℕ → UInt8 × UInt8} {bound fuel i : ℕ} {out : Mem} (hi : i % 2 = 0)
    (hfuel : bound ≤ i + 2 * fuel) (j : ℕ) :
    wordLoop word bound fuel i out j =
      if i ≤ j ∧ j < bound + bound % 2 then
        if j % 2 = 0 then (word j).1 else (word (j - 1)).2
      else out j := by
  induction fuel generalizing i out with
  | zero => rw [wordLoop, if_neg (by omega)]
  | succ fuel ih =>
    rw [wordLoop]
    by_cases hlt : i < bound
    · rw [if_pos hlt, ih (by omega) (by omega)]
      by_cases h1 : j = i + 1
      · subst h1
        rw [if_neg (by omega), if_pos (by omega), if_neg (by omega), Function.update_self,
          Nat.add_sub_cancel]
      · by_cases h0 : j = i
        · subst h0
          rw [if_neg (by omega), if_pos (by omega), if_pos hi, Function.update_of_ne h1,
            Function.update_self]
        · rw [Function.update_of_ne h1, Function.update_of_ne h0]
          by_cases hj : i + 2 ≤ j ∧ j < bound + bound % 2
          · have hj' : i ≤ j ∧ j < bound + bound % 2 := by omega
            rw [if_pos hj, if_pos hj']
          · have hj' : ¬(i ≤ j ∧ j < bound + bound % 2) := by omega
            rw [if_neg hj, if_neg hj']
    · rw [if_neg hlt, if_neg (by omega)]

/-- The bytes that a PIO write sends, up to the end of its sectors. -/
def sentByte (cachedF cached data : Mem) (offset a count j : ℕ) : UInt8 :=
  if j < offset then cachedF j
  else if j < offset + count then data (a + (j - offset))
  else if j < offset + count + (offset + count) % 2 then 0
  else cached j

theorem requestWord_apply (cachedF cached data : Mem) {offset a count j : ℕ}
    (hj : j < offset + count + (offset + count) % 2) :
    (if j % 2 = 0 then (requestWord cachedF data offset a count j).1
      else (requestWord cachedF data offset a count (j - 1)).2) =
        sentByte cachedF cached data offset a count j := by
  unfold requestWord sentByte
  by_cases hpar : j % 2 = 0
  · rw [if_pos hpar]
    by_cases hlt : j < offset
    · rw [if_pos hlt]
      by_cases h1 : j + 1 < offset
      · rw [if_pos h1]
      · rw [if_neg h1]
        exact if_neg (by omega)
    · rw [if_neg (by omega), if_neg hlt, if_pos (by omega : j < offset + count)]
      exact if_pos (by omega)
  · rw [if_neg hpar, Nat.sub_add_cancel (by omega)]
    by_cases hlt : j < offset
    · rw [if_pos hlt, if_pos hlt]
    · rw [if_neg hlt, if_neg hlt]
      dsimp only
      by_cases hin : j < offset + count
      · rw [if_pos (by omega), if_pos hin]
      · rw [if_neg (by omega), if_neg hin, if_pos hj]

/-- The two loops of `ata_pio_write_flexible` together. -/
theorem sent_apply (cachedF cached data : Mem) {offset a count size j : ℕ} (hsize : size % 2 = 0)
    (hj : j < size) :
    wordLoop (fun i => (cached i, cached (i + 1))) size size
      (count + offset + (count + offset) % 2)
      (wordLoop (requestWord cachedF data offset a count) (count + offset) (count + offset) 0
        fun _ => 0) j = sentByte cachedF cached data offset a count j := by
  rw [wordLoop_apply (by omega) (by omega), wordLoop_apply rfl (by omega)]
  by_cases hlt : j < offset + count + (offset + count) % 2
  · rw [if_neg (by omega), if_pos (by omega), requestWord_apply cachedF cached data hlt]
  · have hin : count + offset + (count + offset) % 2 ≤ j ∧ j < size + size % 2 := by
      rw [Nat.add_comm count offset]
      omega
    rw [if_pos hin]
    unfold sentByte
    rw [if_neg (show ¬j < offset by omega), if_neg (show ¬j < offset + count by omega), if_neg hlt]
    split_ifs with hpar
    · rfl
    · dsimp only
      rw [Nat.sub_add_cancel (by omega)]

/-! ## The cached sectors -/

/-- A PIO read at any sector changes the buffer and nothing else. -/
theorem pioReadFlexible_stores (e : Drive) (left : Leftover) (sector offset a : ℕ) {count : ℕ}
    (s : State) (hcount : 0 < count) (hle : count ≤ 255 * 512) :
    ∃ n ≤ count, ∃ w, (pioReadFlexible e left sector offset a count s).2 =
      { s with memory := overwrite s.memory a n w, transfers := s.transfers + 1 } := by
  have hnothing : { s with transfers := s.transfers + 1 } =
      { s with memory := overwrite s.memory a 0 s.memory, transfers := s.transfers + 1 } := by
    rw [overwrite_zero]
  unfold pioReadFlexible
  dsimp only
  rw [if_neg (by omega), sectorCount_eq (by omega), if_neg (by omega)]
  split_ifs with h1 h2
  · exact ⟨0, by omega, s.memory, hnothing⟩
  · exact ⟨0, by omega, s.memory, hnothing⟩
  · rw [not_not] at h2
    have hspec := pioReadLoop_spec (e.attempts s.transfers) s.memory
      (delivered s.disk bytesPerSector sector ((count + 511) / 512) (left.port s.transfers)) offset a
      (i := 0) hcount (show count + offset ≤ 0 + 2 * (count + offset) by omega) rfl (by omega) (by
        intro p hp
        rwa [show p = 0 by omega])
    have hstart : readSoFar s.memory (delivered s.disk bytesPerSector sector
        ((count + 511) / 512) (left.port s.transfers)) offset a count 0 = s.memory := by
      unfold readSoFar
      rw [show min (0 - offset) count = 0 by omega, overwrite_zero]
    rw [hstart] at hspec
    rcases hspec with ⟨-, heq⟩ | ⟨-, -, n, hn, hm, -⟩
    · exact ⟨count, le_rfl, _, by rw [heq]⟩
    · exact ⟨n, hn, _, by rw [hm]⟩

theorem pioCache_state (e : Drive) (left : Leftover) (sector : ℕ) (s : State) :
    (pioCache e left sector s).2 = { s with transfers := s.transfers + 1 } ∧
      ∀ j, 512 ≤ j → (pioCache e left sector s).1 j = left.cache s.transfers j := by
  obtain ⟨n, hn, w, heq⟩ := pioReadFlexible_stores e left sector 0 0
    { s with memory := left.cache s.transfers } (show 0 < bytesPerSector by decide) (by decide)
  unfold pioCache
  dsimp only
  rw [heq]
  refine ⟨rfl, fun j hj => ?_⟩
  have : n ≤ 512 := hn
  exact overwrite_of_notMem (by omega)

/-- The cached sector: the bytes of the disk, or what the memory held. -/
theorem pioCache_data (e : Drive) (left : Leftover) {sector : ℕ} (s : State)
    (hsector : sector < 2 ^ 28) {j : ℕ} (hj : j < 512) :
    ((e.attempts s.transfers).poll 0 = .none →
      (pioCache e left sector s).1 j = s.disk (512 * sector + j)) ∧
    ((e.attempts s.transfers).poll 0 ≠ .none →
      (pioCache e left sector s).1 j = left.cache s.transfers j) := by
  obtain ⟨hcode, n, hn, heq, hnone, herr⟩ := pioReadFlexible_spec e left sector 0 0 512
    { s with memory := left.cache s.transfers } hsector (by decide) (by decide)
  have hmem : (pioCache e left sector s).1 = overwrite (left.cache s.transfers) 0 n fun j =>
      delivered s.disk bytesPerSector sector ((512 + 511) / 512) (left.port s.transfers) (0 + j) := by
    unfold pioCache
    dsimp only
    change State.memory (pioReadFlexible e left sector 0 0 512 _).2 = _
    rw [heq]
  rw [hmem]
  constructor
  · intro hp
    have hok : (pioReadFlexible e left sector 0 0 512
        { s with memory := left.cache s.transfers }).1 = .none := by
      apply hcode.mpr
      rintro ⟨p, hp', hf⟩
      rw [show p = 0 by omega] at hf
      exact hf hp
    rw [hnone hok, overwrite_of_mem (by omega) (by omega)]
    unfold delivered
    rw [if_pos (by unfold bytesPerSector; omega)]
    congr 1
    unfold bytesPerSector
    omega
  · intro hp
    have hbad : (pioReadFlexible e left sector 0 0 512
        { s with memory := left.cache s.transfers }).1 ≠ .none := by
      intro hok
      exact hcode.mp hok ⟨0, by omega, hp⟩
    have hn0 : n ≤ 0 := (herr hbad 0 (by omega)).mpr ⟨0, by omega, hp⟩
    rw [show n = 0 by omega, overwrite_zero]

/-! ## One transfer -/

/-- The number of sectors that are cached before a write. -/
def cacheReads (offset count : ℕ) : ℕ :=
  (if offset ≠ 0 ∨ count % 512 ≠ 0 then 1 else 0) +
    if 512 ≤ count ∧ count % 512 ≠ 0 then 1 else 0

/-- What a PIO write sends: the caches hold what the reads have left there. -/
theorem pioWriteFlexible_spec (e : Drive) (left : Leftover) (data : Mem) (sector offset a count : ℕ)
    (s : State) (hsector : sector < 2 ^ 28) (hle : count ≤ 255 * 512) :
    let k := s.transfers
    let r := pioWriteFlexible e left data sector offset a count s
    r.1 = (e.attempts (k + cacheReads offset count)).poll 0 ∧
      r.2.transfers = k + cacheReads offset count + 1 ∧ r.2.buffer = s.buffer ∧
      ∃ cachedF cached : Mem,
        (r.1 = .none → r.2.disk = overwrite s.disk (512 * sector) (transferred count)
          (sentByte cachedF cached data offset a count)) ∧
        (offset ≠ 0 ∨ count % 512 ≠ 0 → ∀ j < 512,
          ((e.attempts k).poll 0 = .none → cachedF j = s.disk (512 * sector + j)) ∧
          ((e.attempts k).poll 0 ≠ .none → cachedF j = left.cache k j)) ∧
        (count < 512 → cached = cachedF) ∧
        (512 ≤ count → count % 512 ≠ 0 → ∀ j, 512 ≤ j → cached j = left.cache (k + 1) j) := by
  intro k r
  obtain ⟨hstF, -⟩ := pioCache_state e left sector s
  have hsize : ∀ cachedF cached : Mem, overwrite s.disk (512 * sector) (transferred count)
      (wordLoop (fun i => (cached i, cached (i + 1))) (transferred count) (transferred count)
        (count + offset + (count + offset) % 2)
        (wordLoop (requestWord cachedF data offset a count) (count + offset) (count + offset) 0
          fun _ => 0)) =
      overwrite s.disk (512 * sector) (transferred count)
        (sentByte cachedF cached data offset a count) := by
    intro cachedF cached
    apply PackedStruct.overwrite_congr
    intro j hj
    exact sent_apply cachedF cached data (by unfold transferred; omega) hj
  have hr : r = pioWriteFlexible e left data sector offset a count s := rfl
  unfold pioWriteFlexible at hr
  rw [sectorCount_eq (by omega), checkSector_of_lt hsector] at hr
  unfold cacheReads
  by_cases h1 : offset ≠ 0 ∨ count % 512 ≠ 0
  · by_cases h2 : 512 ≤ count ∧ count % 512 ≠ 0
    · have hl : sector + count / 512 * 512 ≠ sector ∧ count % 512 ≠ 0 := by omega
      obtain ⟨hstL, hL⟩ := pioCache_state e left (sector + count / 512 * 512)
        { s with transfers := s.transfers + 1 }
      rw [if_pos h1] at hr ⊢
      rw [if_pos h2]
      simp only [hstF, if_pos hl, hstL, if_neg hl.1, ne_eq, not_true_eq_false, if_false] at hr
      rw [hr]
      refine ⟨rfl, rfl, rfl, (pioCache e left sector s).1, _, fun hn => ?_, fun _ j hj =>
        pioCache_data e left s hsector hj, fun h => absurd h (by omega), fun _ _ j hj => hL j hj⟩
      dsimp only at hn ⊢
      rw [if_pos hn]
      exact hsize _ _
    · have hl : ¬(sector + count / 512 * 512 ≠ sector ∧ count % 512 ≠ 0) := by omega
      rw [if_pos h1] at hr ⊢
      rw [if_neg h2]
      simp only [hstF, if_neg hl, ne_eq, not_true_eq_false, if_false] at hr
      rw [hr]
      refine ⟨rfl, rfl, rfl, (pioCache e left sector s).1,
        if sector + count / 512 * 512 = sector then (pioCache e left sector s).1 else fun _ => 0,
        fun hn => ?_, fun _ j hj => pioCache_data e left s hsector hj, fun h => if_pos (by omega),
        fun h h' => absurd ⟨h, h'⟩ h2⟩
      dsimp only at hn ⊢
      rw [if_pos hn]
      exact hsize _ _
  · have hl : ¬(sector + count / 512 * 512 ≠ sector ∧ count % 512 ≠ 0) := by omega
    rw [if_neg h1] at hr ⊢
    rw [if_neg (by omega)]
    simp only [if_neg hl, ne_eq, not_true_eq_false, if_false] at hr
    rw [hr]
    refine ⟨rfl, rfl, rfl, fun _ => 0,
      if sector + count / 512 * 512 = sector then fun _ => 0 else fun _ => 0,
      fun hn => ?_, fun h => absurd h h1, fun h => if_pos (by omega), fun _ h' => absurd h' (by omega)⟩
    dsimp only at hn ⊢
    rw [if_pos hn]
    exact hsize _ _

/-- All bytes that nothing determines are `b`. -/
def Leftover.const (b : UInt8) : Leftover :=
  ⟨fun _ _ => b, fun _ _ => b, fun _ _ => b, fun _ _ => b⟩

/-- The two disks agree from a sector on. -/
def AgreeFrom (sector : ℕ) (d d' : Mem) : Prop := ∀ x, 512 * sector ≤ x → d x = d' x

/-- What a transfer function does with a request of at most `limit` bytes.
`ok` and `used` say when it succeeds and how many transfers it makes, and
`Good` of the disk, the number of the transfer and the request says that it
writes the request and nothing else. If it is not good, there is a byte that
comes out wrong whenever everything undetermined is a byte `b` other than the
one on the disk. -/
structure WriteSpec (write : Leftover → Mem → ℕ → ℕ → ℕ → ℕ → State → ErrorT × State)
    (ok : ℕ → ℕ → ℕ → Prop) (used : ℕ → ℕ → ℕ) (limit : ℕ)
    (Good : Mem → ℕ → ℕ → ℕ → ℕ → Prop) : Prop where
  code : ∀ {left data sector offset a count s}, sector < 2 ^ 28 → 0 < count → count ≤ limit →
    ((write left data sector offset a count s).1 = .none ↔ ok offset count s.transfers)
  transfers : ∀ {left data sector offset a count s}, sector < 2 ^ 28 → 0 < count →
    count ≤ limit → (write left data sector offset a count s).1 = .none →
      (write left data sector offset a count s).2.transfers = s.transfers + used offset count
  outside : ∀ {left data sector offset a count s}, sector < 2 ^ 28 → 0 < count → count ≤ limit →
    (write left data sector offset a count s).1 = .none →
      ∀ x, x < 512 * sector ∨ 512 * sector + transferred count ≤ x →
        (write left data sector offset a count s).2.disk x = s.disk x
  good : ∀ {left data sector offset a count s}, sector < 2 ^ 28 → 0 < count → count ≤ limit →
    (write left data sector offset a count s).1 = .none →
      Good s.disk s.transfers sector offset count →
        (write left data sector offset a count s).2.disk =
          overwrite s.disk (512 * sector + offset) count fun i => data (a + i)
  first : ∀ {left data sector a count s}, sector < 2 ^ 28 → 0 < count → count ≤ limit →
    (write left data sector 0 a count s).1 = .none →
      (write left data sector 0 a count s).2.disk (512 * sector) = data a
  wrong : ∀ {d k sector offset count}, sector < 2 ^ 28 → 0 < count → count ≤ limit →
    offset ≤ 512 → ¬Good d k sector offset count →
      ∃ x, 512 * sector ≤ x ∧ ∀ b, b ≠ d x → ∀ a s, AgreeFrom sector s.disk d →
        s.transfers = k → (s.buffer = fun _ => b) →
          (write (.const b) (fun _ => b) sector offset a count s).1 = .none →
            (write (.const b) (fun _ => b) sector offset a count s).2.disk x ≠
              overwrite s.disk (512 * sector + offset) count (fun _ => b) x
  buffer : ∀ {sector a s b}, sector < 2 ^ 28 → (s.buffer = fun _ => b) →
    (write (.const b) (fun _ => b) sector 0 a limit s).1 = .none →
      (write (.const b) (fun _ => b) sector 0 a limit s).2.buffer = fun _ => b
  congr : ∀ {d d' k sector offset count}, AgreeFrom sector d d' →
    Good d k sector offset count → Good d' k sector offset count
  full : ∀ {d k sector}, Good d k sector 0 limit
  used_full : used 0 limit = 1

/-- When a PIO write is exact. It has to lie within as many sectors as its size
alone fills; the byte behind an odd end has to be zero; the bytes around the
request have to have been read; and behind the request there may be more than
that byte only within the first sector. -/
structure PioWriteGood (e : Drive) (d : Mem) (k sector offset count : ℕ) : Prop where
  fits : offset + count ≤ transferred count
  even : (offset + count) % 2 = 1 → d (512 * sector + (offset + count)) = 0
  cached : 0 < offset ∨ offset + count + (offset + count) % 2 < transferred count →
    (e.attempts k).poll 0 = .none
  small : offset + count + (offset + count) % 2 < transferred count → count < 512

/-- The end of the request in its last sector, where the bytes from the cache
begin. -/
theorem transferred_even (count : ℕ) : transferred count % 2 = 0 := by
  unfold transferred
  omega

/-- A PIO write that is good sends the disk with the request in it. -/
theorem PioWriteGood.sent {e : Drive} {d cachedF cached data : Mem}
    {k sector offset a count j : ℕ} (h : PioWriteGood e d k sector offset count)
    (hj : j < transferred count)
    (hF : offset ≠ 0 ∨ count % 512 ≠ 0 → ∀ j < 512,
      (e.attempts k).poll 0 = .none → cachedF j = d (512 * sector + j))
    (hc : count < 512 → cached = cachedF) :
    sentByte cachedF cached data offset a count j =
      overwrite d (512 * sector + offset) count (fun i => data (a + i)) (512 * sector + j) := by
  have hfits := h.fits
  have hpos : 0 < count := by unfold transferred at hj; omega
  have hoff : offset < 512 := by unfold transferred at hfits; omega
  have hev := transferred_even count
  unfold sentByte
  by_cases h1 : j < offset
  · rw [if_pos h1, overwrite_of_notMem (by omega)]
    exact hF (Or.inl (by omega)) j (by omega) (h.cached (Or.inl (by omega)))
  · rw [if_neg h1]
    by_cases h2 : j < offset + count
    · rw [if_pos h2, overwrite_of_mem (by omega) (by omega)]
      congr 2
      omega
    · rw [if_neg h2, overwrite_of_notMem (by omega)]
      by_cases h3 : j < offset + count + (offset + count) % 2
      · rw [if_pos h3]
        have hje : j = offset + count := by omega
        subst hje
        exact (h.even (by omega)).symm
      · rw [if_neg h3]
        have hlt : offset + count + (offset + count) % 2 < transferred count := by omega
        have hsmall := h.small hlt
        rw [hc hsmall]
        have ht : transferred count = 512 := by unfold transferred; omega
        exact hF (Or.inr (by omega)) j (by omega) (h.cached (Or.inr hlt))

/-- If a PIO write is not good, one byte of its sectors comes out wrong when the
memory of the caches and the data are a byte that is not there. -/
theorem exists_wrong_of_not_good {e : Drive} {d : Mem} {k sector offset count : ℕ}
    (hc : 0 < count) (hoff : offset ≤ 512) (h : ¬PioWriteGood e d k sector offset count) :
    ∃ j, ∀ b, b ≠ d (512 * sector + j) → ∀ (a : ℕ) (disk cachedF cached : Mem),
      AgreeFrom sector disk d →
      (offset ≠ 0 ∨ count % 512 ≠ 0 → ∀ i < 512, (e.attempts k).poll 0 ≠ .none → cachedF i = b) →
      (count < 512 → cached = cachedF) →
      (512 ≤ count → count % 512 ≠ 0 → ∀ i, 512 ≤ i → cached i = b) →
        overwrite disk (512 * sector) (transferred count)
          (sentByte cachedF cached (fun _ => b) offset a count) (512 * sector + j) ≠
            overwrite disk (512 * sector + offset) count (fun _ => b) (512 * sector + j) := by
  have hle := le_transferred count
  have hev := transferred_even count
  by_cases hfits : offset + count ≤ transferred count
  · have hoff' : offset < 512 := by unfold transferred at hfits; omega
    by_cases heven : (offset + count) % 2 = 1 → d (512 * sector + (offset + count)) = 0
    · by_cases hrest : offset + count + (offset + count) % 2 < transferred count ∧
          ((e.attempts k).poll 0 ≠ .none ∨ 512 ≤ count)
      · -- the first byte from the cache behind the request
        refine ⟨offset + count + (offset + count) % 2, fun b hb a disk cachedF cached hag hF hcF hcL =>
          ?_⟩
        rw [overwrite_of_mem (by omega) (by omega), overwrite_of_notMem (by omega),
          hag _ (by omega), Nat.add_sub_cancel_left]
        unfold sentByte
        rw [if_neg (by omega), if_neg (by omega), if_neg (by omega)]
        by_cases hsmall : count < 512
        · rw [hcF hsmall, hF (Or.inr (by omega)) _ (by unfold transferred at hrest; omega)
            (hrest.2.resolve_right (by omega))]
          exact hb
        · have hmod : count % 512 ≠ 0 := by
            intro h0
            unfold transferred at hrest
            omega
          rw [hcL (by omega) hmod _ (by omega)]
          exact hb
      · -- the first byte of the sector, before the request
        have hpoll : 0 < offset ∧ (e.attempts k).poll 0 ≠ .none := by
          by_contra hno
          apply h
          constructor
          · exact hfits
          · exact heven
          · rintro (h0 | hlt)
            · by_contra hp
              exact hno ⟨h0, hp⟩
            · by_contra hp
              exact hrest ⟨hlt, Or.inl hp⟩
          · intro hlt
            by_contra hge
            exact hrest ⟨hlt, Or.inr (by omega)⟩
        refine ⟨0, fun b hb a disk cachedF cached hag hF _ _ => ?_⟩
        rw [overwrite_of_mem (by omega) (by omega), overwrite_of_notMem (by omega),
          hag _ (by omega), Nat.add_sub_cancel_left]
        unfold sentByte
        rw [if_pos hpoll.1, hF (Or.inl (by omega)) 0 (by omega) hpoll.2]
        exact hb
    · -- the byte behind an odd end
      push Not at heven
      obtain ⟨hodd, hne⟩ := heven
      refine ⟨offset + count, fun b _ a disk cachedF cached hag _ _ _ => ?_⟩
      rw [overwrite_of_mem (by omega) (by omega), overwrite_of_notMem (by omega),
        hag _ (by omega), Nat.add_sub_cancel_left]
      unfold sentByte
      rw [if_neg (by omega), if_neg (by omega), if_pos (by omega)]
      exact hne.symm
  · -- the first byte of the request behind the sectors
    have hge : 512 ≤ transferred count := by unfold transferred; omega
    refine ⟨transferred count, fun b hb a disk cachedF cached hag _ _ _ => ?_⟩
    rw [overwrite_of_notMem (by omega), overwrite_of_mem (by omega) (by omega), hag _ (by omega)]
    exact hb.symm

theorem writeSpec_pio (e : Drive) :
    WriteSpec (pioWriteFlexible e) (fun offset count k =>
      (e.attempts (k + cacheReads offset count)).poll 0 = .none)
      (fun offset count => cacheReads offset count + 1) (255 * 512) (PioWriteGood e) where
  code {left data sector offset a count s} hs hc hl := by
    rw [(pioWriteFlexible_spec e left data sector offset a count s hs hl).1]
  transfers {left data sector offset a count s} hs hc hl _ :=
    (pioWriteFlexible_spec e left data sector offset a count s hs hl).2.1
  outside {left data sector offset a count s} hs hc hl hn x hx := by
    obtain ⟨-, -, -, cachedF, cached, hdisk, -⟩ :=
      pioWriteFlexible_spec e left data sector offset a count s hs hl
    rw [hdisk hn]
    exact overwrite_of_notMem hx
  good {left data sector offset a count s} hs hc hl hn hgood := by
    obtain ⟨-, -, -, cachedF, cached, hdisk, hF, hcF, -⟩ :=
      pioWriteFlexible_spec e left data sector offset a count s hs hl
    rw [hdisk hn]
    funext x
    by_cases hx : 512 * sector ≤ x ∧ x < 512 * sector + transferred count
    · rw [overwrite_of_mem hx.1 hx.2, hgood.sent (by omega) (fun h j hj => (hF h j hj).1) hcF]
      congr 1
      omega
    · have := hgood.fits
      rw [overwrite_of_notMem (by omega), overwrite_of_notMem (by omega)]
  first {left data sector a count s} hs hc hl hn := by
    obtain ⟨-, -, -, cachedF, cached, hdisk, -⟩ :=
      pioWriteFlexible_spec e left data sector 0 a count s hs hl
    have := le_transferred count
    rw [hdisk hn, overwrite_of_mem le_rfl (by omega), Nat.sub_self]
    unfold sentByte
    rw [if_neg (by omega), if_pos (by omega)]
    rfl
  wrong {d k sector offset count} hs hc hl hoff hbad := by
    obtain ⟨j, hj⟩ := exists_wrong_of_not_good hc hoff hbad
    refine ⟨512 * sector + j, by omega, fun b hb a s hag hk _ hn => ?_⟩
    obtain ⟨-, -, -, cachedF, cached, hdisk, hF, hcF, hcL⟩ :=
      pioWriteFlexible_spec e (.const b) (fun _ => b) sector offset a count s hs hl
    rw [hdisk hn]
    exact hj b hb a s.disk cachedF cached hag
      (fun h i hi hp => (hF h i hi).2 (hk ▸ hp)) hcF fun h h' i hi => hcL h h' i hi
  buffer {sector a s b} hs hb _ := by
    rw [(pioWriteFlexible_spec e _ _ sector 0 a (255 * 512) s hs le_rfl).2.2.1]
    exact hb
  congr {d d' k sector offset count} hag h :=
    ⟨h.fits, fun ho => (hag _ (by omega)).symm.trans (h.even ho), h.cached, h.small⟩
  full := ⟨by decide, fun h => absurd h (by decide), fun h => absurd h (by decide),
    fun h => absurd h (by decide)⟩
  used_full := by decide

/-! ## DMA writes -/

theorem checkSector_of_ge (lba48 : Bool) {sector : ℕ} (h : 2 ^ 28 ≤ sector) (h' : sector < 2 ^ 32) :
    checkSector lba48 sector ≠ .none := by
  have hand : sector &&& 0xF0000000 ≠ 0 := by
    intro h0
    have hshift : (sector &&& 0xF0000000) >>> 28 = sector / 2 ^ 28 := by
      rw [Nat.shiftRight_and_distrib, show 0xF0000000 >>> 28 = 2 ^ 4 - 1 by rfl,
        Nat.and_two_pow_sub_one_eq_mod, Nat.shiftRight_eq_div_pow]
      omega
    rw [h0, Nat.zero_shiftRight] at hshift
    omega
  unfold checkSector
  rw [if_neg (by omega), if_pos hand]
  exact ErrorT.noConfusion

/-- The buffer after a nested read of one sector. -/
def nestedRead (e : Drive) (left : Leftover) (owned : Bool) (sector : ℕ) (disk : Mem) (k : ℕ)
    (buffer : Mem) : Mem :=
  if sector < 2 ^ 28 ∧ ((e.attempts k).locked → owned) then
    if (e.attempts k).dmaOk then overwrite buffer 0 512 fun j => disk (512 * sector + j)
    else left.buffer k
  else buffer

/-- A read of one sector at any place: behind the 28-bit range nothing is
transferred. -/
theorem dmaTransfer_one (e : Drive) (left : Leftover) (hatapi : e.atapi = false) (owned : Bool)
    {sector : ℕ} (hsector : sector < 2 ^ 32) (s : State) :
    (dmaTransfer e left owned sector bytesPerSector s).2.2 = { s with
      buffer := nestedRead e left owned sector s.disk s.transfers s.buffer
      transfers := s.transfers + 1 } := by
  unfold nestedRead
  by_cases hlt : sector < 2 ^ 28
  · rw [dmaTransfer_cases e left hatapi owned sector bytesPerSector s hlt (by decide) (by decide)]
    by_cases hlock : (e.attempts s.transfers).locked = true ∧ ¬owned = true
    · rw [if_pos hlock, if_neg (fun h => hlock.2 (h.2 hlock.1))]
    · have hfree : sector < 2 ^ 28 ∧ ((e.attempts s.transfers).locked = true → owned = true) :=
        ⟨hlt, fun h => not_not.mp fun ho => hlock ⟨h, ho⟩⟩
      rw [if_neg hlock, if_pos hfree]
      split_ifs <;> rfl
  · rw [if_neg (fun h => hlt h.1)]
    have hout := checkSector_of_ge e.lba48 (by omega) hsector
    unfold dmaTransfer
    dsimp only
    rw [if_neg (by decide), hatapi]
    simp only [Bool.false_eq_true, if_false, and_false, false_and, not_false_eq_true, true_and]
    rw [if_neg (by decide : ¬sectorCount bytesPerSector bytesPerSector > 127), if_pos hout]
    split_ifs <;> rfl

/-- The PRDT buffer when the data is copied into it: the cached sectors are read
through it. -/
def cachedBuffer (e : Drive) (left : Leftover) (sector offset count : ℕ) (s : State) : Mem :=
  let first :=
    if offset ≠ 0 ∨ count % 512 ≠ 0 then
      nestedRead e left true sector s.disk (s.transfers + 1) s.buffer
    else s.buffer
  if 512 ≤ count ∧ count % 512 ≠ 0 then
    nestedRead e left false (sector + count / 512 * 512) s.disk (s.transfers + 2) first
  else first

theorem dmaWriteFlexible_cases (e : Drive) (left : Leftover) (hatapi : e.atapi = false) (data : Mem)
    (sector offset a count : ℕ) (s : State) (hsector : sector < 2 ^ 28) (hcount : 0 < count)
    (hle : count ≤ 127 * 512) :
    let filled := overwrite (cachedBuffer e left sector offset count s) offset count
      fun i => data (a + i)
    let transfers := s.transfers + 1 + cacheReads offset count
    dmaWriteFlexible e left data sector offset a count s =
      if (e.attempts s.transfers).locked then
        (.mutexAlreadyLocked, { s with transfers := s.transfers + 1 })
      else if (e.attempts s.transfers).dmaOk then
        (.none, { s with
          disk := overwrite s.disk (512 * sector) (transferred count) filled
          buffer := filled
          transfers := transfers })
      else
        (.diskInternal, { s with
          disk := left.disk s.transfers, buffer := filled, transfers := transfers }) := by
  intro filled transfers
  unfold dmaWriteFlexible
  dsimp only
  rw [if_neg (by omega : ¬count = 0), sectorCount_eq (by omega), checkSector_of_lt hsector]
  by_cases hlock : (e.attempts s.transfers).locked = true
  · rw [if_pos hlock, if_pos hlock]
  · rw [if_neg hlock, if_neg hlock]
    have hfst := dmaTransfer_one e left hatapi true (show sector < 2 ^ 32 by omega)
      { s with transfers := s.transfers + 1 }
    have hlast := fun t => dmaTransfer_one e left hatapi false
      (show sector + count / 512 * 512 < 2 ^ 32 by omega) t
    unfold filled transfers cachedBuffer cacheReads
    by_cases h1 : offset ≠ 0 ∨ count % 512 ≠ 0
    · by_cases h2 : 512 ≤ count ∧ count % 512 ≠ 0
      · have hl : sector + count / 512 * 512 ≠ sector ∧ count % 512 ≠ 0 := by omega
        simp only [if_pos h1, if_pos h2, if_pos hl, hfst, hlast, ne_eq, not_true_eq_false, if_false]
        split_ifs <;> rfl
      · have hl : ¬(sector + count / 512 * 512 ≠ sector ∧ count % 512 ≠ 0) := by omega
        simp only [if_pos h1, if_neg h2, if_neg hl, hfst, ne_eq, not_true_eq_false, if_false]
        split_ifs <;> rfl
    · have h2 : ¬(512 ≤ count ∧ count % 512 ≠ 0) := by omega
      have hl : ¬(sector + count / 512 * 512 ≠ sector ∧ count % 512 ≠ 0) := by omega
      simp only [if_neg h1, if_neg h2, if_neg hl, ne_eq, not_true_eq_false, if_false]
      split_ifs <;> rfl

/-- The last sector of a DMA write is cached: it lies in the 28-bit range, and no
other process has taken the mutex that the first cached sector released. -/
def LastCached (e : Drive) (k last : ℕ) : Prop :=
  last < 2 ^ 28 ∧ ((e.attempts (k + 2)).locked = true → false = true)

/-- When a DMA write is exact. What stands around the request is what the cached
sectors have left at the front of the buffer, so that a write of a sector and
more has to end with a sector, and if the last sector has been cached it has to
begin as the first one does. -/
structure DmaWriteGood (e : Drive) (d : Mem) (k sector offset count : ℕ) : Prop where
  fits : offset + count ≤ transferred count
  small : count < 512 → (e.attempts (k + 1)).dmaOk
  ends : 512 ≤ count → count % 512 ≠ 0 → offset + count = transferred count
  around : 512 ≤ count → count % 512 ≠ 0 →
    (LastCached e k (sector + count / 512 * 512) → (e.attempts (k + 2)).dmaOk ∧
      ∀ j < offset, d (512 * (sector + count / 512 * 512) + j) = d (512 * sector + j)) ∧
    (¬LastCached e k (sector + count / 512 * 512) → (e.attempts (k + 1)).dmaOk)

theorem nestedRead_of_ok {e : Drive} (left : Leftover) {owned : Bool} {sector k j : ℕ}
    (disk buffer : Mem) (h : sector < 2 ^ 28 ∧ ((e.attempts k).locked → owned))
    (hok : (e.attempts k).dmaOk) (hj : j < 512) :
    nestedRead e left owned sector disk k buffer j = disk (512 * sector + j) := by
  unfold nestedRead
  rw [if_pos h, if_pos hok, overwrite_of_mem (by omega) (by omega)]
  rfl

theorem nestedRead_of_failed {e : Drive} (left : Leftover) {owned : Bool} {sector k : ℕ}
    (disk buffer : Mem) (h : sector < 2 ^ 28 ∧ ((e.attempts k).locked → owned))
    (hok : ¬(e.attempts k).dmaOk) :
    nestedRead e left owned sector disk k buffer = left.buffer k := by
  unfold nestedRead
  rw [if_pos h, if_neg hok]

theorem nestedRead_of_not {e : Drive} (left : Leftover) {owned : Bool} {sector k : ℕ}
    (disk buffer : Mem) (h : ¬(sector < 2 ^ 28 ∧ ((e.attempts k).locked → owned))) :
    nestedRead e left owned sector disk k buffer = buffer :=
  if_neg h

/-- A failed read leaves the undetermined byte everywhere, and no read stores
anything behind its sector. -/
theorem nestedRead_const {e : Drive} {owned : Bool} {sector k j : ℕ} {b : UInt8}
    {disk buffer : Mem} (hb : buffer j = b) (h : 512 ≤ j ∨ ¬(e.attempts k).dmaOk) :
    nestedRead e (.const b) owned sector disk k buffer j = b := by
  unfold nestedRead
  split_ifs with h1 h2
  · rw [overwrite_of_notMem (by have := h.resolve_right (not_not_intro h2); omega)]
    exact hb
  · rfl
  · exact hb

/-- The bytes around a good request, from the cached sectors. -/
theorem DmaWriteGood.cached {e : Drive} (left : Leftover) {s : State} {sector offset count j : ℕ}
    (h : DmaWriteGood e s.disk s.transfers sector offset count) (hsector : sector < 2 ^ 28)
    (hj : j < transferred count) (hout : j < offset ∨ offset + count ≤ j) :
    cachedBuffer e left sector offset count s j = s.disk (512 * sector + j) := by
  have hfits := h.fits
  have hpos : 0 < count := by unfold transferred at hj; omega
  have howned : sector < 2 ^ 28 ∧ ((e.attempts (s.transfers + 1)).locked = true → true = true) :=
    ⟨hsector, fun _ => rfl⟩
  unfold cachedBuffer
  by_cases hsmall : count < 512
  · have ht : transferred count ≤ 512 := by unfold transferred; omega
    rw [if_neg (by omega), if_pos (by omega),
      nestedRead_of_ok left _ _ howned (h.small hsmall) (by omega)]
  · have hmod : count % 512 ≠ 0 := by
      intro h0
      have : transferred count = count := by unfold transferred; omega
      omega
    have hend := h.ends (by omega) hmod
    have hj' : j < offset := by omega
    have hlt : j < 512 := by unfold transferred at hend; omega
    obtain ⟨hlast, hfirst⟩ := h.around (by omega) hmod
    rw [if_pos (by omega), if_pos (by omega)]
    by_cases hc : LastCached e s.transfers (sector + count / 512 * 512)
    · rw [nestedRead_of_ok left _ _ hc (hlast hc).1 hlt]
      exact (hlast hc).2 j hj'
    · rw [nestedRead_of_not left _ _ hc, nestedRead_of_ok left _ _ howned (hfirst hc) hlt]

/-- If a DMA write is not good, one byte of its sectors comes out wrong when the
buffer, the bytes of failed transfers and the data are a byte that is not
there. -/
theorem exists_wrong_of_not_dmaWriteGood {e : Drive} {d : Mem} {k sector offset count : ℕ}
    (hc : 0 < count) (h : ¬DmaWriteGood e d k sector offset count) :
    ∃ j, ∀ b, b ≠ d (512 * sector + j) → ∀ s : State, AgreeFrom sector s.disk d →
      s.transfers = k → (s.buffer = fun _ => b) →
        overwrite s.disk (512 * sector) (transferred count)
          (overwrite (cachedBuffer e (.const b) sector offset count s) offset count fun _ => b)
            (512 * sector + j) ≠
          overwrite s.disk (512 * sector + offset) count (fun _ => b) (512 * sector + j) := by
  have hle := le_transferred count
  -- a byte around the request that is not the one on the disk
  have hbyte : ∀ j, j < offset ∨ offset + count ≤ j → j < transferred count →
      (∀ b, b ≠ d (512 * sector + j) → ∀ s : State, AgreeFrom sector s.disk d →
        s.transfers = k → (s.buffer = fun _ => b) →
          cachedBuffer e (.const b) sector offset count s j ≠ d (512 * sector + j)) →
      ∃ j, ∀ b, b ≠ d (512 * sector + j) → ∀ s : State, AgreeFrom sector s.disk d →
        s.transfers = k → (s.buffer = fun _ => b) →
          overwrite s.disk (512 * sector) (transferred count)
            (overwrite (cachedBuffer e (.const b) sector offset count s) offset count fun _ => b)
              (512 * sector + j) ≠
            overwrite s.disk (512 * sector + offset) count (fun _ => b) (512 * sector + j) := by
    intro j hout hj hne
    refine ⟨j, fun b hb s hag hk hbuf => ?_⟩
    rw [overwrite_of_mem (by omega) (by omega), Nat.add_sub_cancel_left,
      overwrite_of_notMem (by omega), overwrite_of_notMem (by omega), hag _ (by omega)]
    exact hne b hb s hag hk hbuf
  by_cases hfits : offset + count ≤ transferred count
  · by_cases hsmall : count < 512
    · have ht : transferred count = 512 := by unfold transferred; omega
      have hfail : ¬(e.attempts (k + 1)).dmaOk := by
        intro hok
        exact h ⟨hfits, fun _ => hok, fun h' => absurd h' (by omega), fun h' => absurd h' (by omega)⟩
      have hj : ∃ j, (j < offset ∨ offset + count ≤ j) ∧ j < transferred count := by
        by_cases h0 : offset = 0
        · exact ⟨offset + count, Or.inr le_rfl, by omega⟩
        · exact ⟨0, Or.inl (by omega), by omega⟩
      obtain ⟨j, hout, hj⟩ := hj
      refine hbyte j hout hj fun b hb s _ hk hbuf => ?_
      unfold cachedBuffer
      rw [if_neg (by omega), if_pos (by omega),
        nestedRead_const (congrFun hbuf j) (Or.inr (hk ▸ hfail))]
      exact hb
    · have hmod : count % 512 ≠ 0 := by
        intro h0
        apply h
        exact ⟨hfits, fun h' => absurd h' hsmall, fun _ h' => absurd h0 h', fun _ h' => absurd h0 h'⟩
      by_cases hend : offset + count = transferred count
      · have hoff : 0 < offset := by unfold transferred at hend; omega
        by_cases hlc : LastCached e k (sector + count / 512 * 512)
        · by_cases hok : (e.attempts (k + 2)).dmaOk
          · -- the first sector is given the bytes of the last one
            have hdiff : ∃ j < offset,
                d (512 * (sector + count / 512 * 512) + j) ≠ d (512 * sector + j) := by
              by_contra hno
              push Not at hno
              exact h ⟨hfits, fun h' => absurd h' hsmall, fun _ _ => hend, fun _ _ =>
                ⟨fun _ => ⟨hok, hno⟩, fun h' => absurd hlc h'⟩⟩
            obtain ⟨j, hj, hne⟩ := hdiff
            refine hbyte j (Or.inl hj) (by omega) fun b hb s hag hk hbuf => ?_
            unfold cachedBuffer
            subst hk
            rw [if_pos (by omega), nestedRead_of_ok _ _ _ hlc hok (by unfold transferred at hend; omega),
              hag _ (by omega)]
            exact hne
          · refine hbyte 0 (Or.inl hoff) (by omega) fun b hb s _ hk hbuf => ?_
            unfold cachedBuffer
            subst hk
            rw [if_pos (by omega), nestedRead_of_failed _ _ _ hlc hok]
            exact hb
        · have hfail : ¬(e.attempts (k + 1)).dmaOk := by
            intro hok
            exact h ⟨hfits, fun h' => absurd h' hsmall, fun _ _ => hend, fun _ _ =>
              ⟨fun h' => absurd h' hlc, fun _ => hok⟩⟩
          refine hbyte 0 (Or.inl hoff) (by omega) fun b hb s _ hk hbuf => ?_
          unfold cachedBuffer
          subst hk
          rw [if_pos (by omega), if_pos (by omega), nestedRead_of_not _ _ _ hlc,
            nestedRead_const (congrFun hbuf 0) (Or.inr hfail)]
          exact hb
      · -- nothing stores behind the first sector of the buffer
        refine hbyte (offset + count) (Or.inr le_rfl) (by omega) fun b hb s _ hk hbuf => ?_
        unfold cachedBuffer
        rw [if_pos (by omega), if_pos (by omega),
          nestedRead_const (nestedRead_const (congrFun hbuf _) (Or.inl (by omega)))
            (Or.inl (by omega))]
        exact hb
  · refine ⟨max offset (transferred count), fun b hb s hag _ _ => ?_⟩
    rw [overwrite_of_notMem (by omega), overwrite_of_mem (by omega) (by omega), hag _ (by omega)]
    exact hb.symm

theorem writeSpec_dma (e : Drive) (hatapi : e.atapi = false) :
    WriteSpec (dmaWriteFlexible e) (DmaOk e) (fun offset count => 1 + cacheReads offset count)
      (127 * 512) (DmaWriteGood e) where
  code {left data sector offset a count s} hs hc hl := by
    rw [dmaWriteFlexible_cases e left hatapi data sector offset a count s hs hc hl]
    unfold DmaOk
    split_ifs with hlock hok
    · simp [hlock]
    · simp [hlock, hok]
    · simp [hok]
  transfers {left data sector offset a count s} hs hc hl hn := by
    rw [dmaWriteFlexible_cases e left hatapi data sector offset a count s hs hc hl] at hn ⊢
    split_ifs at hn ⊢
    exact Nat.add_assoc _ _ _
  outside {left data sector offset a count s} hs hc hl hn x hx := by
    rw [dmaWriteFlexible_cases e left hatapi data sector offset a count s hs hc hl] at hn ⊢
    split_ifs at hn ⊢
    exact overwrite_of_notMem hx
  good {left data sector offset a count s} hs hc hl hn hgood := by
    rw [dmaWriteFlexible_cases e left hatapi data sector offset a count s hs hc hl] at hn ⊢
    split_ifs at hn ⊢
    dsimp only
    have hfits := hgood.fits
    funext x
    by_cases hx : 512 * sector ≤ x ∧ x < 512 * sector + transferred count
    · rw [overwrite_of_mem hx.1 hx.2]
      by_cases hin : 512 * sector + offset ≤ x ∧ x < 512 * sector + offset + count
      · rw [overwrite_of_mem hin.1 hin.2, overwrite_of_mem (by omega) (by omega)]
        congr 2
        omega
      · rw [overwrite_of_notMem (by omega), overwrite_of_notMem (by omega),
          hgood.cached left hs (by omega) (by omega)]
        congr 1
        omega
    · rw [overwrite_of_notMem (by omega), overwrite_of_notMem (by omega)]
  first {left data sector a count s} hs hc hl hn := by
    rw [dmaWriteFlexible_cases e left hatapi data sector 0 a count s hs hc hl] at hn ⊢
    split_ifs at hn ⊢
    dsimp only
    have := le_transferred count
    rw [overwrite_of_mem le_rfl (by omega), Nat.sub_self, overwrite_of_mem le_rfl (by omega)]
    rfl
  wrong {d k sector offset count} hs hc hl hoff hbad := by
    obtain ⟨j, hj⟩ := exists_wrong_of_not_dmaWriteGood hc hbad
    refine ⟨512 * sector + j, by omega, fun b hb a s hag hk hbuf hn => ?_⟩
    rw [dmaWriteFlexible_cases e _ hatapi _ sector offset a count s hs hc hl] at hn ⊢
    split_ifs at hn ⊢
    exact hj b hb s hag hk hbuf
  buffer {sector a s b} hs hb hn := by
    rw [dmaWriteFlexible_cases e _ hatapi _ sector 0 a (127 * 512) s hs (by decide) le_rfl] at hn ⊢
    split_ifs at hn ⊢
    dsimp only
    funext x
    unfold cachedBuffer
    dsimp only
    rw [if_neg (by decide), if_neg (by decide)]
    by_cases hx : x < 127 * 512
    · exact overwrite_of_mem (by omega) (by omega)
    · rw [overwrite_of_notMem (by omega), hb]
  congr {d d' k sector offset count} hag h := by
    refine ⟨h.fits, h.small, h.ends, fun hl hm => ⟨fun hc => ?_, (h.around hl hm).2⟩⟩
    obtain ⟨hok, hd⟩ := (h.around hl hm).1 hc
    refine ⟨hok, fun j hj => ?_⟩
    rw [← hag _ (by omega), ← hag _ (by omega)]
    exact hd j hj
  full := ⟨by decide, fun h => absurd h (by decide), fun _ h => absurd rfl h,
    fun _ h => absurd rfl h⟩
  used_full := by decide

/-! ## A write in chunks -/

/-- The write returns `ERROR_NONE`: all chunks succeed. -/
def WriteReturns (ok : ℕ → ℕ → ℕ → Prop) (used : ℕ → ℕ → ℕ) (chunk : ℕ) : ℕ → ℕ → ℕ → ℕ → Prop
  | 0, _, _, _ => False
  | fuel + 1, offset, count, k =>
    if count > chunk * 512 then
      ok offset (chunk * 512) k ∧
        WriteReturns ok used chunk fuel 0 (count - chunk * 512) (k + used offset (chunk * 512))
    else ok offset count k

/-- More than one chunk has to start at a sector, and the last chunk has to be
good. -/
def ChunksFit (Good : Mem → ℕ → ℕ → ℕ → ℕ → Prop) (d : Mem) (chunk : ℕ) :
    ℕ → ℕ → ℕ → ℕ → ℕ → Prop
  | 0, _, _, _, _ => True
  | fuel + 1, sector, offset, count, k =>
    if count > chunk * 512 then
      offset = 0 ∧ ChunksFit Good d chunk fuel (sector + chunk) 0 (count - chunk * 512) (k + 1)
    else Good d k sector offset count

section Chunks
variable {write : Leftover → Mem → ℕ → ℕ → ℕ → ℕ → State → ErrorT × State}
  {ok : ℕ → ℕ → ℕ → Prop} {used : ℕ → ℕ → ℕ} {chunk sector : ℕ} {sectorAt : ℕ → ℕ}
  {Good : Mem → ℕ → ℕ → ℕ → ℕ → Prop} {left : Leftover} {data : Mem}

theorem writeChunks_succ (write : ℕ → ℕ → ℕ → ℕ → State → ErrorT × State) (chunk : ℕ)
    (sectorAt : ℕ → ℕ) (fuel offset a asect count : ℕ) (s : State) :
    writeChunks write chunk sectorAt (fuel + 1) offset a asect count s =
      if count > chunk * 512 then
        let r := write (sectorAt asect) offset a (chunk * 512) s
        if r.1 ≠ .none then r
        else
          writeChunks write chunk sectorAt fuel 0 (u32 (a + chunk * 512)) (u32 (asect + chunk))
            (count - chunk * 512) r.2
      else write (sectorAt asect) offset a count s := rfl

theorem writeChunks_none_iff (hw : WriteSpec write ok used (chunk * 512) Good)
    (hset : ∀ asect, sector + asect < 2 ^ 28 → sectorAt asect = sector + asect) (hchunk : 0 < chunk)
    {fuel offset a asect count : ℕ} {s : State} (hin : InRange sector offset a asect count) :
    (writeChunks (write left data) chunk sectorAt fuel offset a asect count s).1 = .none ↔
      WriteReturns ok used chunk fuel offset count s.transfers := by
  induction fuel generalizing offset a asect count s with
  | zero => exact ⟨fun h => ErrorT.noConfusion h, False.elim⟩
  | succ fuel ih =>
    have hsec := hin.sector_lt
    rw [writeChunks_succ, WriteReturns]
    dsimp only
    rw [hset asect hsec]
    by_cases hc : count > chunk * 512
    · rw [if_pos hc, if_pos hc]
      obtain ⟨ha, has, hnext⟩ := hin.next hc
      have hcode : (write left data (sector + asect) offset a (chunk * 512) s).1 = .none ↔ _ :=
        hw.code hsec (by omega) le_rfl
      rw [ha, has]
      by_cases herr : (write left data (sector + asect) offset a (chunk * 512) s).1 = .none
      · rw [if_neg (not_not_intro herr), ih hnext, hw.transfers hsec (by omega) le_rfl herr]
        exact ⟨fun h => ⟨hcode.mp herr, h⟩, fun h => h.2⟩
      · rw [if_pos herr]
        exact ⟨fun h => absurd h herr, fun h => absurd (hcode.mpr h.1) herr⟩
    · rw [if_neg hc, if_neg hc]
      exact hw.code hsec hin.count_pos (by omega)

/-- Chunks do not write before their first sector. -/
theorem writeChunks_before (hw : WriteSpec write ok used (chunk * 512) Good)
    (hset : ∀ asect, sector + asect < 2 ^ 28 → sectorAt asect = sector + asect) (hchunk : 0 < chunk)
    {fuel offset a asect count : ℕ} {s : State} (hin : InRange sector offset a asect count)
    (h : (writeChunks (write left data) chunk sectorAt fuel offset a asect count s).1 = .none) :
    ∀ x < 512 * (sector + asect),
      (writeChunks (write left data) chunk sectorAt fuel offset a asect count s).2.disk x =
        s.disk x := by
  induction fuel generalizing offset a asect count s with
  | zero => cases h
  | succ fuel ih =>
    intro x hx
    have hsec := hin.sector_lt
    rw [writeChunks_succ] at h ⊢
    dsimp only at h ⊢
    rw [hset asect hsec] at h ⊢
    by_cases hc : count > chunk * 512
    · rw [if_pos hc] at h ⊢
      obtain ⟨ha, has, hnext⟩ := hin.next hc
      by_cases herr : (write left data (sector + asect) offset a (chunk * 512) s).1 = .none
      · rw [if_neg (not_not_intro herr), ha, has] at h ⊢
        rw [ih hnext h x (by omega)]
        exact hw.outside hsec (by omega) le_rfl herr x (Or.inl hx)
      · rw [if_pos herr] at h
        exact absurd h herr
    · rw [if_neg hc] at h ⊢
      exact hw.outside hsec hin.count_pos (by omega) h x (Or.inl hx)

/-- Chunks that start at a sector write their first byte there. -/
theorem writeChunks_first (hw : WriteSpec write ok used (chunk * 512) Good)
    (hset : ∀ asect, sector + asect < 2 ^ 28 → sectorAt asect = sector + asect) (hchunk : 0 < chunk)
    {fuel a asect count : ℕ} {s : State} (hin : InRange sector 0 a asect count)
    (h : (writeChunks (write left data) chunk sectorAt fuel 0 a asect count s).1 = .none) :
    (writeChunks (write left data) chunk sectorAt fuel 0 a asect count s).2.disk
      (512 * (sector + asect)) = data a := by
  cases fuel with
  | zero => cases h
  | succ fuel =>
    have hsec := hin.sector_lt
    rw [writeChunks_succ] at h ⊢
    dsimp only at h ⊢
    rw [hset asect hsec] at h ⊢
    by_cases hc : count > chunk * 512
    · rw [if_pos hc] at h ⊢
      obtain ⟨ha, has, hnext⟩ := hin.next hc
      by_cases herr : (write left data (sector + asect) 0 a (chunk * 512) s).1 = .none
      · rw [if_neg (not_not_intro herr), ha, has] at h ⊢
        rw [writeChunks_before hw hset hchunk hnext h _ (by omega)]
        exact hw.first hsec (by omega) le_rfl herr
      · rw [if_pos herr] at h
        exact absurd h herr
    · rw [if_neg hc] at h ⊢
      exact hw.first hsec hin.count_pos (by omega) h

/-- What a full chunk at a sector leaves for the chunks behind it. -/
theorem WriteSpec.full_chunk (hw : WriteSpec write ok used (chunk * 512) Good) (hchunk : 0 < chunk)
    {sec a : ℕ} {s : State} (hsec : sec < 2 ^ 28)
    (h : (write left data sec 0 a (chunk * 512) s).1 = .none) {d : Mem}
    (hag : AgreeFrom sec s.disk d) :
    let s' := (write left data sec 0 a (chunk * 512) s).2
    s'.disk = overwrite s.disk (512 * sec) (chunk * 512) (fun i => data (a + i)) ∧
      s'.transfers = s.transfers + 1 ∧ AgreeFrom (sec + chunk) s'.disk d := by
  intro s'
  have hdisk : s'.disk = _ := hw.good hsec (by omega) le_rfl h hw.full
  refine ⟨hdisk, ?_, fun x hx => ?_⟩
  · rw [← hw.used_full]
    exact hw.transfers hsec (by omega) le_rfl h
  · rw [hdisk, overwrite_of_notMem (by omega)]
    exact hag x (by omega)

/-- Two updates of neighbouring ranges of the disk by a chunk and the rest. -/
theorem overwrite_chunk (data m : Mem) (sec a : ℕ) {chunk count : ℕ} (hc : count > chunk * 512) :
    overwrite (overwrite m (512 * sec) (chunk * 512) fun i => data (a + i)) (512 * (sec + chunk))
      (count - chunk * 512) (fun i => data (a + chunk * 512 + i)) =
      overwrite m (512 * sec) count fun i => data (a + i) := by
  have happ := overwrite_append m (512 * sec) (chunk * 512) (count - chunk * 512) fun i => data (a + i)
  rw [Nat.add_sub_of_le (by omega)] at happ
  rw [← happ, show 512 * (sec + chunk) = 512 * sec + chunk * 512 by omega]
  simp only [Nat.add_assoc]

/-- A write whose chunks fit is exact. -/
theorem writeChunks_exact (hw : WriteSpec write ok used (chunk * 512) Good)
    (hset : ∀ asect, sector + asect < 2 ^ 28 → sectorAt asect = sector + asect) (hchunk : 0 < chunk)
    {d : Mem} {fuel offset a asect count : ℕ} {s : State}
    (hin : InRange sector offset a asect count) (hag : AgreeFrom (sector + asect) s.disk d)
    (hfit : ChunksFit Good d chunk fuel (sector + asect) offset count s.transfers)
    (h : (writeChunks (write left data) chunk sectorAt fuel offset a asect count s).1 = .none) :
    (writeChunks (write left data) chunk sectorAt fuel offset a asect count s).2.disk =
      overwrite s.disk (512 * (sector + asect) + offset) count fun i => data (a + i) := by
  induction fuel generalizing offset a asect count s with
  | zero => cases h
  | succ fuel ih =>
    have hsec := hin.sector_lt
    rw [writeChunks_succ] at h ⊢
    rw [ChunksFit] at hfit
    dsimp only at h ⊢
    rw [hset asect hsec] at h ⊢
    by_cases hc : count > chunk * 512
    · rw [if_pos hc] at h ⊢ hfit
      obtain ⟨rfl, hfit⟩ := hfit
      obtain ⟨ha, has, hnext⟩ := hin.next hc
      by_cases herr : (write left data (sector + asect) 0 a (chunk * 512) s).1 = .none
      · rw [if_neg (not_not_intro herr), ha, has] at h ⊢
        obtain ⟨hdisk, htr, hag'⟩ := hw.full_chunk hchunk hsec herr hag
        rw [Nat.add_assoc] at hfit hag'
        rw [ih hnext hag' (htr ▸ hfit) h, hdisk, ← Nat.add_assoc sector asect chunk, Nat.add_zero,
          Nat.add_zero]
        exact overwrite_chunk data s.disk (sector + asect) a hc
      · rw [if_pos herr] at h
        exact absurd h herr
    · rw [if_neg hc] at h ⊢ hfit
      refine hw.good hsec hin.count_pos (by omega) h (hw.congr (fun x hx => ?_) hfit)
      exact (hag x hx).symm

/-- A write of one chunk, or of more that start at a sector, that does not fit
gets a byte wrong. -/
theorem exists_wrong_of_not_chunksFit (hw : WriteSpec write ok used (chunk * 512) Good)
    (hset : ∀ asect, sector + asect < 2 ^ 28 → sectorAt asect = sector + asect) (hchunk : 0 < chunk)
    {d : Mem} {fuel offset a asect count k : ℕ} (hin : InRange sector offset a asect count)
    (hoff : offset ≤ 512) (hone : count > chunk * 512 → offset = 0)
    (hfit : ¬ChunksFit Good d chunk fuel (sector + asect) offset count k) :
    ∃ x, 512 * (sector + asect) ≤ x ∧ ∀ b, b ≠ d x → ∀ s : State,
      AgreeFrom (sector + asect) s.disk d → s.transfers = k → (s.buffer = fun _ => b) →
        (writeChunks (write (.const b) fun _ => b) chunk sectorAt fuel offset a asect count s).1 =
          .none →
        (writeChunks (write (.const b) fun _ => b) chunk sectorAt fuel offset a asect count
          s).2.disk x ≠ overwrite s.disk (512 * (sector + asect) + offset) count (fun _ => b) x := by
  induction fuel generalizing offset a asect count k with
  | zero => exact absurd trivial hfit
  | succ fuel ih =>
    have hsec := hin.sector_lt
    rw [ChunksFit] at hfit
    by_cases hc : count > chunk * 512
    · have h0 := hone hc
      subst h0
      rw [if_pos hc] at hfit
      have hrest : ¬ChunksFit Good d chunk fuel (sector + (asect + chunk)) 0
          (count - chunk * 512) (k + 1) := by
        rw [← Nat.add_assoc]
        exact fun h' => hfit ⟨rfl, h'⟩
      obtain ⟨ha, has, hnext⟩ := hin.next hc
      obtain ⟨x, hx, hwrong⟩ := ih hnext (by omega) (fun _ => rfl) hrest
      refine ⟨x, by omega, fun b hb s hag hk hbuf h => ?_⟩
      rw [writeChunks_succ] at h ⊢
      dsimp only at h ⊢
      rw [hset asect hsec, if_pos hc] at h ⊢
      by_cases herr : (write (.const b) (fun _ => b) (sector + asect) 0 a (chunk * 512) s).1 = .none
      · rw [if_neg (not_not_intro herr), ha, has] at h ⊢
        obtain ⟨hdisk, htr, hag'⟩ := hw.full_chunk hchunk hsec herr hag
        rw [Nat.add_assoc] at hag'
        have hne := hwrong b hb _ hag' (by rw [htr, hk]) (hw.buffer hsec hbuf herr) h
        rw [hdisk, ← Nat.add_assoc sector asect chunk, Nat.add_zero] at hne
        rw [Nat.add_zero]
        rwa [overwrite_chunk (fun _ => b) s.disk (sector + asect) a hc] at hne
      · rw [if_pos herr] at h
        exact absurd h herr
    · rw [if_neg hc] at hfit
      obtain ⟨x, hx, hwrong⟩ := hw.wrong hsec hin.count_pos (by omega) hoff hfit
      refine ⟨x, hx, fun b hb s hag hk hbuf h => ?_⟩
      rw [writeChunks_succ] at h ⊢
      dsimp only at h ⊢
      rw [hset asect hsec, if_neg hc] at h ⊢
      exact hwrong b hb a s hag hk hbuf h

/-- More than one chunk that does not start at a sector: the second chunk is
written at the start of its sector. -/
theorem writeChunks_shifted (hw : WriteSpec write ok used (chunk * 512) Good)
    (hset : ∀ asect, sector + asect < 2 ^ 28 → sectorAt asect = sector + asect) (hchunk : 0 < chunk)
    {fuel offset count : ℕ} {s : State} (hin : InRange sector offset 0 0 count)
    (hc : count > chunk * 512) (hoff : 0 < offset) (hoff' : offset ≤ 512)
    (h : (writeChunks (write left data) chunk sectorAt fuel offset 0 0 count s).1 = .none)
    (hdata : data (chunk * 512) ≠ data (chunk * 512 - offset)) :
    (writeChunks (write left data) chunk sectorAt fuel offset 0 0 count s).2.disk ≠
      overwrite s.disk (512 * sector + offset) count data := by
  cases fuel with
  | zero => cases h
  | succ fuel =>
    have hsec := hin.sector_lt
    rw [writeChunks_succ] at h ⊢
    dsimp only at h ⊢
    rw [hset 0 hsec, if_pos hc] at h ⊢
    obtain ⟨ha, has, hnext⟩ := hin.next hc
    by_cases herr : (write left data (sector + 0) offset 0 (chunk * 512) s).1 = .none
    · rw [if_neg (not_not_intro herr), ha, has] at h ⊢
      intro heq
      have hbyte := writeChunks_first hw hset hchunk hnext h
      rw [heq, overwrite_of_mem (by omega) (by omega), Nat.zero_add, Nat.zero_add,
        show 512 * (sector + chunk) - (512 * sector + offset) = chunk * 512 - offset by
          omega] at hbyte
      exact hdata hbyte.symm
    · rw [if_pos herr] at h
      exact absurd h herr

end Chunks

/-! ## Whole writes -/

/-- The sector and the offset at which a write starts. An offset of exactly one
sector is kept. -/
theorem skipSectors_spec (sector : ℕ) {fuel offset : ℕ} (h : offset ≤ 512 * fuel) :
    512 * (skipSectors fuel sector offset).1 + (skipSectors fuel sector offset).2 =
      512 * sector + offset ∧ (skipSectors fuel sector offset).2 ≤ 512 := by
  induction fuel generalizing sector offset with
  | zero => exact ⟨rfl, by rw [skipSectors]; omega⟩
  | succ fuel ih =>
    rw [skipSectors]
    unfold bytesPerSector
    by_cases hc : offset > 512
    · rw [if_pos hc]
      obtain ⟨h1, h2⟩ := ih (sector + 1) (show offset - 512 ≤ 512 * fuel by omega)
      exact ⟨by omega, h2⟩
    · rw [if_neg hc]
      exact ⟨rfl, by omega⟩

/-- All chunks of the write succeed, so it returns `ERROR_NONE`. -/
def WriteSucceeds (e : Drive) (sector offset count k : ℕ) : Prop :=
  let start := skipSectors offset sector offset
  if ¬e.schedulerStarted then
    WriteReturns (fun offset count k => (e.attempts (k + cacheReads offset count)).poll 0 = .none)
      (fun offset count => cacheReads offset count + 1) 255 (count + 1) start.2 count k
  else
    WriteReturns (DmaOk e) (fun offset count => 1 + cacheReads offset count) 127 (count + 1)
      start.2 count k

/-- A single chunk has to be good. More of them have to start at a sector, and
the last one has to be good. -/
def WriteFits (e : Drive) (d : Mem) (k sector offset count : ℕ) : Prop :=
  let start := skipSectors offset sector offset
  if ¬e.schedulerStarted then
    ChunksFit (PioWriteGood e) d 255 (count + 1) start.1 start.2 count k
  else ChunksFit (DmaWriteGood e) d 127 (count + 1) start.1 start.2 count k

/-- Whatever the bytes that nothing determines are, a write that returns
`ERROR_NONE` changes the bytes of the request to `data` and leaves every other
byte of the disk `d`. `k` transfers have been made before. -/
def WritesExactly (e : Drive) (d : Mem) (k sector offset count : ℕ) : Prop :=
  ∀ left data s, s.disk = d → s.transfers = k →
    (ataWriteFlexible e left data sector offset count s).1 = .none →
      (ataWriteFlexible e left data sector offset count s).2.disk =
        overwrite d (512 * sector + offset) count data

section Whole
variable {e : Drive} {d : Mem} {k sector offset count : ℕ}

theorem inRange_write (hrange : 512 * sector + offset + count ≤ 512 * 2 ^ 28)
    (hbuf : count < 2 ^ 32) (hpos : 0 < count) :
    InRange (skipSectors offset sector offset).1 (skipSectors offset sector offset).2 0 0 count := by
  obtain ⟨haddr, -⟩ := skipSectors_spec sector (show offset ≤ 512 * offset by omega)
  exact ⟨by omega, by omega, hpos⟩

/-- There is a byte other than a given one. -/
theorem exists_byte_ne (c : UInt8) : ∃ b, b ≠ c := by
  by_cases h : c = 0
  · exact ⟨1, by rw [h]; decide⟩
  · exact ⟨0, fun h' => h h'.symm⟩

/-- Chunks are exact if and only if they fit, whatever the transfer function. -/
theorem writeChunks_exact_iff {write : Leftover → Mem → ℕ → ℕ → ℕ → ℕ → State → ErrorT × State}
    {ok : ℕ → ℕ → ℕ → Prop} {used : ℕ → ℕ → ℕ} {chunk : ℕ} {sectorAt : ℕ → ℕ}
    {Good : Mem → ℕ → ℕ → ℕ → ℕ → Prop} (hw : WriteSpec write ok used (chunk * 512) Good)
    (hset : ∀ asect, sector + asect < 2 ^ 28 → sectorAt asect = sector + asect) (hchunk : 0 < chunk)
    {fuel : ℕ} (hin : InRange sector offset 0 0 count) (hoff : offset ≤ 512) :
    (∀ left data s, s.disk = d → s.transfers = k →
      (writeChunks (write left data) chunk sectorAt fuel offset 0 0 count s).1 = .none →
        (writeChunks (write left data) chunk sectorAt fuel offset 0 0 count s).2.disk =
          overwrite d (512 * sector + offset) count data) ↔
      (WriteReturns ok used chunk fuel offset count k →
        ChunksFit Good d chunk fuel sector offset count k) := by
  constructor
  · intro hex hret
    by_contra hfit
    have hnone : ∀ left data (s : State), s.transfers = k →
        (writeChunks (write left data) chunk sectorAt fuel offset 0 0 count s).1 = .none := by
      intro left data s hk
      rw [writeChunks_none_iff hw hset hchunk hin, hk]
      exact hret
    by_cases hshift : count > chunk * 512 ∧ 0 < offset
    · -- the first byte of the second chunk is not the one that belongs there
      obtain ⟨data, hdata⟩ : ∃ data : Mem, data (chunk * 512) ≠ data (chunk * 512 - offset) := by
        refine ⟨fun i => if i = chunk * 512 then 1 else 0, ?_⟩
        dsimp only
        rw [if_pos rfl, if_neg (by omega)]
        decide
      have hn := hnone (.const 0) data ⟨d, fun _ => 0, fun _ => 0, k⟩ rfl
      exact writeChunks_shifted hw hset hchunk hin hshift.1 hshift.2 hoff hn hdata
        (hex _ _ _ rfl rfl hn)
    · obtain ⟨x, -, hwrong⟩ := exists_wrong_of_not_chunksFit hw hset hchunk hin hoff (by omega) hfit
      obtain ⟨b, hb⟩ := exists_byte_ne (d x)
      have hn := hnone (.const b) (fun _ => b) ⟨d, fun _ => b, fun _ => b, k⟩ rfl
      apply hwrong b hb ⟨d, fun _ => b, fun _ => b, k⟩ (fun _ _ => rfl) rfl rfl hn
      rw [hex _ _ _ rfl rfl hn]
      rfl
  · intro hfit left data s hd hk h
    have hret := (writeChunks_none_iff hw hset hchunk hin).mp h
    rw [writeChunks_exact hw hset hchunk hin (fun _ _ => congrFun hd _) (hk ▸ hfit (hk ▸ hret)) h,
      hd]
    simp only [Nat.zero_add]
    rfl

theorem writesExactly_pio_iff (hatapi : e.atapi = false) (hpio : ¬e.schedulerStarted = true)
    (hrange : 512 * sector + offset + count ≤ 512 * 2 ^ 28) (hbuf : count < 2 ^ 32)
    (hpos : 0 < count) :
    WritesExactly e d k sector offset count ↔
      (WriteSucceeds e sector offset count k → WriteFits e d k sector offset count) := by
  obtain ⟨haddr, hoff⟩ := skipSectors_spec sector (show offset ≤ 512 * offset by omega)
  have hin := inRange_write hrange hbuf hpos
  unfold WritesExactly WriteSucceeds WriteFits ataWriteFlexible
  rw [hatapi, ← haddr]
  simp only [Bool.false_eq_true, if_false, if_pos hpio]
  exact writeChunks_exact_iff (writeSpec_pio e) (fun _ _ => rfl) (by decide) hin hoff

theorem writesExactly_dma_iff (hatapi : e.atapi = false) (hdma : e.schedulerStarted = true)
    (hrange : 512 * sector + offset + count ≤ 512 * 2 ^ 28) (hbuf : count < 2 ^ 32)
    (hpos : 0 < count) :
    WritesExactly e d k sector offset count ↔
      (WriteSucceeds e sector offset count k → WriteFits e d k sector offset count) := by
  obtain ⟨haddr, hoff⟩ := skipSectors_spec sector (show offset ≤ 512 * offset by omega)
  have hin := inRange_write hrange hbuf hpos
  have hsec := hin.sector_lt
  unfold WritesExactly WriteSucceeds WriteFits ataWriteFlexible
  rw [hatapi, ← haddr]
  simp only [Bool.false_eq_true, if_false, if_neg (not_not_intro hdma)]
  refine writeChunks_exact_iff (writeSpec_dma e hatapi) (fun asect hlt => ?_) (by decide) hin hoff
  rw [u32_of_lt (by omega : (skipSectors offset sector offset).1 < 2 ^ 32), u32_of_lt (by omega)]

/-- A write is exact if and only if it fits, when it returns `ERROR_NONE`. -/
theorem writesExactly_iff (hatapi : e.atapi = false)
    (hrange : 512 * sector + offset + count ≤ 512 * 2 ^ 28) (hbuf : count < 2 ^ 32)
    (hpos : 0 < count) :
    WritesExactly e d k sector offset count ↔
      (WriteSucceeds e sector offset count k → WriteFits e d k sector offset count) := by
  by_cases hdma : e.schedulerStarted = true
  · exact writesExactly_dma_iff hatapi hdma hrange hbuf hpos
  · exact writesExactly_pio_iff hatapi hdma hrange hbuf hpos

end Whole

/-- The first sector of a disk is written whole. -/
theorem writesExactly_first_sector :
    WritesExactly quietDrive (fun n => UInt8.ofNat n) 0 0 0 512 := by
  apply (writesExactly_iff rfl (by decide) (by decide) (by decide)).mpr
  intro _
  unfold WriteFits
  dsimp only
  rw [if_pos (by decide), ChunksFit, if_neg (by decide)]
  exact ⟨by decide, fun h => absurd h (by decide), fun h => absurd h (by decide),
    fun h => absurd h (by decide)⟩

/-- A quiet drive takes every write of one chunk. -/
theorem quietDrive_writeSucceeds {sector offset count k : ℕ} (hle : count ≤ 255 * 512) :
    WriteSucceeds quietDrive sector offset count k := by
  unfold WriteSucceeds
  dsimp only
  rw [if_pos (by decide), WriteReturns, if_neg (by omega)]
  exact (by decide : pioPollStatus (fun _ => 0) = .none)

/-- A byte at the offset of exactly one sector is sent behind the one sector that
is written, and with one byte at the start of a sector the next one is set to
zero. -/
theorem not_writesExactly_one_byte :
    ¬WritesExactly quietDrive (fun n => UInt8.ofNat n) 0 0 512 1 ∧
      ¬WritesExactly quietDrive (fun n => UInt8.ofNat n) 0 0 0 1 := by
  constructor
  · intro h
    have hfit := (writesExactly_pio_iff rfl (by decide) (by decide) (by decide) (by decide)).mp h
      (quietDrive_writeSucceeds (by decide))
    unfold WriteFits at hfit
    dsimp only at hfit
    rw [if_pos (by decide), ChunksFit, if_neg (by decide)] at hfit
    exact absurd hfit.fits (by decide)
  · intro h
    have hfit := (writesExactly_pio_iff rfl (by decide) (by decide) (by decide) (by decide)).mp h
      (quietDrive_writeSucceeds (by decide))
    unfold WriteFits at hfit
    dsimp only at hfit
    rw [if_pos (by decide), ChunksFit, if_neg (by decide)] at hfit
    exact absurd (hfit.even (by decide)) (by decide)

end VkKernel.Ata
