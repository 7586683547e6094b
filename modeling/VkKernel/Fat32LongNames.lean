import VkKernel.Fat32Dir

/-!
# Long names on a FAT32 volume

`fat32fs_create_dirent` stores a name in parts of 13 characters, the last part first, and
`fat32_open` puts the parts together again. Behind the end of the name the last part holds
whatever memory holds there; a name that fills its last part ends in the zero byte that
`fat32_open` puts behind the parts.
-/

namespace VkKernel.Fat32
open ByteMemory PackedStruct

/-! ## The writer -/

/-- `needed_lfns` -/
def neededLfns (nameLen : ℕ) : ℕ := nameLen / 13 + if nameLen % 13 ≠ 0 then 1 else 0

def lfnOrder (needed j : ℕ) : UInt8 := UInt8.ofNat (if j ≠ 0 then needed - j else needed ||| 0x40)

/-- The loop over one of the fields `firstn`, `nextn` and `lastn`, at `base`. -/
def storeChars (name : Mem) (nameOffset base : ℕ) : ℕ → Mem → Mem
  | 0, e => e
  | fff + 1, e =>
    storeLE (storeChars name nameOffset base fff e) (base + 2 * fff) 2
      (name (fff + nameOffset)).toNat

/-- One `lfn_entry_t`. The member `type` keeps its value. -/
def lfnEntry (name : Mem) (checksum : UInt8) (needed j : ℕ) (e : Mem) : Mem :=
  let currNameOffset := (needed - j - 1) * 13
  let e := Function.update e 0 (lfnOrder needed j)
  let e := Function.update e 11 attrLfn
  let e := storeLE e 26 2 0
  let e := Function.update e 13 checksum
  let e := storeChars name currNameOffset 1 5 e
  let e := storeChars name (currNameOffset + 5) 14 6 e
  storeChars name (currNameOffset + 11) 28 2 e

/-- The loop over the entries, `dirents[i]` being the first one. -/
def writeLfns (name : Mem) (checksum : UInt8) (needed i : ℕ) : ℕ → ℕ → Mem → Mem
  | 0, _, m => m
  | n + 1, j, m =>
    writeLfns name checksum needed i n (j + 1) fun x =>
      if 32 * (i + j) ≤ x ∧ x < 32 * (i + j) + 32 then
        lfnEntry name checksum needed j (window m (32 * (i + j))) (x - 32 * (i + j))
      else m x

/-- The entries that `fat32fs_create_dirent` writes for a name. -/
def createLfns (name : Mem) (nameLen : ℕ) (checksum : UInt8) (i : ℕ) (m : Mem) : Mem :=
  writeLfns name checksum (neededLfns nameLen) i (neededLfns nameLen) 0 m

/-- A string in memory, with any bytes behind it. -/
structure IsString (m : Mem) (name : List UInt8) : Prop where
  ne_zero : ∀ c ∈ name, c ≠ 0
  eq : ∀ k ≤ name.length, m k = cstring name k

theorem isString_cstring {name : List UInt8} (h : ∀ c ∈ name, c ≠ 0) :
    IsString (cstring name) name :=
  ⟨h, fun _ _ => rfl⟩

/-! ## One part -/

/-- An entry that `fat32_open` takes for a part of a long name. -/
structure IsPart (name : Mem) (needed j : ℕ) (e : Mem) : Prop where
  order : e 0 = lfnOrder needed j
  attributes : attributes e = attrLfn
  chars : ∀ k < 13, lfnChar e k = name ((needed - j - 1) * 13 + k)

theorem storeChars_apply (name : Mem) (nameOffset base n : ℕ) (e : Mem) (x : ℕ) :
    storeChars name nameOffset base n e x =
      if base ≤ x ∧ x < base + 2 * n then
        if (x - base) % 2 = 0 then name ((x - base) / 2 + nameOffset) else 0
      else e x := by
  induction n with
  | zero =>
    rw [storeChars, if_neg (by omega)]
  | succ n ih =>
    rw [storeChars]
    by_cases hx : x < base + 2 * n ∨ base + 2 * n + 2 ≤ x
    · rw [storeLE_apply_of_lt hx, ih]
      congr 1
      apply propext
      omega
    · rw [if_pos (by omega)]
      have hcases : x = base + 2 * n ∨ x = base + 2 * n + 1 := by omega
      rcases hcases with rfl | rfl
      · -- the low byte
        rw [if_pos (by omega), storeLE, if_pos (by omega)]
        simp
      · -- the high byte of a character is 0
        rw [if_neg (by omega), storeLE, if_pos (by omega)]
        have hlt := (name (n + nameOffset)).toNat_lt
        rw [Nat.add_sub_cancel_left, Nat.pow_one, Nat.div_eq_of_lt hlt]
        rfl

theorem isPart_lfnEntry (name : Mem) (checksum : UInt8) (needed j : ℕ) (e : Mem) :
    IsPart name needed j (lfnEntry name checksum needed j e) where
  order := by
    unfold lfnEntry
    rw [storeChars_apply, if_neg (by omega), storeChars_apply, if_neg (by omega), storeChars_apply,
      if_neg (by omega), Function.update_of_ne (by omega), storeLE_apply_of_lt (by omega),
      Function.update_of_ne (by omega), Function.update_self]
  attributes := by
    unfold attributes lfnEntry
    rw [storeChars_apply, if_neg (by omega), storeChars_apply, if_neg (by omega), storeChars_apply,
      if_neg (by omega), Function.update_of_ne (by omega), storeLE_apply_of_lt (by omega),
      Function.update_self]
  chars := by
    intro k hk
    unfold lfnChar lfnEntry
    split_ifs with h5 h11
    · rw [storeChars_apply, if_neg (by omega), storeChars_apply, if_neg (by omega),
        storeChars_apply, if_pos (by omega), if_pos (by omega)]
      congr 1
      omega
    · rw [storeChars_apply, if_neg (by omega), storeChars_apply, if_pos (by omega),
        if_pos (by omega)]
      congr 1
      omega
    · rw [storeChars_apply, if_pos (by omega), if_pos (by omega)]
      congr 1
      omega

theorem IsPart.congr {name : Mem} {needed j : ℕ} {e e' : Mem} (h : IsPart name needed j e)
    (he : ∀ b < 32, e' b = e b) : IsPart name needed j e' where
  order := by
    rw [he 0 (by omega)]
    exact h.order
  attributes := by
    unfold Fat32.attributes
    rw [he 11 (by omega)]
    exact h.attributes
  chars := by
    intro k hk
    rw [← h.chars k hk]
    unfold lfnChar
    split_ifs
    · exact he _ (by omega)
    · exact he _ (by omega)
    · exact he _ (by omega)

/-- The order bytes of a name with at most 63 parts: none ends the directory or marks a
deleted entry, and each gives its number back. -/
theorem lfnOrder_spec {needed j : ℕ} (hj : j < needed) (hn : needed ≤ 63) :
    lfnOrder needed j ≠ 0 ∧ lfnOrder needed j ≠ deletedMark ∧
      ∀ e : Mem, e 0 = lfnOrder needed j → lfnNbr e = needed - j := by
  have hfirst : ∀ n < 64, 0 < n → UInt8.ofNat (n ||| 0x40) ≠ 0 ∧ UInt8.ofNat (n ||| 0x40) ≠ deletedMark ∧
      (UInt8.ofNat (n ||| 0x40)).toNat &&& 0x40 = 0x40 ∧
      (UInt8.ofNat (n ||| 0x40)).toNat ^^^ 0x40 = n := by decide
  have hrest : ∀ n < 64, 0 < n → UInt8.ofNat n ≠ 0 ∧ UInt8.ofNat n ≠ deletedMark ∧
      (UInt8.ofNat n).toNat &&& 0x40 ≠ 0x40 ∧ (UInt8.ofNat n).toNat = n := by decide
  unfold lfnOrder
  by_cases h0 : j = 0
  · obtain ⟨h1, h2, h3, h4⟩ := hfirst needed (by omega) (by omega)
    rw [if_neg (not_not.mpr h0)]
    refine ⟨h1, h2, ?_⟩
    intro e he
    rw [lfnNbr, he, if_pos h3, h4, h0, Nat.sub_zero]
  · obtain ⟨h1, h2, h3, h4⟩ := hrest (needed - j) (by omega) (by omega)
    rw [if_pos h0]
    refine ⟨h1, h2, ?_⟩
    intro e he
    rw [lfnNbr, he, if_neg h3, h4]

/-! ## The run of parts -/

theorem writeLfns_apply {name : Mem} {checksum : UInt8} {needed i n j x : ℕ} {m : Mem}
    (h : x < 32 * (i + j) ∨ 32 * (i + j + n) ≤ x) :
    writeLfns name checksum needed i n j m x = m x := by
  induction n generalizing j m with
  | zero => rfl
  | succ n ih =>
    rw [writeLfns, ih (by omega)]
    exact if_neg (by omega)

theorem isPart_writeLfns {name : Mem} {checksum : UInt8} {needed i n j k : ℕ} {m : Mem}
    (hk : k < n) :
    IsPart name needed (j + k) (window (writeLfns name checksum needed i n j m) (32 * (i + (j + k)))) := by
  induction n generalizing j k m with
  | zero => omega
  | succ n ih =>
    rw [writeLfns]
    cases k with
    | zero =>
      -- later parts do not touch the first one
      apply (isPart_lfnEntry name checksum needed j (window m (32 * (i + j)))).congr
      intro b hb
      rw [window]
      simp only [Nat.add_zero]
      rw [writeLfns_apply (by omega), if_pos (by omega), Nat.add_sub_cancel_left]
    | succ k =>
      have hpart := ih (j := j + 1) (k := k) (by omega)
        (m := fun x => if 32 * (i + j) ≤ x ∧ x < 32 * (i + j) + 32 then
          lfnEntry name checksum needed j (window m (32 * (i + j))) (x - 32 * (i + j)) else m x)
      rwa [Nat.add_assoc, Nat.add_comm 1] at hpart

/-- The parts behind the first `j` ones are still to come. -/
structure Assembled (name : Mem) (needed j : ℕ) (b : NameBuffer) : Prop where
  size : b.size = 13 * needed + 1
  stop : b.chars (13 * needed) = 0
  chars : ∀ p, 13 * (needed - j) ≤ p → p < 13 * needed → b.chars p = name p

theorem assembled_newBuffer (name junk : Mem) {needed : ℕ} {e : Mem} (he : lfnNbr e = needed) :
    Assembled name needed 0 (newBuffer junk e) where
  size := by rw [newBuffer, he]
  stop := by
    simp [newBuffer, he]
  chars := by
    intro p h1 h2
    omega

theorem Assembled.storeLfn {name : Mem} {needed j : ℕ} {b : NameBuffer} {e : Mem}
    (h : Assembled name needed j b) (hj : j < needed) (he : lfnNbr e = needed - j)
    (hpart : IsPart name needed j e) :
    ∃ b', storeLfn b e = some b' ∧ Assembled name needed (j + 1) b' := by
  have hsize := h.size
  unfold Fat32.storeLfn
  rw [he, if_pos (by omega)]
  refine ⟨_, rfl, hsize, ?_, ?_⟩
  · dsimp only
    rw [if_neg (by omega)]
    exact h.stop
  · intro p h1 h2
    dsimp only
    split_ifs with hin
    · rw [hpart.chars _ (by omega)]
      congr 1
      omega
    · exact h.chars p (by omega) h2

/-- The loop of `fat32_open` over the rest of the parts. -/
theorem openFrom_parts {name junk key : Mem} {needed : ℕ} (hn : needed ≤ 63) {n i j fuel : ℕ} {m : Mem}
    {lfnName : Option NameBuffer} (hj : j + n = needed)
    (hparts : ∀ k < n, IsPart name needed (j + k) (window m (32 * (i + k))))
    (hbuf : (∃ b, lfnName = some b ∧ Assembled name needed j b) ∨ lfnName = none ∧ j = 0 ∧ 0 < n) :
    ∃ b, openFrom m key junk (n + fuel) i lfnName = openFrom m key junk fuel (i + n) (some b) ∧
      Assembled name needed needed b := by
  induction n generalizing i j lfnName with
  | zero =>
    rcases hbuf with ⟨b, rfl, hb⟩ | ⟨_, _, h⟩
    · refine ⟨b, ?_, ?_⟩
      · rw [Nat.zero_add, Nat.add_zero]
      · rw [← hj, Nat.add_zero]
        rwa [← hj, Nat.add_zero] at hb
    · omega
  | succ n ih =>
    have hpart := hparts 0 (by omega)
    rw [Nat.add_zero, Nat.add_zero] at hpart
    obtain ⟨h1, h2, h3⟩ := lfnOrder_spec (show j < needed by omega) hn
    have hnbr := h3 _ hpart.order
    rw [← hpart.order] at h1 h2
    have hb : Assembled name needed j (lfnName.getD (newBuffer junk (window m (32 * i)))) := by
      rcases hbuf with ⟨b, rfl, hb⟩ | ⟨rfl, rfl, _⟩
      · exact hb
      · exact assembled_newBuffer name junk hnbr
    obtain ⟨b', hstore, hb'⟩ := hb.storeLfn (by omega) hnbr hpart
    have hrest : ∀ k < n, IsPart name needed (j + 1 + k) (window m (32 * (i + 1 + k))) := by
      intro k hk
      have h := hparts (k + 1) (by omega)
      rwa [Nat.add_comm k 1, ← Nat.add_assoc, ← Nat.add_assoc] at h
    obtain ⟨c, hrun, hc⟩ := @ih (i + 1) (j + 1) (some b') (by omega) hrest (Or.inl ⟨b', rfl, hb'⟩)
    refine ⟨c, ?_, hc⟩
    rw [show n + 1 + fuel = n + fuel + 1 by omega, openFrom.eq_def]
    dsimp only
    rw [if_neg h1, if_neg h2, if_pos hpart.attributes, hstore]
    dsimp only
    rw [hrun, Nat.add_assoc, Nat.add_comm 1 n]

theorem neededLfns_eq (nameLen : ℕ) : neededLfns nameLen = (nameLen + 12) / 13 := by
  unfold neededLfns
  split_ifs with h
  · omega
  · omega

/-- Every name of 1 to 819 characters comes back from its parts. -/
theorem openFrom_createLfns (name : List UInt8) (text m key junk : Mem) (checksum : UInt8) (i fuel : ℕ)
    (hpos : 1 ≤ name.length) (hlen : name.length ≤ 819) (hname : IsString text name) :
    ∃ b, openFrom (createLfns text name.length checksum i m) key junk
        (neededLfns name.length + fuel) i none =
      openFrom (createLfns text name.length checksum i m) key junk fuel
        (i + neededLfns name.length) (some b) ∧
      neededLfns name.length = (name.length + 12) / 13 ∧
      (∀ j < neededLfns name.length,
        let e := window (createLfns text name.length checksum i m) (32 * (i + j))
        e 0 = lfnOrder (neededLfns name.length) j ∧ e 0 ≠ 0 ∧ e 0 ≠ deletedMark ∧
          attributes e = attrLfn) ∧
      name.length < b.size ∧ ∀ k ≤ name.length, b.chars k = cstring name k := by
  have hneeded := neededLfns_eq name.length
  have hparts : ∀ k < neededLfns name.length, IsPart text (neededLfns name.length) (0 + k)
      (window (createLfns text name.length checksum i m) (32 * (i + k))) := by
    intro k hk
    have hpart : IsPart text (neededLfns name.length) (0 + k)
        (window (createLfns text name.length checksum i m) (32 * (i + (0 + k)))) := isPart_writeLfns hk
    rwa [Nat.zero_add k] at hpart ⊢
  obtain ⟨b, hrun, hb⟩ := @openFrom_parts _ junk key _ (by omega) _ i _ fuel _ _ (Nat.zero_add _) hparts
    (Or.inr ⟨rfl, rfl, by omega⟩)
  refine ⟨b, hrun, hneeded, ?_, ?_, ?_⟩
  · intro j hj
    have hpart := hparts j hj
    rw [Nat.zero_add] at hpart
    obtain ⟨h0, hdel, _⟩ := lfnOrder_spec hj (by omega)
    rw [← hpart.order] at h0 hdel
    exact ⟨hpart.order, h0, hdel, hpart.attributes⟩
  · have := hb.size
    omega
  · intro k hk
    by_cases hend : k < 13 * neededLfns name.length
    · rw [hb.chars k (by omega) hend]
      exact hname.eq k hk
    · -- the name fills its last part
      have hk' : k = 13 * neededLfns name.length := by omega
      rw [hk', hb.stop, ← hk']
      have hkl : k = name.length := by omega
      rw [hkl]
      simp [cstring]

theorem openFrom_createLfns_full :
    ∃ b, openFrom (createLfns (cstring (List.replicate 13 97)) 13 0 2 fun _ => 0) (cstring [98])
        (fun _ => 7) (1 + 5) 2 none =
      openFrom (createLfns (cstring (List.replicate 13 97)) 13 0 2 fun _ => 0) (cstring [98])
        (fun _ => 7) 5 (2 + 1) (some b) ∧ 13 < b.size ∧
      ∀ k ≤ 13, b.chars k = cstring (List.replicate 13 97) k := by
  have h := openFrom_createLfns (List.replicate 13 97) (cstring (List.replicate 13 97)) (fun _ => 0)
    (cstring [98]) (fun _ => 7) 0 2 5 (by simp) (by simp) (isString_cstring (by simp))
  rw [List.length_replicate, show neededLfns 13 = 1 by rfl] at h
  obtain ⟨b, hrun, _, _, hsize, hchars⟩ := h
  exact ⟨b, hrun, hsize, hchars⟩

end VkKernel.Fat32
