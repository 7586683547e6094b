import VkKernel.Lib.StoreLog
import VkKernel.Strings

/-!
# Relative paths

`syscall_open`, `syscall_unlink` and `syscall_mkdir` put the working directory in front of a path.
`strncat` does not end the string when it has copied as much as it may, so the second one goes on
through what was in the memory before.
-/

namespace VkKernel
open ByteMemory StoreLog

/-- The loop of `strncpy`, from the position `dest` on. -/
def strncpyLoop : ℕ → List UInt8 → ℕ → Logged → Logged
  | 0, _, dest, s => s.put dest 0
  | n + 1, src, dest, s =>
    let s := s.put dest (src.headD 0)
    if src.headD 0 ≠ 0 then strncpyLoop n src.tail (dest + 1) s else s.put (dest + 1) 0

def strncpy (dest : ℕ) (src : List UInt8) (n : ℕ) (s : Logged) : Logged := strncpyLoop n src dest s

/-- `while(*pos) pos++`. A string that does not end has no end. -/
def strEnd (m : Mem) : ℕ → ℕ → Option ℕ
  | 0, _ => none
  | fuel + 1, pos => if m pos = 0 then some pos else strEnd m fuel (pos + 1)

def strncatLoop : ℕ → List UInt8 → ℕ → Logged → Logged
  | 0, _, _, s => s
  | n + 1, src, pos, s =>
    let s := s.put pos (src.headD 0)
    if src.headD 0 = 0 then s else strncatLoop n src.tail (pos + 1) s

def strncat (dest : ℕ) (src : List UInt8) (n : ℕ) (s : Logged) : Option Logged :=
  (strEnd s.mem (2 ^ 32 - dest) dest).map fun pos => strncatLoop n src pos s

/-- `/` -/
def slashString : List UInt8 := [47]

/-- The path that `syscall_open` makes of a relative one, in memory from `kmalloc` at `path`. -/
def syscallOpenPath (currentDir opath : List UInt8) (path : ℕ) (s : Logged) : Option Logged :=
  let len := opath.length
  let dirlen := currentDir.length
  let s := strncpy path currentDir dirlen s
  (strncat path slashString 1 s).bind fun s =>
    (strncat path opath len s).map fun s => s.put (path + len + dirlen + 1) 0

/-- The same lines of `syscall_unlink`. -/
def syscallUnlinkPath := syscallOpenPath

/-- The same lines of `syscall_mkdir`. -/
def syscallMkdirPath := syscallOpenPath

/-- The system calls pass on the working directory, a slash and the path, and have stored to the
allocated bytes only. -/
def Resolves (currentDir opath : List UInt8) (path : ℕ) (r : Option Logged) : Prop :=
  ∃ s, r = some s ∧ HasString s.mem path (currentDir ++ slashString ++ opath) ∧
    ∀ x ∈ s.log, path ≤ x ∧ x < path + (opath.length + currentDir.length + 2)

/-- What the byte behind the slash has to be. -/
def StaleOk (opath : List UInt8) (m : Mem) (a : ℕ) : Prop :=
  if opath = [] then ∃ x, a ≤ x ∧ x < 2 ^ 32 ∧ m x = 0
  else m a = 0 ∨ (m (a + 1) = 0 ∧ ∀ c ∈ opath, c = m a)

/-! ## The string functions -/

section Strings
variable {src : List UInt8} {s : Logged}

/-- `strncpy` of a whole string. -/
theorem strncpyLoop_eq (h : ∀ c ∈ src, c ≠ 0) (dest : ℕ) (s : Logged) :
    strncpyLoop src.length src dest s = (s.puts dest src).put (dest + src.length) 0 := by
  induction src generalizing dest s with
  | nil => rfl
  | cons c src ih =>
    rw [List.length_cons, strncpyLoop]
    have hc : c ≠ 0 := h c List.mem_cons_self
    simp only [List.headD_cons, List.tail_cons, ne_eq, hc, not_false_eq_true, if_true]
    rw [ih (fun d hd => h d (List.mem_cons_of_mem _ hd)), Logged.puts, Nat.add_right_comm, Nat.add_assoc]

/-- `strncat` of a whole string stores no zero. -/
theorem strncatLoop_eq (h : ∀ c ∈ src, c ≠ 0) (pos : ℕ) (s : Logged) :
    strncatLoop src.length src pos s = s.puts pos src := by
  induction src generalizing pos s with
  | nil => rfl
  | cons c src ih =>
    rw [List.length_cons, strncatLoop]
    have hc : c ≠ 0 := h c List.mem_cons_self
    simp only [List.headD_cons, List.tail_cons, hc, if_false]
    rw [ih (fun d hd => h d (List.mem_cons_of_mem _ hd)), Logged.puts]

/-- The end is the first zero byte. -/
theorem strEnd_eq_some_iff {m : Mem} {fuel pos e : ℕ} :
    strEnd m fuel pos = some e ↔ pos ≤ e ∧ e < pos + fuel ∧ m e = 0 ∧ ∀ x, pos ≤ x → x < e → m x ≠ 0 := by
  induction fuel generalizing pos with
  | zero =>
    simp only [strEnd, reduceCtorEq, false_iff]
    omega
  | succ fuel ih =>
    rw [strEnd]
    by_cases h0 : m pos = 0
    · rw [if_pos h0, Option.some_inj]
      constructor
      · intro h
        subst h
        exact ⟨le_rfl, by omega, h0, fun x hx hx' => by omega⟩
      · intro h
        by_contra hne
        exact h.2.2.2 pos le_rfl (by omega) h0
    · rw [if_neg h0, ih]
      constructor
      · intro h
        refine ⟨by omega, by omega, h.2.2.1, fun x hx hx' => ?_⟩
        by_cases hxp : x = pos
        · rw [hxp]
          exact h0
        · exact h.2.2.2 x (by omega) hx'
      · intro h
        have hne : pos ≠ e := fun heq => h0 (heq ▸ h.2.2.1)
        exact ⟨by omega, by omega, h.2.2.1, fun x hx hx' => h.2.2.2 x (by omega) hx'⟩

end Strings

/-! ## The path -/

section Path
variable {dir opath : List UInt8} {path e : ℕ} {m : Mem}

/-- The working directory and the slash. -/
def withSlash (dir : List UInt8) (path : ℕ) (m : Mem) : Logged :=
  (((Logged.start m).puts path dir).put (path + dir.length) 0).puts (path + dir.length) slashString

theorem withSlash_out {x : ℕ} (h : x < path ∨ path + dir.length + 1 ≤ x) : (withSlash dir path m).mem x = m x := by
  have hlength : slashString.length = 1 := rfl
  unfold withSlash
  rw [Logged.puts_mem_of_out (by omega), Logged.put_mem_of_ne (by omega), Logged.puts_mem_of_out (by omega)]
  rfl

theorem withSlash_dir {i : ℕ} (h : i < dir.length) : (withSlash dir path m).mem (path + i) = dir.getD i 0 := by
  have hlength : slashString.length = 1 := rfl
  unfold withSlash
  rw [Logged.puts_mem_of_out (by omega), Logged.put_mem_of_ne (by omega), Logged.puts_mem_of_in h]

theorem withSlash_slash : (withSlash dir path m).mem (path + dir.length) = 47 := by
  unfold withSlash
  exact Logged.puts_mem_of_in (i := 0) Nat.one_pos

theorem mem_log_withSlash {x : ℕ} : x ∈ (withSlash dir path m).log ↔ path ≤ x ∧ x ≤ path + dir.length := by
  have hlength : slashString.length = 1 := rfl
  have hstart : x ∉ (Logged.start m).log := List.not_mem_nil
  unfold withSlash
  rw [Logged.mem_log_puts, Logged.mem_log_put, Logged.mem_log_puts, hlength]
  simp only [hstart, or_false]
  omega

/-- The first `strncat` finds the end of the working directory. -/
theorem strncat_slash (hdir : ∀ c ∈ dir, c ≠ 0) (hsize : path + dir.length < 2 ^ 32) :
    strncat path slashString 1 (strncpy path dir dir.length (Logged.start m)) = some (withSlash dir path m) := by
  have hend : strEnd (strncpy path dir dir.length (Logged.start m)).mem (2 ^ 32 - path) path =
      some (path + dir.length) := by
    rw [strEnd_eq_some_iff]
    unfold strncpy
    rw [strncpyLoop_eq hdir]
    refine ⟨Nat.le_add_right _ _, by omega, Logged.put_mem_self _ _ _, fun x hx hx' => ?_⟩
    obtain ⟨i, rfl⟩ := Nat.exists_eq_add_of_le hx
    have hi : i < dir.length := by omega
    rw [Logged.put_mem_of_ne (by omega), Logged.puts_mem_of_in hi, List.getD_eq_getElem _ _ hi]
    exact hdir _ (List.getElem_mem hi)
  unfold strncat
  rw [hend, Option.map_some]
  have hslash : ∀ c ∈ slashString, c ≠ 0 := by
    intro c hc
    rw [List.mem_singleton.mp hc]
    decide
  have hcat := strncatLoop_eq hslash (path + dir.length) (strncpy path dir dir.length (Logged.start m))
  rw [show slashString.length = 1 from rfl] at hcat
  rw [hcat]
  unfold strncpy
  rw [strncpyLoop_eq hdir]
  rfl

/-- The second one goes on through the bytes that were there before. -/
theorem strEnd_withSlash (hdir : ∀ c ∈ dir, c ≠ 0) (hsize : path ≤ 2 ^ 32) :
    strEnd (withSlash dir path m).mem (2 ^ 32 - path) path = some e ↔
      path + dir.length + 1 ≤ e ∧ e < 2 ^ 32 ∧ m e = 0 ∧ ∀ x, path + dir.length + 1 ≤ x → x < e → m x ≠ 0 := by
  have hnonzero : ∀ x, path ≤ x → x < path + dir.length + 1 → (withSlash dir path m).mem x ≠ 0 := by
    intro x hx hx'
    obtain ⟨i, rfl⟩ := Nat.exists_eq_add_of_le hx
    by_cases hi : i < dir.length
    · rw [withSlash_dir hi, List.getD_eq_getElem _ _ hi]
      exact hdir _ (List.getElem_mem hi)
    · rw [show i = dir.length by omega, withSlash_slash]
      decide
  rw [strEnd_eq_some_iff]
  constructor
  · intro h
    have hbehind : path + dir.length + 1 ≤ e := by
      by_contra hlt
      exact hnonzero e h.1 (by omega) h.2.2.1
    refine ⟨hbehind, by omega, ?_, fun x hx hx' => ?_⟩
    · rw [← withSlash_out (m := m) (.inr hbehind)]
      exact h.2.2.1
    · rw [← withSlash_out (m := m) (.inr hx)]
      exact h.2.2.2 x (by omega) hx'
  · intro h
    refine ⟨by omega, by omega, ?_, fun x hx hx' => ?_⟩
    · rw [withSlash_out (.inr h.1)]
      exact h.2.2.1
    · by_cases hlt : x < path + dir.length + 1
      · exact hnonzero x hx hlt
      · rw [withSlash_out (.inr (by omega))]
        exact h.2.2.2 x (by omega) hx'

/-- The path with its last store, when the end is found at `e`. -/
theorem syscallOpenPath_eq (hdir : ∀ c ∈ dir, c ≠ 0) (hpath : ∀ c ∈ opath, c ≠ 0)
    (hsize : path + (opath.length + dir.length + 2) ≤ 2 ^ 32) :
    syscallOpenPath dir opath path (Logged.start m) =
      (strEnd (withSlash dir path m).mem (2 ^ 32 - path) path).map fun e =>
        ((withSlash dir path m).puts e opath).put (path + opath.length + dir.length + 1) 0 := by
  unfold syscallOpenPath
  dsimp only
  rw [strncat_slash hdir (by omega), Option.bind_some]
  unfold strncat
  rw [Option.map_map]
  congr 1
  funext e
  rw [Function.comp_apply, strncatLoop_eq hpath]

/-- What stands where the path belongs. -/
theorem path_byte {i : ℕ} (he : path + dir.length + 1 ≤ e) (hi : i < opath.length) :
    (((withSlash dir path m).puts e opath).put (path + opath.length + dir.length + 1) 0).mem
      (path + dir.length + 1 + i) = if path + dir.length + 1 + i < e then m (path + dir.length + 1 + i)
        else opath.getD (path + dir.length + 1 + i - e) 0 := by
  rw [Logged.put_mem_of_ne (by omega)]
  split_ifs with hlt
  · rw [Logged.puts_mem_of_out (.inl hlt), withSlash_out (.inr (by omega))]
  · obtain ⟨j, hj⟩ := Nat.exists_eq_add_of_le (not_lt.mp hlt)
    rw [hj, Logged.puts_mem_of_in (by omega), Nat.add_sub_cancel_left]

/-- The result for the end `e`: only the bytes of the path can be wrong. -/
theorem resolves_some_iff (he : path + dir.length + 1 ≤ e) :
    Resolves dir opath path (some
      (((withSlash dir path m).puts e opath).put (path + opath.length + dir.length + 1) 0)) ↔
    (∀ i < opath.length, (if path + dir.length + 1 + i < e then m (path + dir.length + 1 + i)
        else opath.getD (path + dir.length + 1 + i - e) 0) = opath.getD i 0) ∧
      (opath = [] ∨ e ≤ path + dir.length + 2) := by
  have hslash : slashString.length = 1 := rfl
  have htotal : (dir ++ slashString ++ opath).length = dir.length + 1 + opath.length := by
    rw [List.length_append, List.length_append, hslash]
  constructor
  · rintro ⟨s, hs, hstring, hlog⟩
    obtain rfl := Option.some.inj hs
    refine ⟨fun i hi => ?_, ?_⟩
    · have hbyte := hstring (dir.length + 1 + i) (by omega)
      rw [← Nat.add_assoc, ← Nat.add_assoc, path_byte he hi] at hbyte
      rw [hbyte, List.getD_append_right _ _ _ _ (by rw [List.length_append, hslash]; omega)]
      congr 1
      rw [List.length_append, hslash]
      omega
    · by_contra hout
      rw [not_or] at hout
      have hpos := List.length_pos_iff.mpr hout.1
      have hlast := hlog (e + opath.length - 1) (by
        rw [Logged.mem_log_put, Logged.mem_log_puts]
        exact .inr (.inl (by omega)))
      omega
  · intro h
    refine ⟨_, rfl, fun i hi => ?_, fun x hx => ?_⟩
    · rw [htotal] at hi
      by_cases hdir : i < dir.length
      · rw [Logged.put_mem_of_ne (by omega), Logged.puts_mem_of_out (by omega), withSlash_dir hdir,
          List.append_assoc, List.getD_append _ _ _ _ hdir]
      · by_cases hlow : i < dir.length + 1
        · rw [Logged.put_mem_of_ne (by omega), Logged.puts_mem_of_out (by omega),
            show i = dir.length by omega, withSlash_slash, List.append_assoc,
            List.getD_append_right _ _ _ _ le_rfl, Nat.sub_self]
          rfl
        · obtain ⟨j, rfl⟩ := Nat.exists_eq_add_of_le (not_lt.mp hlow)
          have hgetD : (dir ++ slashString ++ opath).getD (dir.length + 1 + j) 0 = opath.getD j 0 := by
            rw [List.getD_append_right _ _ _ _ (by rw [List.length_append, hslash]; omega)]
            congr 1
            rw [List.length_append, hslash]
            omega
          rw [hgetD]
          by_cases hj : j < opath.length
          · rw [← Nat.add_assoc, ← Nat.add_assoc, path_byte he hj]
            exact h.1 j hj
          · rw [show path + (dir.length + 1 + j) = path + opath.length + dir.length + 1 by omega,
              Logged.put_mem_self, List.getD_eq_default _ _ (by omega)]
    · rw [Logged.mem_log_put, Logged.mem_log_puts, mem_log_withSlash] at hx
      rcases h.2 with hnil | hle
      · rw [hnil, List.length_nil] at hx ⊢
        omega
      · omega

end Path

/-- The path is the working directory, a slash and the given path exactly if the memory had a zero
byte behind the slash, or one more character of a path of one character only. -/
theorem relative_path_iff {f : List UInt8 → List UInt8 → ℕ → Logged → Option Logged}
    (hf : f ∈ [syscallOpenPath, syscallUnlinkPath, syscallMkdirPath]) {dir opath : List UInt8}
    (hdir : ∀ c ∈ dir, c ≠ 0) (hpath : ∀ c ∈ opath, c ≠ 0) {path : ℕ}
    (hsize : path + (opath.length + dir.length + 2) ≤ 2 ^ 32) (m : Mem) :
    Resolves dir opath path (f dir opath path (Logged.start m)) ↔ StaleOk opath m (path + dir.length + 1) := by
  have hsame : f = syscallOpenPath := by
    rcases List.mem_cons.mp hf with h | h
    · exact h
    · rcases List.mem_cons.mp h with h | h
      · exact h
      · exact List.mem_singleton.mp h
  rw [hsame, syscallOpenPath_eq hdir hpath hsize]
  have hend := fun e => @strEnd_withSlash dir path e m hdir (by omega)
  unfold StaleOk
  constructor
  · intro h
    cases he : strEnd (withSlash dir path m).mem (2 ^ 32 - path) path with
    | none =>
      rw [he] at h
      obtain ⟨s, hs, -⟩ := h
      cases hs
    | some e =>
      obtain ⟨hle, hlt, hzero, hbefore⟩ := (hend e).mp he
      rw [he, Option.map_some, resolves_some_iff hle] at h
      by_cases hnil : opath = []
      · rw [if_pos hnil]
        exact ⟨e, hle, hlt, hzero⟩
      · rw [if_neg hnil]
        have hclose : e ≤ path + dir.length + 2 := h.2.resolve_left hnil
        by_cases hfirst : e = path + dir.length + 1
        · exact .inl (hfirst ▸ hzero)
        · -- one byte stays in front of the path, and is its first character
          have hone : e = path + dir.length + 1 + 1 := by omega
          refine .inr ⟨hone ▸ hzero, ?_⟩
          have hall : ∀ i < opath.length, opath.getD i 0 = m (path + dir.length + 1) := by
            intro i
            induction i with
            | zero =>
              intro hi
              have hbyte := h.1 0 hi
              rw [Nat.add_zero, if_pos (by omega)] at hbyte
              exact hbyte.symm
            | succ i ih =>
              intro hi
              have hbyte := h.1 (i + 1) hi
              rw [if_neg (by omega), show path + dir.length + 1 + (i + 1) - e = i by omega] at hbyte
              rw [← hbyte]
              exact ih (by omega)
          intro c hc
          obtain ⟨i, hi, rfl⟩ := List.getElem_of_mem hc
          rw [← List.getD_eq_getElem _ 0 hi]
          exact hall i hi
  · intro h
    by_cases hnil : opath = []
    · rw [if_pos hnil] at h
      have hfind : ∃ e, strEnd (withSlash dir path m).mem (2 ^ 32 - path) path = some e := by
        have hex : ∃ x, path + dir.length + 1 ≤ x ∧ x < 2 ^ 32 ∧ m x = 0 := h
        classical
        refine ⟨Nat.find hex, (hend _).mpr ?_⟩
        obtain ⟨hle, hlt, hzero⟩ := Nat.find_spec hex
        refine ⟨hle, hlt, hzero, fun x hx hx' hzero' => ?_⟩
        exact Nat.find_min hex hx' ⟨hx, hx'.trans hlt, hzero'⟩
      obtain ⟨e, he⟩ := hfind
      rw [he, Option.map_some, resolves_some_iff ((hend e).mp he).1]
      refine ⟨fun i hi => ?_, .inl hnil⟩
      rw [hnil] at hi
      exact absurd hi (Nat.not_lt_zero i)
    · rw [if_neg hnil] at h
      have hpos := List.length_pos_iff.mpr hnil
      by_cases hzero : m (path + dir.length + 1) = 0
      · have he := (hend (path + dir.length + 1)).mpr ⟨le_rfl, by omega, hzero, fun x hx hx' => by omega⟩
        rw [he, Option.map_some, resolves_some_iff le_rfl]
        refine ⟨fun i hi => ?_, .inr (by omega)⟩
        rw [if_neg (by omega), Nat.add_sub_cancel_left]
      · obtain ⟨hnext, hall⟩ := h.resolve_left hzero
        have he := (hend (path + dir.length + 1 + 1)).mpr ⟨by omega, by omega, hnext, fun x hx hx' => by
          rw [show x = path + dir.length + 1 by omega]
          exact hzero⟩
        have hgetD : ∀ i < opath.length, opath.getD i 0 = m (path + dir.length + 1) := by
          intro i hi
          rw [List.getD_eq_getElem _ _ hi]
          exact hall _ (List.getElem_mem hi)
        rw [he, Option.map_some, resolves_some_iff (by omega)]
        refine ⟨fun i hi => ?_, .inr (by omega)⟩
        rw [hgetD i hi]
        split_ifs with hlt
        · rw [show path + dir.length + 1 + i = path + dir.length + 1 by omega]
        · exact hgetD _ (by omega)

/-- The path `a` in the directory `/`, in zero memory. -/
theorem relative_path_zero : StaleOk [97] (fun _ => 0) (0x1000 + [(47 : UInt8)].length + 1) ∧
    Resolves [47] [97] 0x1000 (syscallOpenPath [47] [97] 0x1000 (Logged.start fun _ => 0)) := by
  have hstale : StaleOk [97] (fun _ => 0) (0x1000 + [(47 : UInt8)].length + 1) := by
    rw [StaleOk, if_neg (List.cons_ne_nil _ _)]
    exact .inl rfl
  refine ⟨hstale, (relative_path_iff List.mem_cons_self ?_ ?_ (by norm_num) _).mpr hstale⟩
  · intro c hc
    rw [List.mem_singleton.mp hc]
    decide
  · intro c hc
    rw [List.mem_singleton.mp hc]
    decide

/-- One byte of the memory is left over from before. -/
def staleByte : Mem := fun x => if x = 0x1002 then 120 else 0

/-- The same with the byte `x` behind the slash: the calls pass on `//x`. -/
theorem not_relative_path_stale :
    (∃ s, syscallOpenPath [47] [97] 0x1000 (Logged.start staleByte) = some s ∧
      HasString s.mem 0x1000 [47, 47, 120]) ∧
    ¬Resolves [47] [97] 0x1000 (syscallOpenPath [47] [97] 0x1000 (Logged.start staleByte)) := by
  have hdir : ∀ c ∈ [(47 : UInt8)], c ≠ 0 := fun c hc => by
    rw [List.mem_singleton.mp hc]
    decide
  have hpath : ∀ c ∈ [(97 : UInt8)], c ≠ 0 := fun c hc => by
    rw [List.mem_singleton.mp hc]
    decide
  have hopen := syscallOpenPath_eq (m := staleByte) hdir hpath (show 0x1000 + (1 + 1 + 2) ≤ 2 ^ 32 by norm_num)
  have hend : strEnd (withSlash [47] 0x1000 staleByte).mem (2 ^ 32 - 0x1000) 0x1000 = some 0x1003 := by
    rw [strEnd_withSlash hdir (by norm_num)]
    refine ⟨by simp, by norm_num, by decide, fun x hx hx' => ?_⟩
    simp only [List.length_cons, List.length_nil] at hx
    rw [show x = 0x1002 by omega]
    decide
  rw [hend, Option.map_some] at hopen
  have hstring : HasString (((withSlash [47] 0x1000 staleByte).puts 0x1003 [97]).put
      (0x1000 + [(97 : UInt8)].length + [(47 : UInt8)].length + 1) 0).mem 0x1000 [47, 47, 120] := by
    intro i hi
    simp only [List.length_cons, List.length_nil] at hi ⊢
    by_cases h3 : i = 3
    · rw [h3, Logged.put_mem_self]
      rfl
    · rw [Logged.put_mem_of_ne (by omega), Logged.puts_mem_of_out (by omega)]
      interval_cases i
      · exact withSlash_dir (by simp)
      · exact withSlash_slash
      · rw [withSlash_out (by simp)]
        rfl
      · exact absurd rfl h3
  refine ⟨⟨_, hopen, hstring⟩, fun hresolves => ?_⟩
  rw [hopen] at hresolves
  obtain ⟨s, hs, hright, -⟩ := hresolves
  obtain rfl := Option.some.inj hs
  have hbyte := (hstring 2 (by simp)).symm.trans (hright 2 (by simp [slashString]))
  exact absurd hbyte (by decide)

end VkKernel
