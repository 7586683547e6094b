import VkKernel.Strings

/-!
# Mount points

`open_file` looks for the mount point that has the most characters in common
with a path. The path belongs to the longest mount point that is a prefix of it
in whole components.
-/

namespace VkKernel.Vfs
open ByteMemory

def slash : UInt8 := 47

/-- A `mount_point_t`, file systems being numbers. -/
structure MountPoint where
  path : List UInt8
  fs : ℕ
deriving DecidableEq, Repr

/-- An absolute path as a string. -/
structure IsPath (path : List UInt8) : Prop where
  absolute : path.head? = some slash
  nonzero : ∀ c ∈ path, c ≠ 0

/-- The list of mount points: the root first, and as many as
`current_mount_points` can count. -/
structure MountTable where
  root : MountPoint
  others : List MountPoint
  root_path : root.path = [slash]
  others_path : ∀ m ∈ others, IsPath m.path
  others_length : ∀ m ∈ others, 1 < m.path.length
  others_last : ∀ m ∈ others, m.path.getLast? ≠ some slash
  count_lt : others.length + 1 < 2 ^ 16

def MountTable.points (t : MountTable) : List MountPoint := t.root :: t.others

/-! ## `open_file` -/

/-- What `open_file` does with a path: it takes the root directory of the file
system, or calls `do_open_fs` with the pointer `path + start`. -/
inductive Opened
  | rootDir (m : MountPoint)
  | lookup (m : MountPoint) (start : ℕ)
deriving DecidableEq, Repr

/-- `strcfirst(current->path, path)`, with the 16-bit result. -/
def commonChars (path : List UInt8) (m : MountPoint) : ℕ :=
  strcfirst (cstring m.path) (cstring path) (m.path.length + 1) 0 % 2 ^ 16

/-- The loop over the mount points. -/
def findBest (path : List UInt8) : List MountPoint → MountPoint → ℕ → MountPoint
  | [], best, _ => best
  | m :: ms, best, chars =>
    let cc := commonChars path m
    if cc > chars then findBest path ms m cc else findBest path ms best chars

/-- `open_file` up to the lookup in the file system. -/
def openFile (t : MountTable) (path : List UInt8) : Opened :=
  if path.head? = some slash ∧ path.length = 1 then .rootDir t.root
  else
    let best := findBest path t.points t.root 0
    if path = best.path then .rootDir best else .lookup best best.path.length

/-! ## Component-wise prefixes -/

/-- The mount path is a prefix of the path in whole components. -/
def Covers (p path : List UInt8) : Prop := p = [slash] ∨ path = p ∨ p ++ [slash] <+: path

/-- The longest mount point that covers the path. -/
structure Longest (t : MountTable) (path : List UInt8) (m : MountPoint) : Prop where
  mem : m ∈ t.points
  covers : Covers m.path path
  longest : ∀ m' ∈ t.points, Covers m'.path path → m'.path.length ≤ m.path.length

/-- The path is looked up in the file system of the longest mount point that
covers it, from the end of the mount path on. -/
def ResolvesLongest (t : MountTable) (path : List UInt8) (r : Opened) : Prop :=
  ∃ m rest, Longest t path m ∧ path = m.path ++ rest ∧
    r = if rest = [] then .rootDir m else .lookup m m.path.length

/-- The mount points in front of `m` have fewer characters in common with the path
and those behind it not more. -/
def FirstMost (path : List UInt8) (ms : List MountPoint) (m : MountPoint) : Prop :=
  ∃ before after, ms = before ++ m :: after ∧
    (∀ x ∈ before, commonChars path x < commonChars path m) ∧
    ∀ x ∈ after, commonChars path x ≤ commonChars path m

section Best
variable {path : List UInt8} {ms : List MountPoint} {m m' : MountPoint}

/-- The loop keeps the mount point it has, or finds the first with more characters
than any other. -/
theorem findBest_spec (ms : List MountPoint) (best : MountPoint) (chars : ℕ) :
    (findBest path ms best chars = best ∧ ∀ x ∈ ms, commonChars path x ≤ chars) ∨
      (FirstMost path ms (findBest path ms best chars) ∧
        chars < commonChars path (findBest path ms best chars)) := by
  induction ms generalizing best chars with
  | nil => exact Or.inl ⟨rfl, by simp⟩
  | cons m ms ih =>
    rw [findBest]
    by_cases hm : commonChars path m > chars
    · rw [if_pos hm]
      right
      rcases ih m (commonChars path m) with ⟨hbest, hle⟩ | ⟨⟨before, after, heq, hb, ha⟩, hlt⟩
      · rw [hbest]
        exact ⟨⟨[], ms, rfl, by simp, hle⟩, hm⟩
      · refine ⟨⟨m :: before, after, congrArg (m :: ·) heq, ?_, ha⟩, by omega⟩
        intro x hx
        rcases List.mem_cons.mp hx with rfl | hx
        · exact hlt
        · exact hb x hx
    · rw [if_neg hm]
      rcases ih best chars with ⟨hbest, hle⟩ | ⟨⟨before, after, heq, hb, ha⟩, hlt⟩
      · left
        refine ⟨hbest, ?_⟩
        intro x hx
        rcases List.mem_cons.mp hx with rfl | hx
        · omega
        · exact hle x hx
      · right
        refine ⟨⟨m :: before, after, congrArg (m :: ·) heq, ?_, ha⟩, hlt⟩
        intro x hx
        rcases List.mem_cons.mp hx with rfl | hx
        · omega
        · exact hb x hx

theorem FirstMost.le (h : FirstMost path ms m) {x : MountPoint} (hx : x ∈ ms) :
    commonChars path x ≤ commonChars path m := by
  obtain ⟨before, after, rfl, hb, ha⟩ := h
  rcases List.mem_append.mp hx with hx | hx
  · exact le_of_lt (hb x hx)
  · rcases List.mem_cons.mp hx with rfl | hx
    · exact le_rfl
    · exact ha x hx

theorem FirstMost.mem (h : FirstMost path ms m) : m ∈ ms := by
  obtain ⟨before, after, rfl, -, -⟩ := h
  simp

/-- Two paths that have as many characters in common with both of their first mount points
have the same one. -/
theorem FirstMost.eq_of_same {path' : List UInt8} (h : FirstMost path ms m)
    (h' : FirstMost path' ms m') (hm : commonChars path m = commonChars path' m)
    (hm' : commonChars path m' = commonChars path' m') : m = m' := by
  have hle := h.le h'.mem
  have hle' := h'.le h.mem
  obtain ⟨before, after, hms, hb, -⟩ := h
  obtain ⟨before', after', hms', hb', -⟩ := h'
  have hsplit : before ++ m :: after = before' ++ m' :: after' := hms.symm.trans hms'
  rcases List.append_eq_append_iff.mp hsplit with ⟨l, hl, hr⟩ | ⟨l, hl, hr⟩
  · cases l with
    | nil => exact (List.cons.inj hr).1
    | cons x l =>
      -- `m` stands in front of `m'`
      obtain ⟨rfl, -⟩ := List.cons.inj hr
      have := hb' m (by rw [hl]; simp)
      omega
  · cases l with
    | nil => exact (List.cons.inj hr).1.symm
    | cons x l =>
      obtain ⟨rfl, -⟩ := List.cons.inj hr
      have := hb m' (by rw [hl]; simp)
      omega

/-- There is one first mount point with the most characters. -/
theorem FirstMost.unique (h : FirstMost path ms m) (h' : FirstMost path ms m') : m = m' :=
  h.eq_of_same h' rfl rfl

end Best

section Resolution
variable {t : MountTable} {path : List UInt8} {m : MountPoint}

theorem isPath_root : IsPath [slash] := ⟨rfl, by simp [slash]⟩

theorem Covers.isPrefix {p : List UInt8} (h : Covers p path) (hp : IsPath path) : p <+: path := by
  rcases h with rfl | rfl | h
  · obtain ⟨c, rest, rfl⟩ : ∃ c rest, path = c :: rest := by
      cases path with
      | nil => cases hp.absolute
      | cons c rest => exact ⟨c, rest, rfl⟩
    rw [Option.some.inj hp.absolute]
    exact ⟨rest, rfl⟩
  · exact List.prefix_rfl
  · exact (List.prefix_append _ _).trans h

theorem MountTable.isPath (t : MountTable) (h : m ∈ t.points) : IsPath m.path := by
  rcases List.mem_cons.mp h with rfl | h
  · rw [t.root_path]
    exact isPath_root
  · exact t.others_path m h

theorem commonChars_root (hp : IsPath path) : commonChars path t.root = 1 := by
  have hpre : t.root.path <+: path := Covers.isPrefix (Or.inl t.root_path) hp
  unfold commonChars
  rw [strcfirst_of_isPrefix hpre (t.isPath (List.mem_cons_self ..)).nonzero, t.root_path]
  rfl

/-- The loop ends with the first mount point that has the most characters in common
with the path. -/
theorem firstMost_findBest (t : MountTable) (hp : IsPath path) :
    FirstMost path t.points (findBest path t.points t.root 0) := by
  rcases findBest_spec t.points t.root 0 with ⟨-, hle⟩ | ⟨hfirst, -⟩
  · have := hle t.root (List.mem_cons_self ..)
    rw [commonChars_root hp] at this
    omega
  · exact hfirst

theorem longest_root (hroot : path = [slash]) : Longest t path t.root where
  mem := List.mem_cons_self ..
  covers := Or.inl t.root_path
  longest m' hm' hc := by
    have hle := (hc.isPrefix (by rw [hroot]; exact isPath_root)).length_le
    rw [t.root_path]
    rw [hroot] at hle
    exact hle

theorem eq_root_iff (hp : IsPath path) :
    (path.head? = some slash ∧ path.length = 1) ↔ path = [slash] := by
  constructor
  · rintro ⟨hhead, hlen⟩
    obtain ⟨c, rfl⟩ := List.length_eq_one_iff.mp hlen
    rw [Option.some.inj hhead]
  · rintro rfl
    exact ⟨rfl, rfl⟩

theorem commonChars_le (path : List UInt8) (m : MountPoint) :
    commonChars path m ≤ path.length := by
  obtain ⟨-, -, heq⟩ := strcfirst_bounds (cstring m.path) (cstring path) (m.path.length + 1) 0
  unfold commonChars
  by_contra hlt
  have hle : strcfirst (cstring m.path) (cstring path) (m.path.length + 1) 0 % 2 ^ 16 ≤
    strcfirst (cstring m.path) (cstring path) (m.path.length + 1) 0 := Nat.mod_le _ _
  have h := heq path.length (by omega) (by omega)
  rw [cstring_of_le (le_refl path.length)] at h
  exact h.1 h.2

theorem firstMost_root (hroot : path = [slash]) : FirstMost path t.points t.root := by
  refine ⟨[], t.others, rfl, by simp, fun x _ => ?_⟩
  rw [commonChars_root (by rw [hroot]; exact isPath_root)]
  have := commonChars_le path x
  rw [hroot] at this ⊢
  exact this

/-- `open_file` finds the longest mount point that covers the path exactly if it is
the first one with the most characters in common with the path. -/
theorem openFile_resolves_iff (t : MountTable) (hp : IsPath path) :
    ResolvesLongest t path (openFile t path) ↔
      ∃ m, Longest t path m ∧ FirstMost path t.points m := by
  unfold openFile
  by_cases hroot : path = [slash]
  · rw [if_pos ((eq_root_iff hp).mpr hroot)]
    constructor
    · intro _
      exact ⟨t.root, longest_root hroot, firstMost_root hroot⟩
    · intro _
      refine ⟨t.root, [], longest_root hroot, ?_, (if_pos rfl).symm⟩
      rw [t.root_path, List.append_nil, hroot]
  rw [if_neg fun h => hroot ((eq_root_iff hp).mp h)]
  dsimp only
  have hbest := firstMost_findBest t hp
  generalize findBest path t.points t.root 0 = best at *
  constructor
  · rintro ⟨m, rest, hlongest, -, hr⟩
    have heq : best = m := by
      by_cases h1 : path = best.path
      · by_cases h2 : rest = []
        · rw [if_pos h1, if_pos h2] at hr
          exact Opened.rootDir.inj hr
        · rw [if_pos h1, if_neg h2] at hr
          cases hr
      · by_cases h2 : rest = []
        · rw [if_neg h1, if_pos h2] at hr
          cases hr
        · rw [if_neg h1, if_neg h2] at hr
          exact (Opened.lookup.inj hr).1
    exact ⟨best, heq ▸ hlongest, hbest⟩
  · rintro ⟨m, hlongest, hfirst⟩
    obtain rfl := hbest.unique hfirst
    obtain ⟨rest, hrest⟩ := hlongest.covers.isPrefix hp
    refine ⟨best, rest, hlongest, hrest.symm, ?_⟩
    have hiff : path = best.path ↔ rest = [] := by
      rw [← hrest]
      simp
    simp only [hiff]

end Resolution

/-! ## The mount points of the kernel -/

/-- The root and `/dev`. -/
def kernelMounts : MountTable where
  root := ⟨[slash], 0⟩
  others := [⟨[slash, 100, 101, 118], 1⟩]
  root_path := rfl
  others_path := by
    intro m hm
    rw [List.mem_singleton.mp hm]
    exact ⟨rfl, by simp [slash]⟩
  others_length := by
    intro m hm
    rw [List.mem_singleton.mp hm]
    decide
  others_last := by
    intro m hm
    rw [List.mem_singleton.mp hm]
    decide
  count_lt := by decide

/-- `/dev/tty` -/
def ttyPath : List UInt8 := [slash, 100, 101, 118, slash, 116, 116, 121]

/-- `/dev/tty` is looked up in `/dev`, from `/tty` on. -/
theorem openFile_tty :
    openFile kernelMounts ttyPath = .lookup ⟨[slash, 100, 101, 118], 1⟩ 4 ∧
      ResolvesLongest kernelMounts ttyPath (openFile kernelMounts ttyPath) := by
  refine ⟨by decide, (openFile_resolves_iff kernelMounts ⟨rfl, by simp [ttyPath, slash]⟩).mpr ?_⟩
  refine ⟨⟨[slash, 100, 101, 118], 1⟩, ⟨by simp [kernelMounts, MountTable.points], ?_, ?_⟩,
    [⟨[slash], 0⟩], [], rfl, ?_, by simp⟩
  · exact Or.inr (Or.inr ⟨[116, 116, 121], rfl⟩)
  · intro m hm _
    fin_cases hm <;> decide
  · intro x hx
    rw [List.mem_singleton.mp hx]
    decide

/-- `/d` -/
def shortPath : List UInt8 := [slash, 100]

/-- `/d` is looked up in `/dev`, from behind the end of the string on. The mount
point that covers it is the root. -/
theorem openFile_short_wrong :
    IsPath shortPath ∧ openFile kernelMounts shortPath = .lookup ⟨[slash, 100, 101, 118], 1⟩ 4 ∧
      shortPath.length + 1 < 4 ∧
      ¬ResolvesLongest kernelMounts shortPath (openFile kernelMounts shortPath) := by
  have hopen : openFile kernelMounts shortPath = .lookup ⟨[slash, 100, 101, 118], 1⟩ 4 := by decide
  refine ⟨⟨rfl, by simp [shortPath, slash]⟩, hopen, by decide, ?_⟩
  rintro ⟨m, rest, -, hpath, hr⟩
  rw [hopen] at hr
  by_cases h : rest = []
  · rw [if_pos h] at hr
    cases hr
  · rw [if_neg h] at hr
    obtain ⟨rfl, -⟩ := Opened.lookup.inj hr
    exact absurd (congrArg List.length hpath) (by simp [shortPath])

end VkKernel.Vfs
