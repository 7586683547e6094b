import VkKernel.Lib.ByteMemory
import VkKernel.Lib.Paths
import VkKernel.System

/-!
# The PCI buses

`pci_install` asks every function of bus 0 for its configuration, and goes on behind each bridge
before it asks the next one. It ends exactly if no bridge leads back to a bus that is being
asked, and its list then has the functions of all the buses behind bus 0.
-/

namespace VkKernel.Pci
open ByteMemory Outcome Paths Relation

/-- The configuration of the functions, by bus, device and function. -/
abbrev ConfigSpace := ℕ → ℕ → ℕ → Mem

/-- A `pci_device_t`, without the link and without `base_port`, which nothing sets. -/
structure PciDevice where
  bus : ℕ
  device : ℕ
  function : ℕ
  vendorId : ℕ
  deviceId : ℕ
  classId : ℕ
  subclassId : ℕ
  interfaceId : ℕ
  revision : ℕ
  interrupt : ℕ
deriving DecidableEq, Repr

/-- `select_pci`: the value for the command port. -/
def selectPci (bus device function reg : ℕ) : Result ℕ :=
  if device > 32 ∨ function > 8 then
    fatalKernelError "Trying to select invalid PCI address" "SELECT_PCI"
  else
    .ok (1 <<< 31 ||| (bus &&& 0xFF) <<< 16 ||| (device &&& 0x1F) <<< 11 |||
      (function &&& 0x07) <<< 8 ||| reg &&& 0xFC)

/-- What the host bridge returns on the data port. -/
def dataPort (c : ConfigSpace) (id : ℕ) : ℕ :=
  if id / 2 ^ 31 % 2 = 1 then
    loadLE (c (id / 2 ^ 16 % 2 ^ 8) (id / 2 ^ 11 % 2 ^ 5) (id / 2 ^ 8 % 2 ^ 3))
      (id / 2 ^ 2 % 2 ^ 6 * 4) 4
  else 0xFFFFFFFF

section Scan
variable (c : ConfigSpace)

def pciRead (bus device function reg : ℕ) : Result ℕ := do
  let id ← selectPci bus device function reg
  .ok (dataPort c id >>> (8 * (reg % 4)))

def pciHasFunctions (bus device : ℕ) : Result Bool := do
  let header ← pciRead c bus device 0 0x0E
  .ok (header &&& 1 <<< 7 ≠ 0)

/-- A function that is not there leaves the rest of the node as it was. -/
def getDeviceDesc (bus device function : ℕ) (tr : PciDevice) : Result PciDevice := do
  let vendorId ← pciRead c bus device function 0x00
  let tr := { tr with
    bus := bus, device := device, function := function, vendorId := vendorId % 2 ^ 16 }
  if tr.vendorId = 0xFFFF then .ok tr
  else do
    let deviceId ← pciRead c bus device function 0x02
    let classId ← pciRead c bus device function 0x0B
    let subclassId ← pciRead c bus device function 0x0A
    let interfaceId ← pciRead c bus device function 0x09
    let revision ← pciRead c bus device function 0x08
    let interrupt ← pciRead c bus device function 0x3C
    .ok { tr with
      deviceId := deviceId % 2 ^ 16, classId := classId % 2 ^ 8,
      subclassId := subclassId % 2 ^ 8, interfaceId := interfaceId % 2 ^ 8,
      revision := revision % 2 ^ 8, interrupt := interrupt }

/-- The nodes before `pci_last`, that node, and `pci_devices_count`. -/
structure Scan where
  devices : List PciDevice
  last : PciDevice
  count : ℕ

variable (fresh : ℕ → PciDevice)

/-- The node is kept, and `pci_last` is a new one; `fresh` is what `kmalloc` returns. -/
def Scan.add (s : Scan) : Scan where
  devices := s.devices ++ [s.last]
  last := fresh (s.devices.length + 1)
  count := (s.count + 1) % 2 ^ 8

/-- One function of the loop. A bridge has the buses behind it checked with `pci_last` still at
its own node. -/
def checkFunction (checkBus : ℕ → Scan → Result Scan) (bus device function : ℕ) (s : Scan) :
    Result Scan := do
  let last ← getDeviceDesc c bus device function s.last
  let s := { s with last := last }
  if s.last.vendorId = 0xFFFF then .ok s
  else do
    let s ←
      if s.last.classId = 0x06 ∧ s.last.subclassId = 0x04 then do
        let secondaryBus ← pciRead c bus device function 0x19
        checkBus (secondaryBus % 2 ^ 8) s
      else .ok s
    .ok (s.add fresh)

/-- `pci_check_bus`, for buses nested at most so deep. -/
def pciCheckBus : ℕ → ℕ → Scan → Result Scan
  | 0, _, _ => .error .outOfFuel
  | depth + 1, bus, s =>
    (List.range 32).foldlM (fun s device => do
      let functions ← pciHasFunctions c bus device
      (List.range (if functions then 8 else 1)).foldlM (fun s function =>
        checkFunction c fresh (pciCheckBus depth) bus device function s) s) s

/-- The list of `pci_install`, from `pci_first` to `pci_last`. -/
def pciInstall (depth : ℕ) : Result (List PciDevice) := do
  let s ← pciCheckBus c fresh depth 0 ⟨[], fresh 0, 0⟩
  .ok s.devices

/-! ## Reading the configuration -/

theorem or_eq_add {x y k : ℕ} (hx : x % 2 ^ k = 0) (hy : y < 2 ^ k) : x ||| y = x + y := by
  have hshift : (x / 2 ^ k) <<< k = x := by
    rw [Nat.shiftLeft_eq]
    exact Nat.div_mul_cancel (Nat.dvd_of_mod_eq_zero hx)
  rw [← hshift]
  exact (Nat.shiftLeft_add_eq_or_of_lt hy _).symm

/-- The fields of the address do not overlap. -/
theorem selectPci_eq {bus device function reg : ℕ} (hb : bus < 2 ^ 8) (hd : device < 32)
    (hf : function < 8) (hr : reg < 2 ^ 8) : selectPci bus device function reg =
      .ok (2 ^ 31 + bus * 2 ^ 16 + device * 2 ^ 11 + function * 2 ^ 8 + reg / 4 * 4) := by
  have hreg : reg &&& 0xFC = reg / 4 * 4 := by
    have hall : ∀ r < 256, r &&& 0xFC = r / 4 * 4 := by decide +kernel
    exact hall reg hr
  have hbus : bus &&& 0xFF = bus := Nat.and_two_pow_sub_one_of_lt_two_pow hb
  have hdevice : device &&& 0x1F = device :=
    Nat.and_two_pow_sub_one_of_lt_two_pow (show device < 2 ^ 5 from hd)
  have hfunction : function &&& 0x07 = function :=
    Nat.and_two_pow_sub_one_of_lt_two_pow (show function < 2 ^ 3 from hf)
  have h24 : 2 ^ 31 ||| bus * 2 ^ 16 = 2 ^ 31 + bus * 2 ^ 16 :=
    @or_eq_add _ _ 24 (by norm_num) (by omega)
  have h16 : (2 ^ 31 + bus * 2 ^ 16) ||| device * 2 ^ 11 = _ :=
    @or_eq_add _ _ 16 (by omega) (by omega)
  have h11 : (2 ^ 31 + bus * 2 ^ 16 + device * 2 ^ 11) ||| function * 2 ^ 8 = _ :=
    @or_eq_add _ _ 11 (by omega) (by omega)
  have h8 : (2 ^ 31 + bus * 2 ^ 16 + device * 2 ^ 11 + function * 2 ^ 8) ||| reg / 4 * 4 = _ :=
    @or_eq_add _ _ 8 (by omega) (by omega)
  unfold selectPci
  rw [if_neg (by omega), hreg, hbus, hdevice, hfunction]
  simp only [Nat.shiftLeft_eq, Nat.one_mul]
  rw [h24, h16, h11, h8]

theorem loadLE_shiftRight (m : Mem) (a n k : ℕ) :
    loadLE m a n >>> (8 * k) = loadLE m (a + k) (n - k) := by
  induction k generalizing a n with
  | zero => rfl
  | succ k ih =>
    cases n with
    | zero => simp [loadLE]
    | succ n =>
      have hdiv : loadLE m a (n + 1) >>> 8 = loadLE m (a + 1) n := by
        have hbyte := (m a).toNat_lt
        rw [loadLE, Nat.shiftRight_eq_div_pow]
        omega
      rw [Nat.mul_succ, Nat.add_comm (8 * k), Nat.shiftRight_add, hdiv, ih, Nat.add_sub_add_right,
        Nat.add_assoc, Nat.add_comm 1]

theorem loadLE_mod (m : Mem) (a : ℕ) {n k : ℕ} (h : k ≤ n) :
    loadLE m a n % 256 ^ k = loadLE m a k := by
  induction k generalizing a n with
  | zero => simp [loadLE, Nat.mod_one]
  | succ k ih =>
    cases n with
    | zero => omega
    | succ n =>
      have hbyte := (m a).toNat_lt
      have hrest := ih (a + 1) (Nat.le_of_succ_le_succ h)
      have hlow : ((m a).toNat + 256 * loadLE m (a + 1) n) % 256 = (m a).toNat := by omega
      have hhigh : ((m a).toNat + 256 * loadLE m (a + 1) n) / 256 = loadLE m (a + 1) n := by omega
      rw [loadLE, loadLE, ← hrest, pow_succ', Nat.mod_mul, hlow, hhigh]

/-- `pci_read` returns the bytes of its double word from the register on. -/
theorem pciRead_eq {bus device function reg : ℕ} (hb : bus < 2 ^ 8) (hd : device < 32)
    (hf : function < 8) (hr : reg < 2 ^ 8) :
    pciRead c bus device function reg = .ok (loadLE (c bus device function) reg (4 - reg % 4)) := by
  unfold pciRead dataPort
  rw [selectPci_eq hb hd hf hr, ok_bind, if_pos (by omega), loadLE_shiftRight]
  congr 3
  · omega
  · omega
  · omega
  · omega

end Scan

/-! ## The functions of a bus -/

structure Address where
  bus : ℕ
  device : ℕ
  function : ℕ
deriving DecidableEq, Repr

variable (c : ConfigSpace)

def config (a : Address) : Mem := c a.bus a.device a.function

/-- The functions that are asked: only function 0 has the bit for the others. -/
def probed (bus device : ℕ) : List Address :=
  (List.range (if (c bus device 0 0x0E).toNat &&& 1 <<< 7 ≠ 0 then 8 else 1)).map fun function =>
    ⟨bus, device, function⟩

def functionsOf (bus : ℕ) : List Address := (List.range 32).flatMap (probed c bus)

def Present (a : Address) : Prop := loadLE (config c a) 0x00 2 ≠ 0xFFFF

def IsBridge (a : Address) : Prop := config c a 0x0B = 0x06 ∧ config c a 0x0A = 0x04

instance (a : Address) : Decidable (Present c a) := inferInstanceAs (Decidable (_ ≠ _))

instance (a : Address) : Decidable (IsBridge c a) := inferInstanceAs (Decidable (_ ∧ _))

def secondary (a : Address) : ℕ := (config c a 0x19).toNat

/-- A bridge leads from the one bus to the other. -/
def Leads (b b' : ℕ) : Prop :=
  ∃ a ∈ functionsOf c b, Present c a ∧ IsBridge c a ∧ secondary c a = b'

/-- What the configuration says about a function. -/
def describe (a : Address) : PciDevice where
  bus := a.bus
  device := a.device
  function := a.function
  vendorId := loadLE (config c a) 0x00 2
  deviceId := loadLE (config c a) 0x02 2
  classId := (config c a 0x0B).toNat
  subclassId := (config c a 0x0A).toNat
  interfaceId := (config c a 0x09).toNat
  revision := (config c a 0x08).toNat
  interrupt := loadLE (config c a) 0x3C 4

/-- The order of the nodes. The node of a bridge comes behind those of its buses, and `none` stands
for it: what it holds is left over from them. -/
def listing : ℕ → ℕ → List (Option Address)
  | 0, _ => []
  | depth + 1, bus => (List.range 32).flatMap fun device => (probed c bus device).flatMap fun a =>
    if Present c a then
      if IsBridge c a then listing depth (secondary c a) ++ [none] else [some a]
    else []

/-- The node is that of the function. -/
def Describes (e : Option Address) (d : PciDevice) : Prop := ∀ a, e = some a → d = describe c a

theorem describes_none {c : ConfigSpace} (d : PciDevice) : Describes c none d := by
  intro a ha
  cases ha

/-- A part of the scan that adds these nodes, or does not end. -/
structure Adds (entries : List (Option Address)) (ends : Prop) (f : Scan → Result Scan) :
    Prop where
  ok : ends → ∀ s, ∃ t nodes, f s = .ok t ∧ t.devices = s.devices ++ nodes ∧
    List.Forall₂ (Describes c) entries nodes
  stuck : ¬ends → ∀ s, f s = .error .outOfFuel

section Adds
variable {c}

theorem Adds.nothing : Adds c [] True .ok where
  ok _ s := ⟨s, [], rfl, by simp, .nil⟩
  stuck h := (h trivial).elim

theorem Adds.bind {es es' : List (Option Address)} {p p' : Prop} {f g : Scan → Result Scan}
    (hf : Adds c es p f) (hg : Adds c es' p' g) :
    Adds c (es ++ es') (p ∧ p') fun s => f s >>= g where
  ok h s := by
    obtain ⟨t, nodes, ht, hdevices, hnodes⟩ := hf.ok h.1 s
    obtain ⟨u, nodes', hu, hdevices', hnodes'⟩ := hg.ok h.2 t
    refine ⟨u, nodes ++ nodes', ?_, ?_, List.rel_append hnodes hnodes'⟩
    · rw [ht, ok_bind, hu]
    · rw [hdevices', hdevices, List.append_assoc]
  stuck h s := by
    by_cases hp : p
    · obtain ⟨t, nodes, ht, -⟩ := hf.ok hp s
      rw [ht, ok_bind]
      exact hg.stuck (fun hp' => h ⟨hp, hp'⟩) t
    · rw [hf.stuck hp s]
      rfl

/-- A loop adds what its rounds add. -/
theorem Adds.foldlM {α : Type} {entries : α → List (Option Address)} {ends : α → Prop}
    {f : Scan → α → Result Scan} {l : List α}
    (h : ∀ x ∈ l, Adds c (entries x) (ends x) fun s => f s x) :
    Adds c (l.flatMap entries) (∀ x ∈ l, ends x) fun s => l.foldlM f s := by
  induction l with
  | nil =>
    have hnil : (∀ x ∈ ([] : List α), ends x) ↔ True := by simp
    simp only [hnil]
    exact Adds.nothing
  | cons x l ih =>
    simp only [List.flatMap_cons, List.forall_mem_cons, List.foldlM_cons]
    apply Adds.bind
    · exact h x List.mem_cons_self
    · exact ih fun y hy => h y (List.mem_cons_of_mem _ hy)

theorem pciHasFunctions_eq {bus device : ℕ} (hb : bus < 2 ^ 8) (hd : device < 32) :
    pciHasFunctions c bus device = .ok ((c bus device 0 0x0E).toNat &&& 1 <<< 7 ≠ 0) := by
  have hword : ∀ m : Mem, loadLE m 0x0E 2 &&& 1 <<< 7 = (m 0x0E).toNat &&& 1 <<< 7 := by
    intro m
    have hbit : ∀ x : ℕ, x &&& 1 <<< 7 = (x % 2 ^ 8) &&& 1 <<< 7 := by
      intro x
      rw [← Nat.and_two_pow_sub_one_eq_mod, Nat.and_assoc]
      rfl
    have hlow : loadLE m 0x0E 2 % 2 ^ 8 = (m 0x0E).toNat := by
      have hmod := @loadLE_mod m 0x0E 2 1 (by norm_num)
      exact hmod.trans (by simp [loadLE])
    rw [hbit, hlow]
  unfold pciHasFunctions
  rw [pciRead_eq c hb hd (by norm_num) (by norm_num), ok_bind, hword]

theorem getDeviceDesc_eq {a : Address} (hb : a.bus < 2 ^ 8) (hd : a.device < 32)
    (hf : a.function < 8) (tr : PciDevice) :
    (¬Present c a → ∃ d, getDeviceDesc c a.bus a.device a.function tr = .ok d ∧
      d.vendorId = 0xFFFF) ∧
    (Present c a → getDeviceDesc c a.bus a.device a.function tr = .ok (describe c a)) := by
  have hread : ∀ reg < 2 ^ 8, pciRead c a.bus a.device a.function reg =
      .ok (loadLE (config c a) reg (4 - reg % 4)) := fun reg hr => pciRead_eq c hb hd hf hr
  have hmod : ∀ reg k : ℕ, k ≤ 4 - reg % 4 →
      loadLE (config c a) reg (4 - reg % 4) % 2 ^ (8 * k) = loadLE (config c a) reg k := by
    intro reg k hk
    rw [pow_mul]
    exact loadLE_mod _ _ hk
  have hbyte : ∀ reg : ℕ, loadLE (config c a) reg (4 - reg % 4) % 2 ^ 8 =
      (config c a reg).toNat := by
    intro reg
    have hone := hmod reg 1 (by omega)
    simpa [loadLE] using hone
  have hvendor : loadLE (config c a) 0x00 (4 - 0x00 % 4) % 2 ^ 16 = loadLE (config c a) 0x00 2 :=
    hmod 0x00 2 (by norm_num)
  have hdevice : loadLE (config c a) 0x02 (4 - 0x02 % 4) % 2 ^ 16 = loadLE (config c a) 0x02 2 :=
    hmod 0x02 2 (by norm_num)
  unfold getDeviceDesc Present
  rw [hread 0x00 (by norm_num), ok_bind]
  dsimp only
  rw [hvendor]
  constructor
  · intro h
    rw [not_not] at h
    rw [if_pos h]
    exact ⟨_, rfl, h⟩
  · intro h
    rw [if_neg h, hread 0x02 (by norm_num), ok_bind, hread 0x0B (by norm_num), ok_bind,
      hread 0x0A (by norm_num), ok_bind, hread 0x09 (by norm_num), ok_bind,
      hread 0x08 (by norm_num), ok_bind, hread 0x3C (by norm_num), ok_bind, hdevice, hbyte, hbyte,
      hbyte, hbyte]
    rfl

/-- The bus behind a bridge. -/
theorem pciRead_secondary {a : Address} (hb : a.bus < 2 ^ 8) (hd : a.device < 32)
    (hf : a.function < 8) : ∃ word, pciRead c a.bus a.device a.function 0x19 = .ok word ∧
      word % 2 ^ 8 = secondary c a := by
  refine ⟨_, pciRead_eq c hb hd hf (by norm_num), ?_⟩
  have hmod := @loadLE_mod (config c a) 0x19 3 1 (by norm_num)
  exact hmod.trans (by simp [loadLE, secondary])

theorem describe_isBridge (a : Address) :
    (describe c a).classId = 0x06 ∧ (describe c a).subclassId = 0x04 ↔ IsBridge c a := by
  unfold describe IsBridge
  rw [← UInt8.toNat_inj, ← UInt8.toNat_inj]
  rfl

theorem mem_probed {bus device : ℕ} {a : Address} (h : a ∈ probed c bus device) :
    a.bus = bus ∧ a.device = device ∧ a.function < 8 := by
  unfold probed at h
  obtain ⟨function, hfunction, rfl⟩ := List.mem_map.mp h
  rw [List.mem_range] at hfunction
  refine ⟨rfl, rfl, ?_⟩
  dsimp only
  split at hfunction <;> omega

/-- One function, given what the scan of a bus behind it adds. -/
theorem adds_checkFunction {fresh : ℕ → PciDevice} {check : ℕ → Scan → Result Scan}
    {entries : ℕ → List (Option Address)} {ends : ℕ → Prop}
    (hcheck : ∀ b < 2 ^ 8, Adds c (entries b) (ends b) (check b)) {a : Address}
    (hb : a.bus < 2 ^ 8) (hd : a.device < 32) (hf : a.function < 8) :
    Adds c
      (if Present c a then
        if IsBridge c a then entries (secondary c a) ++ [none] else [some a]
      else [])
      (Present c a → IsBridge c a → ends (secondary c a))
      (checkFunction c fresh check a.bus a.device a.function) := by
  by_cases hpresent : Present c a
  swap
  · -- nothing there
    constructor
    · intro _ s
      obtain ⟨d, hdesc, hvendor⟩ := (getDeviceDesc_eq hb hd hf s.last).1 hpresent
      refine ⟨{ s with last := d }, [], ?_, by simp, by simp [hpresent]⟩
      unfold checkFunction
      rw [hdesc, ok_bind]
      exact if_pos hvendor
    · intro h
      exact absurd hpresent fun hp => h fun hp' => absurd hp' hpresent
  have hdesc : ∀ s : Scan, getDeviceDesc c a.bus a.device a.function s.last = .ok (describe c a) :=
    fun s => (getDeviceDesc_eq hb hd hf s.last).2 hpresent
  have hrun : ∀ s, checkFunction c fresh check a.bus a.device a.function s =
      (if IsBridge c a then check (secondary c a) { s with last := describe c a }
        else .ok { s with last := describe c a }) >>= fun s => .ok (s.add fresh) := by
    intro s
    obtain ⟨word, hword, hsecondary⟩ := pciRead_secondary hb hd hf
    unfold checkFunction
    rw [hdesc s, ok_bind]
    dsimp only
    rw [if_neg (show (describe c a).vendorId ≠ 0xFFFF from hpresent), hword, ok_bind, hsecondary]
    simp only [describe_isBridge]
    split_ifs <;> rfl
  rw [if_pos hpresent]
  by_cases hbridge : IsBridge c a
  · have hbus := hcheck (secondary c a) (UInt8.toNat_lt _)
    rw [if_pos hbridge]
    constructor
    · intro h s
      obtain ⟨t, nodes, ht, hdevices, hnodes⟩ :=
        hbus.ok (h hpresent hbridge) { s with last := describe c a }
      refine ⟨t.add fresh, nodes ++ [t.last], ?_, ?_,
        List.rel_append hnodes (.cons (describes_none _) .nil)⟩
      · rw [hrun, if_pos hbridge, ht, ok_bind]
      · unfold Scan.add
        rw [hdevices, List.append_assoc]
    · intro h s
      rw [hrun, if_pos hbridge, hbus.stuck fun he => h fun _ _ => he]
      rfl
  · rw [if_neg hbridge]
    constructor
    · intro _ s
      refine ⟨{ s with last := describe c a }.add fresh, [describe c a], ?_, rfl, .cons ?_ .nil⟩
      · rw [hrun, if_neg hbridge, ok_bind]
      · intro b hb
        rw [Option.some.inj hb]
    · intro h
      exact absurd (fun _ hb => absurd hb hbridge) h

/-- The scan of a bus adds its listing, unless the paths of buses from it are too long. -/
theorem adds_pciCheckBus (fresh : ℕ → PciDevice) (depth : ℕ) :
    ∀ b < 2 ^ 8, Adds c (listing c depth b) (Within (Leads c) depth b)
      (pciCheckBus c fresh depth b) := by
  induction depth with
  | zero => exact fun b _ => ⟨fun h => h.elim, fun _ _ => rfl⟩
  | succ depth ih =>
    intro b hb
    have hends : Within (Leads c) (depth + 1) b ↔ ∀ device ∈ List.range 32,
        ∀ a ∈ probed c b device, Present c a → IsBridge c a →
          Within (Leads c) depth (secondary c a) := by
      constructor
      · intro h device hdevice a ha hpresent hbridge
        exact h _ ⟨a, List.mem_flatMap.mpr ⟨device, hdevice, ha⟩, hpresent, hbridge, rfl⟩
      · rintro h _ ⟨a, ha, hpresent, hbridge, rfl⟩
        obtain ⟨device, hdevice, ha⟩ := List.mem_flatMap.mp ha
        exact h device hdevice a ha hpresent hbridge
    rw [hends]
    apply Adds.foldlM
    intro device hdevice
    have hd := List.mem_range.mp hdevice
    simp only [pciHasFunctions_eq hb hd, ok_bind]
    have hloop : Adds c ((probed c b device).flatMap fun a =>
        if Present c a then
          if IsBridge c a then listing c depth (secondary c a) ++ [none] else [some a]
        else [])
        (∀ a ∈ probed c b device, Present c a → IsBridge c a →
          Within (Leads c) depth (secondary c a))
        fun s => (probed c b device).foldlM (fun s a =>
          checkFunction c fresh (pciCheckBus c fresh depth) a.bus a.device a.function s) s := by
      apply Adds.foldlM
      intro a ha
      obtain ⟨hbus, hdev, hf⟩ := mem_probed ha
      exact adds_checkFunction ih (by omega) (by omega) hf
    unfold probed at hloop ⊢
    simp only [List.foldlM_map] at hloop
    simpa only [decide_eq_true_eq] using hloop

theorem pciCheckBus_ok_iff (fresh : ℕ → PciDevice) (depth : ℕ) {b : ℕ} (hb : b < 2 ^ 8) (s : Scan) :
    (∃ t, pciCheckBus c fresh depth b s = .ok t) ↔ Within (Leads c) depth b := by
  have hadds := @adds_pciCheckBus c fresh depth b hb
  constructor
  · rintro ⟨t, ht⟩
    by_contra hends
    rw [hadds.stuck hends s] at ht
    cases ht
  · intro hends
    obtain ⟨t, nodes, ht, -⟩ := hadds.ok hends s
    exact ⟨t, ht⟩

theorem Leads.lt {b b' : ℕ} (h : Leads c b b') : b' < 2 ^ 8 := by
  obtain ⟨a, -, -, -, rfl⟩ := h
  exact UInt8.toNat_lt _

/-- The nodes of functions that are no bridges are those of the buses that can be reached. -/
theorem mem_listing {depth b : ℕ} (h : Within (Leads c) depth b) {a : Address} :
    some a ∈ listing c depth b ↔
      ReflTransGen (Leads c) b a.bus ∧ a ∈ functionsOf c a.bus ∧ Present c a ∧ ¬IsBridge c a := by
  induction depth generalizing b with
  | zero => exact h.elim
  | succ depth ih =>
    have hbus : ∀ {x : Address}, x ∈ functionsOf c b → x.bus = b := by
      intro x hx
      obtain ⟨device, -, hx⟩ := List.mem_flatMap.mp hx
      exact (mem_probed hx).1
    have hunfold : some a ∈ listing c (depth + 1) b ↔ ∃ x ∈ functionsOf c b, Present c x ∧
        if IsBridge c x then some a ∈ listing c depth (secondary c x) else a = x := by
      rw [listing]
      simp only [functionsOf, List.mem_flatMap]
      constructor
      · rintro ⟨device, hdevice, x, hx, hmem⟩
        refine ⟨x, ⟨device, hdevice, hx⟩, ?_⟩
        split_ifs at hmem with hpresent hbridge
        · rw [if_pos hbridge]
          simpa [hpresent] using hmem
        · rw [if_neg hbridge]
          simpa [hpresent] using hmem
        · cases hmem
      · rintro ⟨x, ⟨device, hdevice, hx⟩, hpresent, hmem⟩
        refine ⟨device, hdevice, x, hx, ?_⟩
        rw [if_pos hpresent]
        split_ifs at hmem ⊢ with hbridge
        · exact List.mem_append_left _ hmem
        · rw [hmem]
          exact List.mem_singleton_self _
    rw [hunfold]
    constructor
    · rintro ⟨x, hx, hpresent, hmem⟩
      split_ifs at hmem with hbridge
      · have hleads : Leads c b (secondary c x) := ⟨x, hx, hpresent, hbridge, rfl⟩
        obtain ⟨hpath, hfunction⟩ := (ih (h _ hleads)).mp hmem
        exact ⟨.head hleads hpath, hfunction⟩
      · subst hmem
        rw [hbus hx]
        exact ⟨.refl, hx, hpresent, hbridge⟩
    · rintro ⟨hpath, hfunction, hpresent, hbridge⟩
      rcases hpath.cases_head with hself | ⟨b', hleads, hrest⟩
      · refine ⟨a, hself ▸ hfunction, hpresent, ?_⟩
        rw [if_neg hbridge]
      · obtain ⟨x, hx, hpresentx, hbridgex, rfl⟩ := hleads
        refine ⟨x, hx, hpresentx, ?_⟩
        rw [if_pos hbridgex]
        exact (ih (h _ ⟨x, hx, hpresentx, hbridgex, rfl⟩)).mpr
          ⟨hrest, hfunction, hpresent, hbridge⟩

theorem pciInstall_ok {fresh : ℕ → PciDevice} {depth : ℕ} {devices : List PciDevice}
    (h : pciInstall c fresh depth = .ok devices) :
    Within (Leads c) depth 0 ∧ List.Forall₂ (Describes c) (listing c depth 0) devices := by
  obtain ⟨t, ht, hdevices⟩ := bind_eq_ok.mp h
  have hends := (pciCheckBus_ok_iff fresh depth (by norm_num) _).mp ⟨t, ht⟩
  obtain ⟨u, nodes, hu, hnodes, hall⟩ :=
    (adds_pciCheckBus fresh depth 0 (by norm_num)).ok hends ⟨[], fresh 0, 0⟩
  rw [hu, Except.ok.injEq] at ht
  refine ⟨hends, ?_⟩
  rw [← Except.ok.inj hdevices, ← ht, hnodes]
  exact hall

end Adds

/-! ## The scan -/

/-- The scan ends exactly if no bus that can be reached from bus 0 can be reached from itself. -/
theorem pciInstall_ends_iff (c : ConfigSpace) (fresh : ℕ → PciDevice) :
    (∃ depth devices, pciInstall c fresh depth = .ok devices) ↔
      ¬∃ b, ReflTransGen (Leads c) 0 b ∧ TransGen (Leads c) b b := by
  have hfin : ∀ b, {b' | Leads c b b'}.Finite := fun b =>
    (Set.finite_lt_nat (2 ^ 8)).subset fun b' hb' => Leads.lt hb'
  have hreach : {b | ReflTransGen (Leads c) 0 b}.Finite := by
    apply (Set.finite_lt_nat (2 ^ 8)).subset
    intro b hb
    rcases hb.cases_tail with rfl | ⟨b', -, hleads⟩
    · exact show 0 < 2 ^ 8 by norm_num
    · exact hleads.lt
  rw [← exists_within_iff hfin hreach]
  apply exists_congr
  intro depth
  rw [← pciCheckBus_ok_iff fresh depth (by norm_num) ⟨[], fresh 0, 0⟩]
  unfold pciInstall
  constructor
  · rintro ⟨devices, h⟩
    obtain ⟨t, ht, -⟩ := bind_eq_ok.mp h
    exact ⟨t, ht⟩
  · rintro ⟨t, ht⟩
    exact ⟨t.devices, by rw [ht, ok_bind]⟩

/-- No two bridges that can be reached have the same bus behind them. -/
def OwnBuses (c : ConfigSpace) : Prop :=
  ∀ b b' a a', ReflTransGen (Leads c) 0 b → ReflTransGen (Leads c) 0 b' →
    a ∈ functionsOf c b → a' ∈ functionsOf c b' → Present c a → Present c a' →
    IsBridge c a → IsBridge c a' → secondary c a = secondary c a' → a = a'

section Once
variable {c : ConfigSpace}

theorem bus_of_mem {b : ℕ} {a : Address} (h : a ∈ functionsOf c b) : a.bus = b := by
  obtain ⟨device, -, ha⟩ := List.mem_flatMap.mp h
  exact (mem_probed ha).1

theorem nodup_functionsOf (b : ℕ) : (functionsOf c b).Nodup := by
  apply List.nodup_flatMap.mpr
  constructor
  · intro device _
    apply List.nodup_range.map
    intro f f' h
    exact (Address.mk.inj h).2.2
  · apply List.nodup_range.imp
    intro d d' hne a ha ha'
    exact hne ((mem_probed ha).2.1.symm.trans (mem_probed ha').2.1)

/-- On buses that have one bridge each, no function has two nodes. -/
theorem nodup_listing (hown : OwnBuses c) {depth b : ℕ} (hb : ReflTransGen (Leads c) 0 b)
    (h : Within (Leads c) depth b) : ((listing c depth b).filterMap id).Nodup := by
  induction depth generalizing b with
  | zero => exact h.elim
  | succ depth ih =>
    have hnocycle : ¬TransGen (Leads c) b b := not_transGen_of_acc h.acc .refl
    have huniq : ∀ {x y z}, ReflTransGen (Leads c) 0 x → ReflTransGen (Leads c) 0 y →
        Leads c x z → Leads c y z → x = y := by
      rintro x y z hx hy ⟨a, ha, hpresent, hbridge, hz⟩ ⟨a', ha', hpresent', hbridge', hz'⟩
      have heq := hown x y a a' hx hy ha ha' hpresent hpresent' hbridge hbridge' (hz.trans hz'.symm)
      rw [← bus_of_mem ha, ← bus_of_mem ha', heq]
    -- a function of the bus is not listed behind its bridges
    have hself : ∀ {x}, Leads c b x → ¬ReflTransGen (Leads c) x b := fun hx hpath =>
      hnocycle (.head' hx hpath)
    have hpaths : ∀ {x y z : ℕ}, Leads c b x → Leads c b y → ReflTransGen (Leads c) x z →
        ReflTransGen (Leads c) y z → x = y := by
      intro x y z hx hy hxz hyz
      have hbefore : ∀ {x y}, Leads c b x → Leads c b y → ReflTransGen (Leads c) x y → x = y := by
        intro x y hx hy hpath
        rcases hpath.cases_tail with rfl | ⟨w, hxw, hwy⟩
        · rfl
        · have hw : ReflTransGen (Leads c) 0 w := (hb.tail hx).trans hxw
          obtain rfl := huniq hw hb hwy hy
          exact absurd hxw (hself hx)
      rcases comparable huniq (hb.tail hx) (hb.tail hy) hxz hyz with hpath | hpath
      · exact hbefore hx hy hpath
      · exact (hbefore hy hx hpath).symm
    have hlisting : (listing c (depth + 1) b).filterMap id = (functionsOf c b).flatMap fun a =>
        if Present c a then
          if IsBridge c a then (listing c depth (secondary c a)).filterMap id else [a]
        else [] := by
      rw [listing, functionsOf]
      simp only [List.filterMap_flatMap, List.flatMap_assoc]
      apply List.flatMap_congr
      intro device _
      apply List.flatMap_congr
      intro a _
      split_ifs <;> simp
    rw [hlisting]
    apply List.nodup_flatMap.mpr
    constructor
    · intro a ha
      split_ifs with hpresent hbridge
      · have hleads : Leads c b (secondary c a) := ⟨a, ha, hpresent, hbridge, rfl⟩
        exact ih (hb.tail hleads) (h _ hleads)
      · exact List.nodup_singleton a
      · exact List.nodup_nil
    · apply (List.nodup_iff_pairwise_ne.mp (nodup_functionsOf b)).imp_of_mem
      intro a a' ha ha' hne z hz hz'
      have hmem : ∀ {a}, a ∈ functionsOf c b → z ∈ (if Present c a then
          if IsBridge c a then (listing c depth (secondary c a)).filterMap id else [a]
          else []) → Present c a ∧ (IsBridge c a ∧ Leads c b (secondary c a) ∧
            ReflTransGen (Leads c) (secondary c a) z.bus ∨ ¬IsBridge c a ∧ z = a) := by
        intro a ha hz
        split_ifs at hz with hpresent hbridge
        · have hleads : Leads c b (secondary c a) := ⟨a, ha, hpresent, hbridge, rfl⟩
          have hz : some z ∈ listing c depth (secondary c a) := by simpa using hz
          exact ⟨hpresent, Or.inl ⟨hbridge, hleads, ((mem_listing (h _ hleads)).mp hz).1⟩⟩
        · exact ⟨hpresent, Or.inr ⟨hbridge, List.mem_singleton.mp hz⟩⟩
        · cases hz
      obtain ⟨hp, ⟨hbr, hleads, hpath⟩ | ⟨-, hza⟩⟩ := hmem ha hz
      · obtain ⟨hp', ⟨hbr', hleads', hpath'⟩ | ⟨-, hza'⟩⟩ := hmem ha' hz'
        · exact hne (hown b b a a' hb hb ha ha' hp hp' hbr hbr'
            (hpaths hleads hleads' hpath hpath'))
        · rw [hza', bus_of_mem ha'] at hpath
          exact hself hleads hpath
      · obtain ⟨-, ⟨-, hleads', hpath'⟩ | ⟨-, hza'⟩⟩ := hmem ha' hz'
        · rw [hza, bus_of_mem ha] at hpath'
          exact hself hleads' hpath'
        · exact hne (hza.symm.trans hza')

end Once

/-- A controller, and a bridge to bus 1 with one device. -/
def smallConfig : ConfigSpace := fun bus device function x =>
  if (bus, device, function) = (0, 0, 0) then (if x = 0x0B then 1 else 0)
  else if (bus, device, function) = (0, 1, 0) then
    (if x = 0x0B then 6 else if x = 0x0A then 4 else if x = 0x19 then 1 else 0)
  else if (bus, device, function) = (1, 0, 0) then (if x = 0x0B then 2 else 0)
  else 0xFF

/-- What `kmalloc` returns in this case. -/
def zeroNode : PciDevice := ⟨0, 0, 0, 0, 0, 0, 0, 0, 0, 0⟩

/-- The node of the bridge has what was left of the last function of bus 1. -/
theorem pciInstall_small : pciInstall smallConfig (fun _ => zeroNode) 2 =
    .ok [⟨0, 0, 0, 0, 0, 1, 0, 0, 0, 0⟩, ⟨1, 0, 0, 0, 0, 2, 0, 0, 0, 0⟩,
      ⟨1, 31, 7, 0xFFFF, 0, 0, 0, 0, 0, 0⟩] := by
  decide +kernel

end VkKernel.Pci
