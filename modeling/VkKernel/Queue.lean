import VkKernel.State

/-!
# Queues

`queue_t`, an array with pointers to its first and its last element. The pointers
are of type `void**`, so `rear += sizeof(void*)` moves by four elements. The bytes
of the buffer are those that `kmalloc` was asked for, and an operation that touches
any other byte has no result.
-/

namespace VkKernel
open ByteMemory

/-- `owned` is the length of the buffer at `front`. -/
structure Queue where
  front : ℕ
  rear : ℕ
  size : ℕ
  owned : ℕ
  mem : Mem

namespace Queue

/-- `n` bytes from `a` on are bytes of the buffer. -/
def Inside (q : Queue) (a n : ℕ) : Prop := n = 0 ∨ q.front ≤ a ∧ a + n ≤ q.front + q.owned

instance (q : Queue) (a n : ℕ) : Decidable (q.Inside a n) := inferInstanceAs (Decidable (_ ∨ _))

/-- `front + sizeof(void*) * i` -/
def element (q : Queue) (i : ℕ) : ℕ := u32 (q.front + 4 * u32 (4 * i))

def load (q : Queue) (a : ℕ) : UInt32 := UInt32.ofNat (loadLE q.mem a 4)

end Queue

/-- `queue_init`, the buffer being at `front`. -/
def queueInit (size front : ℕ) (mem : Mem) : Queue where
  front := front
  rear := sub32 front 16
  size := size
  owned := u32 (4 * size)
  mem := mem

/-- The buffer after `krealloc` has moved it to `np`; `rear` is not changed. -/
def Queue.grow (q : Queue) (np : ℕ) : Queue :=
  { q with
    front := np
    size := u32 (2 * q.size)
    owned := u32 (2 * u32 (4 * q.size))
    mem := copy q.mem np q.front q.owned }

/-- `queue_add`; `np` is where `krealloc` puts the buffer if the queue is full. -/
def queueAdd (q : Queue) (element : UInt32) (np : ℕ) : Option Queue :=
  let q := if q.rear = q.element q.size then q.grow np else q
  let rear := u32 (q.rear + 16)
  if q.Inside rear 4 then
    some { q with rear := rear, mem := storeLE q.mem rear 4 element.toNat }
  else none

/-- `memcpy(queue->front, src, n)`, and `rear` one element less. -/
def Queue.shift (q : Queue) (src n : ℕ) : Option Queue :=
  if q.Inside src n ∧ q.Inside q.front n then
    some { q with mem := copy q.mem q.front src n, rear := sub32 q.rear 16 }
  else none

def queueTake (q : Queue) : Option (UInt32 × Queue) :=
  if q.rear < q.front then some (0, q)
  else if q.Inside q.front 4 then
    (q.shift (q.element 1) (u32 (4 * sub32 q.size 1))).map fun t => (q.load q.front, t)
  else none

/-- The loop of `queue_remove`. -/
def Queue.search (q : Queue) (element : UInt32) : ℕ → ℕ → Option ℕ
  | 0, i => some i
  | n + 1, i =>
    if q.Inside (q.element i) 4 then
      if q.load (q.element i) = element then some i else q.search element n (i + 1)
    else none

def queueRemove (q : Queue) (element : UInt32) : Option Queue :=
  if q.rear < q.front then some q
  else
    (q.search element q.size 0).bind fun i =>
      q.shift (q.element i) (u32 (4 * sub32 (sub32 q.size 1) i))

inductive QueueOp
  | add (element : UInt32) (np : ℕ)
  | take
  | remove (element : UInt32)

namespace Queue

/-- An operation with its result, which is 0 for those that return nothing. -/
def step (q : Queue) : QueueOp → Option (UInt32 × Queue)
  | .add element np => (queueAdd q element np).map fun t => (0, t)
  | .take => queueTake q
  | .remove element => (queueRemove q element).map fun t => (0, t)

/-- The elements from `front` to `rear`. -/
def contents (q : Queue) : List UInt32 :=
  (List.range ((q.rear + 16 - q.front) / 16)).map fun i => q.load (q.front + 16 * i)

end Queue

/-- What the operations do to a list. -/
def FifoStep (l : List UInt32) : QueueOp → UInt32 → List UInt32 → Prop
  | .add element _, _, l' => l' = l ++ [element]
  | .take, r, l' => r = l.headD 0 ∧ l' = l.tail
  | .remove element, _, l' =>
    (∃ xs ys, l = xs ++ element :: ys ∧ l' = xs ++ ys) ∨ element ∉ l ∧ l' = l

/-- All operations stay in the buffer and do what they do to a list. -/
def Fifo (q : Queue) : List QueueOp → Prop
  | [] => True
  | op :: ops => ∃ r q', q.step op = some (r, q') ∧ FifoStep q.contents op r q'.contents ∧
      Fifo q' ops

/-- An element is added if there is room for the elements with three unused ones behind
each, an element is taken if the buffer has one element, and an element is removed if
it is the first and the last one. Nothing happens to an empty queue. -/
def QueueCareful (owned : ℕ) : List UInt32 → List QueueOp → Prop
  | _, [] => True
  | l, .add element _ :: ops => 16 * l.length + 4 ≤ owned ∧ QueueCareful owned (l ++ [element]) ops
  | l, .take :: ops => (l = [] ∨ owned = 4) ∧ QueueCareful owned l.tail ops
  | l, .remove element :: ops =>
    (l = [] ∨ l.head? = some element ∧ l.getLast? = some element) ∧
      QueueCareful owned l.dropLast ops

namespace Queue

/-- The queue holds the elements of `l`, four elements apart, in a buffer on the kernel
heap. -/
structure Holds (q : Queue) (l : List UInt32) : Prop where
  heap : 0xC0800000 ≤ q.front
  fits : q.front + q.owned ≤ 2 ^ 32
  size_pos : 0 < q.size
  size_lt : q.size < 2 ^ 32
  owned : q.owned = u32 (4 * q.size)
  room : 16 * l.length ≤ q.owned + 12
  rear : q.rear + 16 = q.front + 16 * l.length
  elements : ∀ i (hi : i < l.length), q.load (q.front + 16 * i) = l[i]

variable {q q' : Queue} {l l' : List UInt32}

theorem Holds.contents (h : q.Holds l) : q.contents = l := by
  have hlen : (q.rear + 16 - q.front) / 16 = l.length := by
    rw [h.rear, Nat.add_sub_cancel_left]
    omega
  unfold Queue.contents
  rw [hlen]
  apply List.ext_getElem
  · simp
  · intro i hi hi'
    rw [List.getElem_map, List.getElem_range]
    exact h.elements i hi'

theorem Holds.isEmpty_iff (h : q.Holds l) : q.rear < q.front ↔ l = [] := by
  have hrear := h.rear
  rw [← List.length_eq_zero_iff]
  omega

/-- The buffer has as many elements as it is said to have, but for whole multiples of
`2 ^ 30`. -/
theorem Holds.owned_eq (h : q.Holds l) : q.owned = 4 * (q.size % 2 ^ 30) := by
  rw [h.owned, u32]
  omega

/-! ## `queue_add` -/

/-- The queue is never found to be full. -/
theorem Holds.not_full (h : q.Holds l) : q.rear ≠ q.element q.size := by
  have hheap := h.heap
  have hfits := h.fits
  have howned := h.owned
  have hroom := h.room
  have hrear := h.rear
  unfold element
  rw [← howned]
  unfold u32
  by_cases hwrap : q.front + 4 * q.owned < 2 ^ 32
  · rw [Nat.mod_eq_of_lt hwrap]
    omega
  · omega

theorem load_store {q : Queue} {a : ℕ} (e : UInt32) {r : ℕ} :
    ({ q with rear := r, mem := storeLE q.mem a 4 e.toNat } : Queue).load a = e := by
  have he : e.toNat < 256 ^ 4 := e.toNat_lt
  unfold load
  rw [loadLE_storeLE_of_lt he, UInt32.ofNat_toNat]

theorem load_store_of_disjoint {q : Queue} {a b : ℕ} (e : UInt32) {r : ℕ}
    (h : b + 4 ≤ a ∨ a + 4 ≤ b) :
    ({ q with rear := r, mem := storeLE q.mem a 4 e.toNat } : Queue).load b = q.load b := by
  unfold load
  rw [loadLE_storeLE_of_disjoint h.symm]

theorem Holds.add (h : q.Holds l) (e : UInt32) (np : ℕ) :
    if 16 * l.length + 4 ≤ q.owned then
      ∃ q', queueAdd q e np = some q' ∧ q'.Holds (l ++ [e]) ∧ q'.owned = q.owned
    else queueAdd q e np = none := by
  have hheap := h.heap
  have hfits := h.fits
  have hrear := h.rear
  have hroom := h.room
  have howned : q.owned ≤ 2 ^ 32 - 0xC0800000 := by omega
  have haddr : u32 (q.rear + 16) = if q.front + 16 * l.length < 2 ^ 32 then
      q.front + 16 * l.length else q.front + 16 * l.length - 2 ^ 32 := by
    rw [hrear]
    unfold u32
    split <;> omega
  unfold queueAdd
  dsimp only
  rw [if_neg h.not_full]
  by_cases hlen : 16 * l.length + 4 ≤ q.owned
  · rw [if_pos hlen]
    rw [if_pos (show q.front + 16 * l.length < 2 ^ 32 by omega)] at haddr
    have hinside : q.Inside (q.front + 16 * l.length) 4 := by
      refine Or.inr ⟨by omega, by omega⟩
    rw [haddr, if_pos hinside]
    refine ⟨_, rfl, ⟨hheap, hfits, h.size_pos, h.size_lt, h.owned, ?_, ?_, fun i hi => ?_⟩, rfl⟩
    · rw [List.length_append, List.length_singleton]
      dsimp only
      omega
    · rw [List.length_append, List.length_singleton]
      dsimp only
      omega
    · rw [List.length_append, List.length_singleton] at hi
      by_cases hold : i < l.length
      · rw [List.getElem_append_left hold]
        exact (load_store_of_disjoint (b := q.front + 16 * i) e (by omega)).trans (h.elements i hold)
      · have hi' : i = l.length := by omega
        subst hi'
        rw [List.getElem_append_right le_rfl]
        simpa using load_store e
  · rw [if_neg hlen]
    have hinside : ¬q.Inside (u32 (q.rear + 16)) 4 := by
      rw [haddr]
      unfold Inside
      split <;> omega
    rw [if_neg hinside]

/-! ## `queue_take` and `queue_remove` -/

/-- The last element is given up. -/
theorem Holds.dropLast (h : q.Holds l) (hl : l ≠ []) :
    ({ q with rear := sub32 q.rear 16 } : Queue).Holds l.dropLast := by
  have hlen := List.length_pos_iff.mpr hl
  have hheap := h.heap
  have hfits := h.fits
  have hrear := h.rear
  have hroom := h.room
  have hsub : sub32 q.rear 16 = q.rear - 16 := sub32_of_le (by omega) (by omega)
  refine ⟨hheap, hfits, h.size_pos, h.size_lt, h.owned, ?_, ?_, fun i hi => ?_⟩
  · rw [List.length_dropLast]
    dsimp only
    omega
  · rw [List.length_dropLast, hsub]
    dsimp only
    omega
  · rw [List.length_dropLast] at hi
    have hload := h.elements i (by omega)
    rw [List.getElem_dropLast, ← hload]
    unfold load
    rfl

/-- The length of the buffer less one element. -/
theorem Holds.bytes (h : q.Holds l) (hl : l ≠ []) {i : ℕ} (hi : 4 * i + 4 ≤ q.owned) :
    u32 (4 * sub32 (sub32 q.size 1) i) = q.owned - 4 - 4 * i := by
  have hpos := h.size_pos
  have hlt := h.size_lt
  have howned := h.owned
  have hroom := h.room
  have hlen := List.length_pos_iff.mpr hl
  have hsub : sub32 q.size 1 = q.size - 1 := sub32_of_le hlt hpos
  unfold u32 at howned
  have hsub' : sub32 (q.size - 1) i = q.size - 1 - i := sub32_of_le (by omega) (by omega)
  rw [hsub, hsub', u32]
  omega

theorem Holds.owned_pos (h : q.Holds l) (hl : l ≠ []) : 4 ≤ q.owned := by
  have hroom := h.room
  have hlen := List.length_pos_iff.mpr hl
  omega

/-- Where the elements behind the first one are. -/
theorem Holds.not_inside_element (h : q.Holds l) {i n : ℕ} (hn : 0 < n)
    (hend : q.owned < 16 * i + n) (hstart : 16 * i ≤ q.owned + 12) :
    ¬q.Inside (q.element i) n := by
  have hheap := h.heap
  have hfits := h.fits
  unfold Inside element u32
  omega

theorem shift_of_not_inside {src n : ℕ} (h : ¬q.Inside src n) : q.shift src n = none :=
  if_neg fun h' => h h'.1

theorem Holds.take (h : q.Holds l) (hl : l ≠ []) :
    if q.owned = 4 then
      ∃ q', queueTake q = some (l.headD 0, q') ∧ q'.Holds l.tail ∧ q'.owned = q.owned
    else queueTake q = none := by
  have hempty : ¬q.rear < q.front := fun hlt => hl (h.isEmpty_iff.mp hlt)
  have hpos := h.owned_pos hl
  have hbytes : u32 (4 * sub32 q.size 1) = q.owned - 4 := by
    have hzero : sub32 (sub32 q.size 1) 0 = sub32 q.size 1 := by
      unfold sub32 u32
      omega
    have hb := h.bytes hl (i := 0) (by omega)
    rw [hzero] at hb
    omega
  have hfront : q.Inside q.front 4 := Or.inr ⟨le_rfl, by omega⟩
  unfold queueTake
  rw [if_neg hempty, if_pos hfront, hbytes]
  by_cases hone : q.owned = 4
  · rw [if_pos hone, hone, Nat.sub_self]
    have hroom := h.room
    obtain ⟨x, xs, rfl⟩ := List.exists_cons_of_ne_nil hl
    have hxs : xs = [] := by
      rw [List.length_cons] at hroom
      exact List.length_eq_zero_iff.mp (by omega)
    subst hxs
    have hcopy : copy q.mem q.front (q.element 1) 0 = q.mem := by
      funext a
      exact copy_apply_of_lt (by omega)
    have hload : q.load q.front = x := h.elements 0 (by simp)
    unfold shift
    rw [if_pos ⟨Or.inl rfl, Or.inl rfl⟩, hcopy, Option.map_some, hload]
    exact ⟨_, rfl, h.dropLast hl, hone⟩
  · rw [if_neg hone, shift_of_not_inside, Option.map_none]
    exact h.not_inside_element (by omega) (by omega) (by omega)

theorem copy_self (m : Mem) (a n : ℕ) : copy m a a n = m := by
  funext x
  unfold copy
  split
  · rw [Nat.add_sub_cancel' (by omega)]
  · rfl

/-- An element that is not the first one is not removed without touching other bytes:
it is searched behind the end of the buffer, or the bytes behind it are copied. -/
theorem Holds.search_ne (h : q.Holds l) (hl : l ≠ []) {e : UInt32} {i n j : ℕ} (hi : 0 < i)
    (hn : i + n = q.size) (hstart : 16 * i ≤ q.owned + 12) (hs : q.search e n i = some j) :
    q.shift (q.element j) (u32 (4 * sub32 (sub32 q.size 1) j)) = none := by
  have howned := h.owned_eq
  have hlt := h.size_lt
  have hheap := h.heap
  have hfits := h.fits
  have hpos := h.owned_pos hl
  induction n generalizing i with
  | zero =>
    -- the whole buffer of one element has been searched
    rw [search, Option.some.injEq] at hs
    subst hs
    apply shift_of_not_inside
    have hbytes : u32 (4 * sub32 (sub32 q.size 1) i) = 2 ^ 32 - 4 := by
      rw [sub32_of_le hlt h.size_pos]
      unfold sub32 u32
      omega
    rw [hbytes]
    exact h.not_inside_element (by omega) (by omega) hstart
  | succ n ih =>
    rw [search] at hs
    by_cases hinside : q.Inside (q.element i) 4
    · have hend : 16 * i + 4 ≤ q.owned := by
        by_contra hend
        exact h.not_inside_element (by omega) (by omega) hstart hinside
      rw [if_pos hinside] at hs
      by_cases he : q.load (q.element i) = e
      · rw [if_pos he, Option.some.injEq] at hs
        subst hs
        apply shift_of_not_inside
        rw [h.bytes hl (by omega)]
        exact h.not_inside_element (by omega) (by omega) hstart
      · rw [if_neg he] at hs
        exact ih (by omega) (by omega) (by omega) hs
    · rw [if_neg hinside] at hs
      cases hs

theorem Holds.remove (h : q.Holds l) (hl : l ≠ []) (e : UInt32) :
    if l.head? = some e then
      ∃ q', queueRemove q e = some q' ∧ q'.Holds l.dropLast ∧ q'.owned = q.owned
    else queueRemove q e = none := by
  have hempty : ¬q.rear < q.front := fun hlt => hl (h.isEmpty_iff.mp hlt)
  have hpos := h.owned_pos hl
  have hfits := h.fits
  obtain ⟨n, hsize⟩ := Nat.exists_eq_succ_of_ne_zero h.size_pos.ne'
  have hfront : q.element 0 = q.front := by
    unfold element u32
    omega
  have hinside : q.Inside q.front 4 := Or.inr ⟨le_rfl, by omega⟩
  have hload : l.head? = some (q.load q.front) := by
    rw [List.head?_eq_getElem?, List.getElem?_eq_getElem (List.length_pos_iff.mpr hl)]
    exact congrArg some (h.elements 0 _).symm
  unfold queueRemove
  rw [if_neg hempty, hsize, search, hfront, if_pos hinside, hload, ← hsize]
  by_cases he : q.load q.front = e
  · rw [if_pos he, if_pos (congrArg some he), Option.bind_some, h.bytes hl (by omega), hfront]
    unfold shift
    rw [if_pos ⟨Or.inr ⟨le_rfl, by omega⟩, Or.inr ⟨le_rfl, by omega⟩⟩, copy_self]
    exact ⟨_, rfl, h.dropLast hl, rfl⟩
  · rw [if_neg he, if_neg fun he' => he (Option.some.inj he'), Option.bind_eq_none_iff]
    intro j hj
    exact h.search_ne hl Nat.one_pos (by omega) (by omega) hj

/-! ## Sequences of operations -/

theorem fifo_cons_of_some {op : QueueOp} {r : UInt32} (h : q.step op = some (r, q'))
    (ops : List QueueOp) :
    Fifo q (op :: ops) ↔ FifoStep q.contents op r q'.contents ∧ Fifo q' ops := by
  constructor
  · rintro ⟨r', t, ht, hstep, hfifo⟩
    rw [h, Option.some.injEq, Prod.mk.injEq] at ht
    rw [ht.1, ht.2]
    exact ⟨hstep, hfifo⟩
  · intro hfifo
    exact ⟨r, q', h, hfifo⟩

theorem not_fifo_cons_of_none {op : QueueOp} (h : q.step op = none) (ops : List QueueOp) :
    ¬Fifo q (op :: ops) := by
  rintro ⟨r, t, ht, -⟩
  rw [h] at ht
  cases ht

/-- Giving up the last element deletes `e` if and only if it is the last element. -/
theorem deletes_dropLast_iff {e : UInt32} (hl : l ≠ []) (hmem : e ∈ l) :
    ((∃ xs ys, l = xs ++ e :: ys ∧ l.dropLast = xs ++ ys) ∨ e ∉ l ∧ l.dropLast = l) ↔
      l.getLast? = some e := by
  rw [or_iff_left fun h => h.1 hmem]
  have hlast := List.dropLast_append_getLast hl
  rw [List.getLast?_eq_some_getLast hl, Option.some.injEq]
  constructor
  · rintro ⟨xs, ys, hxs, hys⟩
    have hperm : (l.getLast hl :: l.dropLast).Perm (e :: l.dropLast) := by
      calc (l.getLast hl :: l.dropLast).Perm (l.dropLast ++ [l.getLast hl]) :=
            (List.perm_append_singleton ..).symm
        _ = xs ++ e :: ys := by rw [hlast, hxs]
        (xs ++ e :: ys).Perm (e :: (xs ++ ys)) := List.perm_middle
        _ = e :: l.dropLast := by rw [hys]
    have hcons : l.getLast hl ::ₘ (l.dropLast : Multiset UInt32) = e ::ₘ l.dropLast :=
      Multiset.coe_eq_coe.mpr hperm
    exact (Multiset.cons_inj_left _).mp hcons
  · rintro rfl
    exact ⟨l.dropLast, [], hlast.symm, (List.append_nil _).symm⟩

theorem Holds.fifo_iff (h : q.Holds l) (ops : List QueueOp) :
    Fifo q ops ↔ QueueCareful q.owned l ops := by
  induction ops generalizing q l with
  | nil => exact Iff.rfl
  | cons op ops ih =>
    cases op with
    | add e np =>
      have hadd := h.add e np
      rw [QueueCareful]
      split at hadd
      · rename_i hroom
        obtain ⟨q', hq', hholds, howned⟩ := hadd
        have hstep : q.step (.add e np) = some (0, q') := by rw [step, hq']; rfl
        rw [fifo_cons_of_some hstep, ih hholds, h.contents, hholds.contents, howned]
        exact and_congr_left fun _ => iff_of_true rfl hroom
      · rename_i hroom
        have hstep : q.step (.add e np) = none := by rw [step, hadd]; rfl
        exact iff_of_false (not_fifo_cons_of_none hstep ops) fun hc => hroom hc.1
    | take =>
      rw [QueueCareful]
      by_cases hl : l = []
      · have hstep : q.step .take = some (0, q) := if_pos (h.isEmpty_iff.mpr hl)
        subst hl
        rw [fifo_cons_of_some hstep, ih h, h.contents]
        exact and_congr_left fun _ => iff_of_true ⟨rfl, rfl⟩ (Or.inl rfl)
      · have htake := h.take hl
        rw [or_iff_right hl]
        split at htake
        · rename_i hone
          obtain ⟨q', hq', hholds, howned⟩ := htake
          have hstep : q.step .take = some (l.headD 0, q') := hq'
          rw [fifo_cons_of_some hstep, ih hholds, h.contents, hholds.contents, howned]
          exact and_congr_left fun _ => iff_of_true ⟨rfl, rfl⟩ hone
        · rename_i hone
          have hstep : q.step .take = none := htake
          exact iff_of_false (not_fifo_cons_of_none hstep ops) fun hc => hone hc.1
    | remove e =>
      rw [QueueCareful]
      by_cases hl : l = []
      · have hstep : q.step (.remove e) = some (0, q) := by
          rw [step, queueRemove, if_pos (h.isEmpty_iff.mpr hl)]
          rfl
        subst hl
        rw [fifo_cons_of_some hstep, ih h, h.contents]
        exact and_congr_left fun _ => iff_of_true (Or.inr ⟨List.not_mem_nil, rfl⟩) (Or.inl rfl)
      · have hremove := h.remove hl e
        rw [or_iff_right hl]
        split at hremove
        · rename_i hhead
          obtain ⟨q', hq', hholds, howned⟩ := hremove
          have hstep : q.step (.remove e) = some (0, q') := by rw [step, hq']; rfl
          rw [fifo_cons_of_some hstep, ih hholds, h.contents, hholds.contents, howned]
          refine and_congr_left fun _ => ?_
          rw [and_iff_right hhead]
          exact deletes_dropLast_iff hl (List.mem_of_mem_head? hhead)
        · rename_i hhead
          have hstep : q.step (.remove e) = none := by rw [step, hremove]; rfl
          exact iff_of_false (not_fifo_cons_of_none hstep ops) fun hc => hhead hc.1.1

end Queue

theorem queueInit_holds {size front : ℕ} {mem : Mem} (hsize : 0 < size) (hlt : size < 2 ^ 32)
    (hfront : 0xC0800000 ≤ front) (hfits : front + u32 (4 * size) ≤ 2 ^ 32) :
    (queueInit size front mem).Holds [] := by
  refine ⟨hfront, hfits, hsize, hlt, rfl, Nat.zero_le _, ?_, fun i hi => absurd hi (by simp)⟩
  change sub32 front 16 + 16 = front + 16 * 0
  unfold sub32 u32
  omega

/-- A new queue, its buffer being on the kernel heap, is a FIFO list for a sequence of
operations if and only if every operation of the sequence is careful. -/
theorem queue_fifo_iff_careful (size front : ℕ) (mem : Mem) (ops : List QueueOp) (hsize : 0 < size)
    (hlt : size < 2 ^ 32) (hfront : 0xC0800000 ≤ front)
    (hfits : front + u32 (4 * size) ≤ 2 ^ 32) :
    Fifo (queueInit size front mem) ops ↔ QueueCareful (u32 (4 * size)) [] ops :=
  (queueInit_holds hsize hlt hfront hfits).fifo_iff ops

/-- A queue of one element: what is added is taken again, and an empty queue has
nothing to take or to remove. -/
theorem queue_fifo_one_element :
    Fifo (queueInit 1 0xC0800010 fun _ => 0) [.take, .add 5 0, .take, .add 6 0, .remove 6, .remove 6] :=
  (queue_fifo_iff_careful 1 0xC0800010 _ _ (by decide) (by decide) (by decide) (by decide)).mpr
    ⟨Or.inl rfl, by decide, Or.inr (by decide), by decide, Or.inr ⟨rfl, rfl⟩, Or.inl rfl, trivial⟩

/-- In a queue of ten elements, as the ready queue is one, the first `queue_take` reads
behind the buffer. -/
theorem queue_take_outside : ¬Fifo (queueInit 10 0xC0800010 fun _ => 0) [.add 5 0, .take] := by
  have hholds : (queueInit 10 0xC0800010 fun _ => 0).Holds [] :=
    queueInit_holds (by decide) (by decide) (by decide) (by decide)
  rw [hholds.fifo_iff]
  intro hcareful
  have htake : [(5 : UInt32)] = [] ∨ u32 (4 * 10) = 4 := hcareful.2.1
  revert htake
  decide

end VkKernel
