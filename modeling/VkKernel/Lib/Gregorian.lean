import Mathlib.Algebra.BigOperators.Fin
import Mathlib.Algebra.BigOperators.Intervals
import Mathlib.Algebra.Order.BigOperators.Group.Finset
import Mathlib.Tactic.Ring

/-!
# The Gregorian calendar

Dates and times of day from 1970 on, and the seconds since the first one. The count takes
different values at different dates.
-/

namespace Gregorian

/-! ## Places in a row of intervals -/

/-- Neighbouring intervals of the lengths `f`, up to number `n`. -/
def upTo (f : ℕ → ℕ) (n : ℕ) : ℕ := ∑ k ∈ Finset.range n, f k

theorem upTo_succ (f : ℕ → ℕ) (n : ℕ) : upTo f (n + 1) = upTo f n + f n :=
  Finset.sum_range_succ f n

theorem upTo_mono (f : ℕ → ℕ) {m n : ℕ} (h : m ≤ n) : upTo f m ≤ upTo f n := by
  apply Finset.sum_le_sum_of_subset
  exact Finset.range_mono h

/-- A place in one interval is in no other. -/
theorem upTo_lt_of_lt (f : ℕ → ℕ) {m n x y : ℕ} (h : m < n) (hx : x < f m) : upTo f m + x < upTo f n + y := by
  have hsucc := upTo_succ f m
  have hmono := upTo_mono f (Nat.succ_le_of_lt h)
  simp only [Nat.succ_eq_add_one] at hmono
  omega

theorem upTo_inj (f : ℕ → ℕ) {m n x y : ℕ} (hx : x < f m) (hy : y < f n)
    (h : upTo f m + x = upTo f n + y) : m = n ∧ x = y := by
  have hmn : m = n := by
    apply le_antisymm
    · by_contra hlt
      have := upTo_lt_of_lt (y := x) f (not_le.mp hlt) hy
      omega
    · by_contra hlt
      have := upTo_lt_of_lt (y := y) f (not_le.mp hlt) hx
      omega
  subst hmn
  exact ⟨rfl, by omega⟩

/-! ## Dates -/

/-- The years with a 29 February. -/
def IsLeap (year : ℕ) : Prop := 4 ∣ year ∧ (¬100 ∣ year ∨ 400 ∣ year)

instance (year : ℕ) : Decidable (IsLeap year) := inferInstanceAs (Decidable (_ ∧ _))

def yearLength (year : ℕ) : ℕ := if IsLeap year then 366 else 365

/-- The days of a month, from 1 for January on. -/
def monthLength (year month : ℕ) : ℕ :=
  if month = 2 then if IsLeap year then 29 else 28
  else if month = 4 ∨ month = 6 ∨ month = 9 ∨ month = 11 then 30 else 31

structure DateTime where
  year : ℕ
  month : ℕ
  day : ℕ
  hour : ℕ
  minute : ℕ
  second : ℕ
deriving DecidableEq, Repr

namespace DateTime

structure Valid (d : DateTime) : Prop where
  year : 1970 ≤ d.year
  month : 1 ≤ d.month ∧ d.month ≤ 12
  day : 1 ≤ d.day ∧ d.day ≤ monthLength d.year d.month
  hour : d.hour < 24
  minute : d.minute < 60
  second : d.second < 60

/-- The days of the years before a year. -/
def yearDays (year : ℕ) : ℕ := upTo (fun k => yearLength (1970 + k)) (year - 1970)

/-- The days of the months before a month. -/
def monthDays (year month : ℕ) : ℕ := upTo (fun k => monthLength year (k + 1)) (month - 1)

/-- The days since 1 January 1970. -/
def days (d : DateTime) : ℕ := yearDays d.year + (monthDays d.year d.month + (d.day - 1))

/-- The seconds since the start of 1970. -/
def seconds (d : DateTime) : ℕ := ((d.days * 24 + d.hour) * 60 + d.minute) * 60 + d.second

theorem monthDays_thirteen (year : ℕ) : monthDays year 13 = yearLength year := by
  unfold monthDays upTo yearLength
  simp only [Nat.reduceSub, Finset.sum_range_succ, Finset.sum_range_zero]
  by_cases h : IsLeap year
  · simp [monthLength, h]
  · simp [monthLength, h]

/-- A day of a month is in its year. -/
theorem Valid.day_lt {d : DateTime} (h : d.Valid) : monthDays d.year d.month + (d.day - 1) < yearLength d.year := by
  have hday := h.day
  have hmonth := h.month
  have hlt := upTo_lt_of_lt (fun k => monthLength d.year (k + 1)) (m := d.month - 1) (n := 12)
    (x := d.day - 1) (y := 0) (by omega) (by
      rw [Nat.sub_add_cancel hmonth.1]
      omega)
  rw [← monthDays_thirteen]
  exact hlt

/-- The count determines the date and the time. -/
theorem seconds_inj {d e : DateTime} (hd : d.Valid) (he : e.Valid) (h : d.seconds = e.seconds) : d = e := by
  have hdays : d.days = e.days ∧ d.hour = e.hour ∧ d.minute = e.minute ∧ d.second = e.second := by
    unfold seconds at h
    have := hd.hour
    have := hd.minute
    have := hd.second
    have := he.hour
    have := he.minute
    have := he.second
    omega
  have hyear : ∀ {c : DateTime}, c.Valid → monthDays c.year c.month + (c.day - 1) <
      yearLength (1970 + (c.year - 1970)) := by
    intro c hc
    rw [Nat.add_sub_cancel' hc.year]
    exact hc.day_lt
  have hplace := upTo_inj (fun k => yearLength (1970 + k)) (hyear hd) (hyear he) hdays.1
  have hy : d.year = e.year := by
    have := hd.year
    have := he.year
    omega
  have hmonth : ∀ {c : DateTime}, c.Valid → c.day - 1 < monthLength c.year (c.month - 1 + 1) := by
    intro c hc
    rw [Nat.sub_add_cancel hc.month.1]
    have := hc.day
    omega
  have hrest := hplace.2
  unfold monthDays at hrest
  have hmd := hmonth hd
  rw [hy] at hrest hmd
  have hm := upTo_inj (fun k => monthLength e.year (k + 1)) hmd (hmonth he) hrest
  have hdm := hd.month
  have hem := he.month
  have hdd := hd.day
  have hed := he.day
  cases d
  cases e
  simp only [mk.injEq]
  simp only at *
  omega

/-- From 1970 to 2099 every fourth year is a leap year. -/
theorem yearDays_eq {year : ℕ} (h : 1970 ≤ year) (h' : year ≤ 2100) :
    yearDays year = 365 * (year - 1970) + (year - 1969) / 4 := by
  obtain ⟨n, rfl⟩ := Nat.exists_eq_add_of_le h
  unfold yearDays
  rw [Nat.add_sub_cancel_left]
  induction n with
  | zero => rfl
  | succ n ih =>
    rw [upTo_succ, ih (by omega) (by omega)]
    unfold yearLength
    by_cases hleap : IsLeap (1970 + n)
    · rw [if_pos hleap]
      unfold IsLeap at hleap
      omega
    · rw [if_neg hleap]
      unfold IsLeap at hleap
      omega

end DateTime

end Gregorian
