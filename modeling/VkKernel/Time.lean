import Mathlib.Tactic.IntervalCases
import VkKernel.Lib.Gregorian

/-!
# Time

`convert_to_readable_time` counts in the 1461 days of four years from 1900 on, and
`convert_to_std_time` adds up months and years. The second tests the years since 1900 for leap
years, where 2000 is the year 100.
-/

namespace VkKernel
open Gregorian

/-- `monthdays`, for a leap year. -/
def monthdays : List ℤ := [31, 29, 31, 30, 31, 30, 31, 31, 30, 31, 30, 31]

/-- A number that is stored in a `u8`. -/
def u8 (z : ℤ) : ℕ := (z % 256).toNat

/-- What `convert_to_readable_time` stores through its pointers. The year is counted from 1900. -/
structure ReadableTime where
  seconds : ℕ
  minutes : ℕ
  hour : ℕ
  day : ℕ
  month : ℕ
  year : ℕ
deriving DecidableEq, Repr

/-- The loop over the months, with those of `monthdays` that are left. There is no result when the
index is past December. -/
def monthLoop : List ℤ → ℤ → ℕ → Option (ℤ × ℕ)
  | [], _, _ => none
  | days :: rest, time, month =>
    if time ≥ days then monthLoop rest (time - days) (month + 1) else some (time, month)

def convertToReadableTime (time : ℤ) : Option ReadableTime :=
  let seconds := u8 (time.tmod 60)
  let time := time.tdiv 60
  let minutes := u8 (time.tmod 60)
  let time := time.tdiv 60
  let hour := u8 (time.tmod 24)
  let time := time.tdiv 24
  let time := time + 25568
  let year := u8 (time.tdiv 1461 * 4)
  let time := time.tmod 1461
  let (year, time) := if time > 365 then (u8 (year + (time - 1).tdiv 365), (time - 1).tmod 365)
    else (year, time)
  let time := if year % 4 ≠ 0 ∧ time ≥ 59 then time + 1 else time
  match monthLoop monthdays time 0 with
  | none => none
  | some (time, month) => some ⟨seconds, minutes, hour, u8 (time + 1), month + 1, year⟩

/-- The cases of the `switch` over the months, which fall through. -/
def monthCase (year : ℕ) : ℕ → ℤ
  | 11 => 30 * 86400
  | 10 => 31 * 86400
  | 9 => 30 * 86400
  | 8 => 31 * 86400
  | 7 => 31 * 86400
  | 6 => 30 * 86400
  | 5 => 31 * 86400
  | 4 => 30 * 86400
  | 3 => 31 * 86400
  | 2 => 28 * 86400 + if year % 4 = 0 ∧ (year % 100 ≠ 0 ∨ year % 400 = 0) then 86400 else 0
  | 1 => 31 * 86400
  | _ => 0

/-- From case `month` down to the last one. -/
def monthSwitch (year : ℕ) : ℕ → ℤ
  | 0 => 0
  | month + 1 => monthCase year (month + 1) + monthSwitch year month

/-- `while (years > 1969)`, for `years` that many years after 1969. -/
def yearLoop : ℕ → ℤ
  | 0 => 0
  | n + 1 =>
    let years := 1969 + (n + 1)
    365 * 86400 + (if years % 4 = 0 then
      if years % 100 = 0 then if years % 400 = 0 then 86400 else 0 else 86400
    else 0) + yearLoop n

/-- The sum wraps as an `int32_t`. -/
def convertToStdTime (r : ReadableTime) : ℤ :=
  let tr : ℤ := r.seconds + 60 * r.minutes + 3600 * r.hour + 86400 * ((r.day : ℤ) - 1)
  let years := 1900 + r.year - 1
  let month := u8 (r.month - 1)
  let tr := tr + if month ≤ 11 then monthSwitch r.year month else 0
  (tr + yearLoop (years - 1969)).bmod (2 ^ 32)

/-- The date in the calendar. -/
def ReadableTime.dateTime (r : ReadableTime) : DateTime :=
  ⟨r.year + 1900, r.month, r.day, r.hour, r.minutes, r.seconds⟩

/-! ## From seconds to dates -/

theorem u8_of_nonneg {z : ℤ} (h : 0 ≤ z) (h' : z < 256) : (u8 z : ℤ) = z := by
  unfold u8
  rw [Int.emod_eq_of_lt h h', Int.toNat_of_nonneg h]

/-- The month that the loop finds. -/
theorem monthLoop_spec {ds : List ℤ} {time : ℤ} {month : ℕ} (h : 0 ≤ time) (hlt : time < ds.sum) :
    ∃ i < ds.length, ∃ rest, monthLoop ds time month = some (rest, month + i) ∧
      time = (ds.take i).sum + rest ∧ 0 ≤ rest ∧ rest < ds.getD i 0 := by
  induction ds generalizing time month with
  | nil =>
    rw [List.sum_nil] at hlt
    omega
  | cons days ds ih =>
    rw [List.sum_cons] at hlt
    rw [monthLoop]
    by_cases hd : time ≥ days
    · obtain ⟨i, hi, rest, hloop, hsum, hrest, hrest'⟩ :=
        @ih (time - days) (month + 1) (by omega) (by omega)
      refine ⟨i + 1, by simpa using hi, rest, ?_, ?_, hrest, ?_⟩
      · rw [if_pos hd, hloop, Nat.add_right_comm, Nat.add_assoc]
      · rw [List.take_succ_cons, List.sum_cons]
        omega
      · rwa [List.getD_cons_succ]
    · refine ⟨0, by simp, time, ?_, ?_, h, ?_⟩
      · rw [if_neg hd, Nat.add_zero]
      · rw [List.take_zero, List.sum_nil, zero_add]
      · rw [List.getD_cons_zero]
        omega

/-- The day `day` of a year, from 0 on, in the numbering of a leap year. -/
def leapDay (year : ℕ) (day : ℤ) : ℤ := if ¬IsLeap year ∧ day ≥ 59 then day + 1 else day

/-- The loop finds the month and the day of the calendar. -/
theorem monthLoop_leapDay {year : ℕ} {day : ℤ} (h : 0 ≤ day) (hlt : day < yearLength year) :
    ∃ i rest, monthLoop monthdays (leapDay year day) 0 = some (rest, i) ∧ i < 12 ∧ 0 ≤ rest ∧
      rest < monthLength year (i + 1) ∧ day = DateTime.monthDays year (i + 1) + rest := by
  have hbounds : 0 ≤ leapDay year day ∧ leapDay year day < 366 := by
    unfold leapDay
    unfold yearLength at hlt
    by_cases hleap : IsLeap year
    · rw [if_pos hleap] at hlt
      rw [if_neg (by tauto)]
      omega
    · rw [if_neg hleap] at hlt
      split_ifs <;> omega
  obtain ⟨i, hi, rest, hloop, hsum, hrest, hrest'⟩ :=
    @monthLoop_spec monthdays (leapDay year day) 0 hbounds.1 (lt_of_lt_of_eq hbounds.2 rfl)
  rw [Nat.zero_add] at hloop
  refine ⟨i, rest, hloop, hi, hrest, ?_⟩
  have hi' : i < 12 := hi
  unfold leapDay at hsum
  -- the months, each in a leap year and in another year
  by_cases hleap : IsLeap year
  · rw [if_neg (by tauto)] at hsum
    interval_cases i <;>
      simp [monthdays, monthLength, hleap, DateTime.monthDays, upTo, Finset.sum_range_succ] at * <;> omega
  · interval_cases i <;>
      simp [monthdays, monthLength, hleap, DateTime.monthDays, upTo, Finset.sum_range_succ] at * <;>
      split_ifs at hsum <;> omega

/-- The year and its day that the cycle of 1461 days gives. -/
theorem cycle_spec {n : ℤ} (h : 0 ≤ n) (hlt : n < 24856) :
    ∃ year : ℕ, ∃ day : ℤ, 1970 ≤ year ∧ year ≤ 2038 ∧ 0 ≤ day ∧ day < yearLength year ∧
      n = DateTime.yearDays year + day ∧
      (if (n + 25568).tmod 1461 > 365 then
        (u8 (u8 ((n + 25568).tdiv 1461 * 4) + ((n + 25568).tmod 1461 - 1).tdiv 365),
          ((n + 25568).tmod 1461 - 1).tmod 365)
      else (u8 ((n + 25568).tdiv 1461 * 4), (n + 25568).tmod 1461)) = (year - 1900, day) := by
  have hleap : ∀ year, 1970 ≤ year → year ≤ 2038 → (IsLeap year ↔ year % 4 = 0) := by
    intro year _ _
    unfold IsLeap
    omega
  rw [Int.tdiv_eq_ediv_of_nonneg (by omega), Int.tmod_eq_emod_of_nonneg (by omega)]
  obtain ⟨c, hc⟩ := Int.eq_ofNat_of_zero_le (show 0 ≤ (n + 25568) / 1461 by omega)
  have hcycle : (u8 ((n + 25568) / 1461 * 4) : ℤ) = c * 4 := by
    rw [hc]
    exact u8_of_nonneg (by omega) (by omega)
  by_cases hfirst : (n + 25568) % 1461 > 365
  · -- one of the three years of 365 days
    have hpos : 0 ≤ (n + 25568) % 1461 - 1 := by omega
    rw [if_pos hfirst, Int.tdiv_eq_ediv_of_nonneg hpos, Int.tmod_eq_emod_of_nonneg hpos]
    obtain ⟨q, hq⟩ := Int.eq_ofNat_of_zero_le (show 0 ≤ ((n + 25568) % 1461 - 1) / 365 by omega)
    have hyear : (u8 (u8 ((n + 25568) / 1461 * 4) + ((n + 25568) % 1461 - 1) / 365) : ℤ) = c * 4 + q := by
      rw [hcycle, hq]
      exact u8_of_nonneg (by omega) (by omega)
    refine ⟨1900 + (4 * c + q), ((n + 25568) % 1461 - 1) % 365, by omega, by omega, ?_, ?_, ?_, ?_⟩
    · exact Int.emod_nonneg _ (by norm_num)
    · unfold yearLength
      rw [if_neg (by rw [hleap _ (by omega) (by omega)]; omega)]
      omega
    · rw [DateTime.yearDays_eq (by omega) (by omega)]
      omega
    · simp only [Prod.mk.injEq, and_true]
      omega
  · rw [if_neg hfirst]
    refine ⟨1900 + 4 * c, (n + 25568) % 1461, by omega, by omega, ?_, ?_, ?_, ?_⟩
    · exact Int.emod_nonneg _ (by norm_num)
    · unfold yearLength
      rw [if_pos (by rw [hleap _ (by omega) (by omega)]; omega)]
      omega
    · rw [DateTime.yearDays_eq (by omega) (by omega)]
      omega
    · simp only [Prod.mk.injEq, and_true]
      omega

/-- The result is a date of the calendar, and its seconds are the given ones. -/
theorem convertToReadableTime_spec {t : ℤ} (h : 0 ≤ t) (h' : t < 2 ^ 31) :
    ∃ r, convertToReadableTime t = some r ∧ r.dateTime.Valid ∧ r.dateTime.seconds = t ∧ r.year ≤ 138 := by
  obtain ⟨year, day, hyear, hyear', hday, hday', hn, hcycle⟩ :=
    cycle_spec (n := t / 60 / 60 / 24) (by omega) (by omega)
  obtain ⟨i, rest, hloop, hi, hrest, hrest', hsum⟩ := monthLoop_leapDay hday hday'
  have hsecond := u8_of_nonneg (show 0 ≤ t % 60 by omega) (by omega)
  have hminute := u8_of_nonneg (show 0 ≤ t / 60 % 60 by omega) (by omega)
  have hhour := u8_of_nonneg (show 0 ≤ t / 60 / 60 % 24 by omega) (by omega)
  have hlength : monthLength year (i + 1) ≤ 31 := by
    unfold monthLength
    split_ifs <;> norm_num
  have hdayOf := u8_of_nonneg (show 0 ≤ rest + 1 by omega) (by omega)
  -- the skipped 29 February
  have hskip : (if (year - 1900) % 4 ≠ 0 ∧ day ≥ 59 then day + 1 else day) = leapDay year day := by
    have hleap : IsLeap year ↔ (year - 1900) % 4 = 0 := by
      unfold IsLeap
      omega
    simp only [leapDay, hleap, ne_eq]
  refine ⟨⟨u8 (t % 60), u8 (t / 60 % 60), u8 (t / 60 / 60 % 24), u8 (rest + 1), i + 1, year - 1900⟩,
    ?_, ?_, ?_, ?_⟩
  · unfold convertToReadableTime
    dsimp only
    rw [Int.tmod_eq_emod_of_nonneg h, Int.tdiv_eq_ediv_of_nonneg h,
      Int.tmod_eq_emod_of_nonneg (show 0 ≤ t / 60 by omega),
      Int.tdiv_eq_ediv_of_nonneg (show 0 ≤ t / 60 by omega),
      Int.tmod_eq_emod_of_nonneg (show 0 ≤ t / 60 / 60 by omega),
      Int.tdiv_eq_ediv_of_nonneg (show 0 ≤ t / 60 / 60 by omega), hcycle]
    dsimp only
    rw [hskip, hloop]
  · constructor
    all_goals unfold ReadableTime.dateTime
    all_goals dsimp only
    · omega
    · omega
    · rw [Nat.sub_add_cancel (by omega)]
      omega
    · omega
    · omega
    · omega
  · unfold ReadableTime.dateTime DateTime.seconds DateTime.days
    dsimp only
    rw [Nat.sub_add_cancel (by omega)]
    push_cast
    omega
  · dsimp only
    omega

/-- `convert_to_readable_time` gives the date and the time of the Gregorian calendar, and no other
date has as many seconds. -/
theorem convertToReadableTime_gregorian {t : ℤ} (h : 0 ≤ t) (h' : t < 2 ^ 31) :
    ∃ r, convertToReadableTime t = some r ∧ r.dateTime.Valid ∧ r.dateTime.seconds = t ∧
      ∀ d : DateTime, d.Valid → (d.seconds : ℤ) = t → d = r.dateTime := by
  obtain ⟨r, hr, hvalid, hseconds, -⟩ := convertToReadableTime_spec h h'
  refine ⟨r, hr, hvalid, hseconds, fun d hd hds => ?_⟩
  apply DateTime.seconds_inj hd hvalid
  omega

/-- Leap day of the year 2000. -/
theorem convertToReadableTime_gregorian_leap_day :
    convertToReadableTime 951782400 = some ⟨0, 0, 0, 29, 2, 100⟩ ∧
      ∃ r, convertToReadableTime 951782400 = some r ∧ r.dateTime.Valid ∧ r.dateTime.seconds = (951782400 : ℤ) ∧
        ∀ d : DateTime, d.Valid → (d.seconds : ℤ) = 951782400 → d = r.dateTime :=
  ⟨by decide, convertToReadableTime_gregorian (by norm_num) (by norm_num)⟩

/-! ## From dates to seconds -/

/-- The loop over the years counts their days. -/
theorem yearLoop_eq (n : ℕ) : yearLoop n = 86400 * (DateTime.yearDays (1970 + n) : ℤ) := by
  induction n with
  | zero => rfl
  | succ n ih =>
    have hdays : DateTime.yearDays (1970 + (n + 1)) = DateTime.yearDays (1970 + n) + yearLength (1970 + n) := by
      unfold DateTime.yearDays
      rw [Nat.add_sub_cancel_left, Nat.add_sub_cancel_left, upTo_succ]
    have hlength : (365 * 86400 + (if (1969 + (n + 1)) % 4 = 0 then
        if (1969 + (n + 1)) % 100 = 0 then if (1969 + (n + 1)) % 400 = 0 then 86400 else 0 else 86400
      else 0) : ℤ) = 86400 * (yearLength (1970 + n) : ℤ) := by
      unfold yearLength
      by_cases hleap : IsLeap (1970 + n)
      · rw [if_pos hleap]
        unfold IsLeap at hleap
        split_ifs <;> omega
      · rw [if_neg hleap]
        unfold IsLeap at hleap
        split_ifs <;> omega
    rw [yearLoop, ih, hdays, hlength]
    push_cast
    ring

/-- The year 2000 is no leap year for the cases of the `switch`. -/
theorem monthSwitch_eq {year i : ℕ} (h : 70 ≤ year) (h' : year ≤ 138) (hi : i < 12) :
    monthSwitch year i = 86400 * (DateTime.monthDays (year + 1900) (i + 1) : ℤ) -
      if year = 100 ∧ 2 ≤ i then 86400 else 0 := by
  have hcase : (if year % 4 = 0 ∧ (year % 100 ≠ 0 ∨ year % 400 = 0) then 86400 else 0 : ℤ) =
      (if IsLeap (year + 1900) then 86400 else 0) - if year = 100 then 86400 else 0 := by
    unfold IsLeap
    split_ifs <;> omega
  by_cases hleap : IsLeap (year + 1900)
  · rw [if_pos hleap] at hcase
    interval_cases i <;>
      simp [monthSwitch, monthCase, hcase, monthLength, hleap, DateTime.monthDays, upTo, Finset.sum_range_succ] <;>
      ring
  · rw [if_neg hleap] at hcase
    interval_cases i <;>
      simp [monthSwitch, monthCase, hcase, monthLength, hleap, DateTime.monthDays, upTo, Finset.sum_range_succ] <;>
      ring

/-- `convert_to_std_time` loses a day behind February 2000. -/
theorem convertToStdTime_eq {r : ReadableTime} (h : r.dateTime.Valid) (hyear : r.year ≤ 138)
    (hsmall : (r.dateTime.seconds : ℤ) < 2 ^ 31) :
    convertToStdTime r = r.dateTime.seconds - if r.year = 100 ∧ 3 ≤ r.month then 86400 else 0 := by
  have hyear0 : 70 ≤ r.year := by
    have := h.year
    unfold ReadableTime.dateTime at this
    dsimp only at this
    omega
  obtain ⟨hmonth, hmonth'⟩ := h.month
  obtain ⟨hday, -⟩ := h.day
  unfold ReadableTime.dateTime at hmonth hmonth' hday
  dsimp only at hmonth hmonth' hday
  have hindex : u8 (r.month - 1) = r.month - 1 := by
    have := u8_of_nonneg (z := (r.month : ℤ) - 1) (by omega) (by omega)
    omega
  have hswitch := monthSwitch_eq hyear0 hyear (i := r.month - 1) (by omega)
  have hloop := yearLoop_eq (1900 + r.year - 1 - 1969)
  rw [Nat.sub_add_cancel hmonth] at hswitch
  rw [show 1970 + (1900 + r.year - 1 - 1969) = r.year + 1900 by omega] at hloop
  have hcond : (r.year = 100 ∧ 2 ≤ r.month - 1) ↔ (r.year = 100 ∧ 3 ≤ r.month) := by omega
  rw [if_congr hcond rfl rfl] at hswitch
  have hsum : (r.seconds : ℤ) + 60 * r.minutes + 3600 * r.hour + 86400 * ((r.day : ℤ) - 1) +
      monthSwitch r.year (r.month - 1) + yearLoop (1900 + r.year - 1 - 1969) =
      r.dateTime.seconds - if r.year = 100 ∧ 3 ≤ r.month then 86400 else 0 := by
    rw [hswitch, hloop]
    unfold ReadableTime.dateTime DateTime.seconds DateTime.days
    push_cast [Nat.cast_sub hday]
    ring
  have hlarge : (0 : ℤ) ≤ r.dateTime.seconds := Int.natCast_nonneg _
  unfold convertToStdTime
  dsimp only
  rw [hindex, if_pos (by omega), hsum]
  apply Int.bmod_eq_of_le
  · split_ifs <;> omega
  · split_ifs <;> omega

/-- The year 2000 from March on. -/
theorem march2000_iff {d : DateTime} (h : d.Valid) :
    (d.year = 2000 ∧ 3 ≤ d.month) ↔ 951868800 ≤ d.seconds ∧ d.seconds < 978307200 := by
  have hdays : (951868800 ≤ d.seconds ∧ d.seconds < 978307200) ↔ (11017 ≤ d.days ∧ d.days < 11323) := by
    have := h.hour
    have := h.minute
    have := h.second
    unfold DateTime.seconds
    omega
  have hstart : DateTime.yearDays 2000 = 10957 := DateTime.yearDays_eq (by norm_num) (by norm_num)
  have hend : DateTime.yearDays 2001 = 11323 := DateTime.yearDays_eq (by norm_num) (by norm_num)
  have hmarch : DateTime.monthDays 2000 3 = 60 := by decide
  have hin := h.day_lt
  rw [hdays]
  constructor
  · intro hd
    have hlater : DateTime.monthDays 2000 3 ≤ DateTime.monthDays 2000 d.month := by
      apply upTo_mono
      omega
    have hlength : yearLength 2000 = 366 := by decide
    unfold DateTime.days
    rw [hd.1] at hin ⊢
    omega
  · intro hd
    have hyear := h.year
    have hplace : ∀ y, 1970 ≤ y → d.year < y → d.days < DateTime.yearDays y := by
      intro y hy hlt
      have hlt' := upTo_lt_of_lt (fun k => yearLength (1970 + k)) (m := d.year - 1970) (n := y - 1970)
        (x := DateTime.monthDays d.year d.month + (d.day - 1)) (y := 0) (by omega) (by
          rw [Nat.add_sub_cancel' hyear]
          exact hin)
      rwa [Nat.add_zero] at hlt'
    have hnotBefore : ¬d.year < 2000 := fun hlt => by
      have := hplace 2000 (by norm_num) hlt
      omega
    have hnotAfter : ¬2000 < d.year := fun hlt => by
      have hmono : DateTime.yearDays 2001 ≤ DateTime.yearDays d.year := by
        apply upTo_mono
        omega
      have hle : DateTime.yearDays d.year ≤ d.days := Nat.le_add_right _ _
      omega
    have hd2000 : d.year = 2000 := by omega
    refine ⟨hd2000, ?_⟩
    by_contra hlt
    -- January and February
    have hmonth := h.month
    have hday := h.day
    rw [hd2000] at hday
    have hbefore := upTo_lt_of_lt (fun k => monthLength 2000 (k + 1)) (m := d.month - 1) (n := 2)
      (x := d.day - 1) (y := 0) (by omega) (by
        rw [Nat.sub_add_cancel hmonth.1]
        omega)
    have hbefore' : DateTime.monthDays 2000 d.month + (d.day - 1) < 60 := hbefore
    have hsum : d.days = DateTime.yearDays 2000 + (DateTime.monthDays 2000 d.month + (d.day - 1)) := by
      rw [DateTime.days, hd2000]
    omega

/-- The conversions fit together except from March to December 2000. -/
theorem convert_roundTrip_iff {t : ℤ} (h : 0 ≤ t) (h' : t < 2 ^ 31) :
    (convertToReadableTime t).map convertToStdTime = some t ↔ ¬(951868800 ≤ t ∧ t < 978307200) := by
  obtain ⟨r, hr, hvalid, hseconds, hyear⟩ := convertToReadableTime_spec h h'
  have hmarch := march2000_iff hvalid
  have hdate : (r.dateTime.year = 2000 ∧ 3 ≤ r.dateTime.month) ↔ r.year = 100 ∧ 3 ≤ r.month := by
    unfold ReadableTime.dateTime
    dsimp only
    omega
  rw [hdate] at hmarch
  have hrange : (951868800 ≤ t ∧ t < 978307200) ↔ r.year = 100 ∧ 3 ≤ r.month := by
    rw [hmarch]
    omega
  rw [hr, Option.map_some, Option.some_inj, convertToStdTime_eq hvalid hyear (by omega), hseconds, hrange]
  by_cases hlost : r.year = 100 ∧ 3 ≤ r.month
  · rw [if_pos hlost]
    simp only [hlost, and_self, not_true_eq_false, iff_false]
    omega
  · rw [if_neg hlost, sub_zero]
    simp only [hlost, not_false_eq_true]

/-- The first second of 1970, and of 2001. -/
theorem convert_roundTrip_2001 : ¬(951868800 ≤ (978307200 : ℤ) ∧ (978307200 : ℤ) < 978307200) ∧
    (convertToReadableTime 978307200).map convertToStdTime = some 978307200 :=
  ⟨by norm_num, (convert_roundTrip_iff (by norm_num) (by norm_num)).mpr (by norm_num)⟩

/-- 1 March 2000 comes back as 29 February. -/
theorem not_convert_roundTrip_march :
    (convertToReadableTime 951868800).map convertToStdTime = some 951782400 ∧
      (convertToReadableTime 951868800).map convertToStdTime ≠ some 951868800 := by
  decide

end VkKernel
