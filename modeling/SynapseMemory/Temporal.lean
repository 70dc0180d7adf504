import SynapseMemory.Gregorian

/-!
# Civil dates

The model of the calendar of `temporal.rs`: `days_from_civil` and `civil_from_days` in the integer
arithmetic of the source, with its truncating division and its checked conversions. They are the
day numbers of the calendar, counted from 1970-01-01, and their inverse, for the years 1 to 9999:
each is `some` just where the calendar says so (`daysFromCivil_eq_some`, `civilFromDays_eq_some`).
-/

namespace SynapseMemory.Temporal

open Gregorian

/-! ## Machine integers -/

/-- The result of a checked operation on `i64`. -/
def checkedI64 (n : ℤ) : Option ℤ := if -2 ^ 63 ≤ n ∧ n < 2 ^ 63 then some n else none

/-- `i32::try_from` -/
def tryI32 (n : ℤ) : Option ℤ := if -2 ^ 31 ≤ n ∧ n < 2 ^ 31 then some n else none

/-- `u32::try_from` -/
def tryU32 (n : ℤ) : Option ℕ := if 0 ≤ n ∧ n < 2 ^ 32 then some n.toNat else none

theorem checkedI64_eq_some {n m : ℤ} :
    checkedI64 n = some m ↔ (-2 ^ 63 ≤ n ∧ n < 2 ^ 63) ∧ n = m := by
  rw [checkedI64, Option.ite_none_right_eq_some, Option.some_inj]

theorem tryI32_eq_some {n m : ℤ} : tryI32 n = some m ↔ (-2 ^ 31 ≤ n ∧ n < 2 ^ 31) ∧ n = m := by
  rw [tryI32, Option.ite_none_right_eq_some, Option.some_inj]

theorem tryU32_eq_some {n : ℤ} {m : ℕ} : tryU32 n = some m ↔ m < 2 ^ 32 ∧ n = m := by
  rw [tryU32, Option.ite_none_right_eq_some, Option.some_inj]
  omega

/-! ## The source -/

/-- `DAY`, in seconds -/
def day : ℤ := 86400

/-- A date as the source has it: its year is an `i32`, its month and day are `u32`. -/
abbrev CivilDate : Type := Date

/-- `is_leap_year` -/
def isLeapYear (year : ℤ) : Bool :=
  year.tmod 4 = 0 && (year.tmod 100 ≠ 0 || year.tmod 400 = 0)

/-- `days_in_month` -/
def daysInMonth (year : ℤ) (month : ℕ) : Option ℕ :=
  match month with
  | 1 | 3 | 5 | 7 | 8 | 10 | 12 => some 31
  | 4 | 6 | 9 | 11 => some 30
  | 2 => if isLeapYear year then some 29 else some 28
  | _ => none

/-- What `days_from_civil` computes of a date that it has checked. -/
def daysOf (date : CivilDate) : ℤ :=
  let year := if date.month ≤ 2 then date.year - 1 else date.year
  let era := (if 0 ≤ year then year else year - 399).tdiv 400
  let yearOfEra := year - era * 400
  let month : ℤ := date.month
  let dayOfYear := (153 * (month + if 2 < month then -3 else 9) + 2).tdiv 5 + date.day - 1
  let dayOfEra := yearOfEra * 365 + yearOfEra.tdiv 4 - yearOfEra.tdiv 100 + dayOfYear
  era * 146097 + dayOfEra - 719468

/-- `days_from_civil` -/
def daysFromCivil (date : CivilDate) : Option ℤ :=
  if ¬(1 ≤ date.year ∧ date.year ≤ 9999) ∨ date.day = 0 then none
  else do
    let last ← daysInMonth date.year date.month
    if last < date.day then none else some (daysOf date)

/-- The year of an era that a day of the era is in. -/
def yearOfEra (dayOfEra : ℤ) : ℤ :=
  (dayOfEra - dayOfEra.tdiv 1460 + dayOfEra.tdiv 36524 - dayOfEra.tdiv 146096).tdiv 365

/-- What `civil_from_days` computes of a day counted from the first of March of the year 0: the
year, the month and the day. -/
def civilOf (z : ℤ) : ℤ × ℤ × ℤ :=
  let era := (if 0 ≤ z then z else z - 146096).tdiv 146097
  let dayOfEra := z - era * 146097
  let year := yearOfEra dayOfEra + era * 400
  let dayOfYear := dayOfEra - (365 * yearOfEra dayOfEra + (yearOfEra dayOfEra).tdiv 4 -
    (yearOfEra dayOfEra).tdiv 100)
  let monthPrime := (5 * dayOfYear + 2).tdiv 153
  let day := dayOfYear - (153 * monthPrime + 2).tdiv 5 + 1
  let month := monthPrime + if monthPrime < 10 then 3 else -9
  (if month ≤ 2 then year + 1 else year, month, day)

/-- `civil_from_days` -/
def civilFromDays (days : ℤ) : Option CivilDate := do
  let z ← checkedI64 (days + 719468)
  let date : CivilDate :=
    ⟨← tryI32 (civilOf z).1, ← tryU32 (civilOf z).2.1, ← tryU32 (civilOf z).2.2⟩
  (daysFromCivil date).map fun _ => date

/-- `date` of the source -/
def checkedDate (year : ℤ) (month day : ℕ) : Option CivilDate :=
  (daysFromCivil ⟨year, month, day⟩).map fun _ => ⟨year, month, day⟩

/-- `add_days` -/
def addDays (value : CivilDate) (days : ℤ) : Option CivilDate := do
  civilFromDays (← checkedI64 ((← daysFromCivil value) + days))

/-! ## Days from a date -/

/-- A division that truncates, of a number that was moved down first where it is negative, rounds
down. -/
theorem tdiv_moved (n : ℤ) {k : ℤ} (hk : 0 < k) :
    (if 0 ≤ n then n else n - (k - 1)).tdiv k = n / k := by
  split
  next h => exact Int.tdiv_eq_ediv_of_nonneg h
  next h =>
    have hdiv := Int.mul_ediv_add_emod n k
    have hlt := Int.emod_lt_of_pos n hk
    have hneg : n / k < 0 := Int.ediv_neg_of_neg_of_pos (not_le.mp h) hk
    have hmoved : n - (k - 1) = -(k - 1 - n % k + k * -(n / k)) := by
      linear_combination -hdiv
    have hnonneg : 0 ≤ k - 1 - n % k + k * -(n / k) := by
      have := mul_nonneg hk.le (Int.neg_nonneg_of_nonpos hneg.le)
      omega
    have hsmall : (k - 1 - n % k) / k = 0 :=
      Int.ediv_eq_zero_of_lt (by omega) (by have := Int.emod_nonneg n hk.ne'; omega)
    rw [hmoved, Int.neg_tdiv, Int.tdiv_eq_ediv_of_nonneg hnonneg,
      Int.add_mul_ediv_left _ _ hk.ne', hsmall, zero_add, neg_neg]

/-- The function finds the leap years. -/
theorem isLeapYear_iff (year : ℤ) : isLeapYear year = true ↔ IsLeap year := by
  simp only [isLeapYear, Bool.and_eq_true, Bool.or_eq_true, decide_eq_true_eq, ne_eq,
    ← Int.dvd_iff_tmod_eq_zero, IsLeap]
  omega

theorem daysInMonth_eq {year : ℤ} {month : ℕ} (hpos : 0 < month) (hle : month ≤ 12) :
    daysInMonth year month = some (monthLength year month) := by
  have hleap := isLeapYear_iff year
  interval_cases month
  all_goals first
    | rfl
    | simp only [daysInMonth, monthLength, hleap]
      split_ifs <;> rfl

theorem daysInMonth_eq_some {year : ℤ} {month last : ℕ} :
    daysInMonth year month = some last ↔
      (0 < month ∧ month ≤ 12) ∧ monthLength year month = last := by
  constructor
  · intro h
    have hmonth : 0 < month ∧ month ≤ 12 := by
      by_contra hnot
      obtain rfl | ⟨m, rfl⟩ : month = 0 ∨ ∃ m, month = m + 13 := by
        refine or_iff_not_imp_left.mpr fun hzero => ⟨month - 13, by omega⟩
      · cases h
      · cases h
    rw [daysInMonth_eq hmonth.1 hmonth.2] at h
    exact ⟨hmonth, Option.some.inj h⟩
  · rintro ⟨⟨hpos, hle⟩, rfl⟩
    exact daysInMonth_eq hpos hle

/-- A date that the source can store: valid, and of a year from 1 to 9999. -/
structure Storable (d : CivilDate) : Prop extends d.Valid where
  one_le : 1 ≤ d.year
  le : d.year ≤ 9999

/-- The year that begins with the month March, and the month in it. -/
theorem exists_march {d : CivilDate} (hd : d.Valid) :
    ∃ (y : ℤ) (m : ℕ), m < 12 ∧ d.monthIndex = 12 * y + m + 2 ∧
      (y = if d.month ≤ 2 then d.year - 1 else d.year) ∧
      (m : ℤ) = d.month + if (2 : ℤ) < d.month then -3 else 9 := by
  obtain ⟨hpos, hle, -, -⟩ := hd
  rw [Date.monthIndex]
  by_cases hearly : d.month ≤ 2
  · rw [if_pos hearly, if_neg (by omega)]
    exact ⟨d.year - 1, d.month + 9, by omega, by omega, rfl, by omega⟩
  · rw [if_neg hearly, if_pos (by omega)]
    exact ⟨d.year, d.month - 3, by omega, by omega, rfl, by omega⟩

/-- The arithmetic of the source gives the day number. -/
theorem daysOf_eq {d : CivilDate} (hd : d.Valid) : daysOf d = d.dayNumber - 719468 := by
  obtain ⟨y, m, hlt, hindex, hyear, hmonth⟩ := exists_march hd
  have hera := tdiv_moved y (k := 400) (by decide)
  have hnonneg : 0 ≤ y - y / 400 * 400 := by omega
  rw [Date.dayNumber, hindex, monthStart_eq y (Nat.cast_nonneg m) (by omega), yearStart]
  simp only [daysOf, ← hyear, ← hmonth]
  rw [show (400 : ℤ) - 1 = 399 from rfl] at hera
  rw [hera, Int.tdiv_eq_ediv_of_nonneg hnonneg, Int.tdiv_eq_ediv_of_nonneg hnonneg,
    Int.tdiv_eq_ediv_of_nonneg (by omega)]
  omega

/-- The days of a date, if it is in the calendar. -/
theorem daysFromCivil_eq_some {d : CivilDate} {n : ℤ} :
    daysFromCivil d = some n ↔ Storable d ∧ n = d.dayNumber - 719468 := by
  rw [daysFromCivil]
  split
  next h =>
    refine iff_of_false nofun fun hd => ?_
    have := hd.1.one_le
    have := hd.1.le
    have := hd.1.day_pos
    omega
  next h =>
    simp only [Option.bind_eq_bind, Option.bind_eq_some_iff, daysInMonth_eq_some,
      Option.ite_none_left_eq_some, Option.some_inj]
    constructor
    · rintro ⟨last, ⟨⟨hpos, hle⟩, rfl⟩, hday, rfl⟩
      have hd : Storable d := ⟨⟨hpos, hle, by omega, not_lt.mp hday⟩, by omega, by omega⟩
      exact ⟨hd, daysOf_eq hd.toValid⟩
    · rintro ⟨hd, rfl⟩
      exact ⟨_, ⟨⟨hd.month_pos, hd.month_le⟩, rfl⟩, not_lt.mpr hd.day_le, daysOf_eq hd.toValid⟩

/-! ## A date from days -/

/-- The days up to a day of an era, without those that complete four years, a century or the
era. -/
def plainDays (n : ℤ) : ℤ := n - n / 1460 + n / 36524 - n / 146096

theorem plainDays_mono : Monotone plainDays := by
  refine monotone_int_of_le_succ fun n => ?_
  rw [plainDays, plainDays]
  omega

/-- The first and the last plain day of every year of an era. -/
theorem plainDays_bounds : ∀ r : ℕ, r < 400 →
    365 * (r : ℤ) ≤ plainDays (365 * r + r / 4 - r / 100) ∧
      plainDays (365 * r + r / 4 - r / 100 + if IsLeap (r + 1) then 365 else 364) <
        365 * (r + 1) := by
  decide +kernel

/-- The year of the era comes back from a day of it. -/
theorem yearOfEra_eq {r i : ℤ} (hr : 0 ≤ r) (hr' : r < 400) (hi : 0 ≤ i)
    (hi' : i ≤ if IsLeap (r + 1) then 365 else 364) :
    yearOfEra (365 * r + r / 4 - r / 100 + i) = r := by
  obtain ⟨r, rfl⟩ := Int.eq_ofNat_of_zero_le hr
  obtain ⟨hlower, hupper⟩ := plainDays_bounds r (by omega)
  have hfirst := plainDays_mono (show 365 * (r : ℤ) + r / 4 - r / 100 ≤
    365 * r + r / 4 - r / 100 + i by omega)
  have hlast := plainDays_mono (show 365 * (r : ℤ) + r / 4 - r / 100 + i ≤
    365 * r + r / 4 - r / 100 + if IsLeap (r + 1) then 365 else 364 by omega)
  have hplain : (365 * (r : ℤ) + r / 4 - r / 100 + i -
      (365 * (r : ℤ) + r / 4 - r / 100 + i).tdiv 1460 +
      (365 * (r : ℤ) + r / 4 - r / 100 + i).tdiv 36524 -
      (365 * (r : ℤ) + r / 4 - r / 100 + i).tdiv 146096) =
        plainDays (365 * (r : ℤ) + r / 4 - r / 100 + i) := by
    simp only [plainDays,
      Int.tdiv_eq_ediv_of_nonneg (show 0 ≤ 365 * (r : ℤ) + r / 4 - r / 100 + i by omega)]
  rw [yearOfEra, hplain, Int.tdiv_eq_ediv_of_nonneg (by omega)]
  omega

/-- The month that a day of a year from March on is in. -/
theorem month_of_dayOfYear {y : ℤ} {m : ℕ} {i : ℤ} (hm : m < 12)
    (hi : (153 * (m : ℤ) + 2) / 5 ≤ i)
    (hi' : i < (153 * (m : ℤ) + 2) / 5 + lengthAt (12 * y + m + 2)) :
    (5 * i + 2) / 153 = m := by
  by_cases hlast : m = 11
  · subst hlast
    rw [lengthAt_february] at hi'
    split_ifs at hi' <;> omega
  · rw [lengthAt_march y (by omega)] at hi'
    have hlt : m < 11 := by omega
    interval_cases m <;> omega

/-- The eras before a year, and the years of its own era before it. -/
theorem yearStart_era (y : ℤ) :
    yearStart y = y / 400 * 146097 + (365 * (y % 400) + y % 400 / 4 - y % 400 / 100) := by
  rw [yearStart]
  omega

theorem isLeap_era (y : ℤ) : IsLeap (y % 400 + 1) ↔ IsLeap (y + 1) := by
  simp only [IsLeap]
  omega

/-- A day in the year that begins with March. -/
theorem dayNumber_march {d : CivilDate} (hd : d.Valid) {y : ℤ} {m : ℕ} (hm : m < 12)
    (hindex : d.monthIndex = 12 * y + m + 2) :
    d.dayNumber = yearStart y + ((153 * (m : ℤ) + 2) / 5 + d.day - 1) ∧
      (d.day : ℤ) ≤ lengthAt (12 * y + m + 2) ∧
      (153 * (m : ℤ) + 2) / 5 + d.day - 1 ≤ if IsLeap (y % 400 + 1) then 365 else 364 := by
  have hnumber : d.dayNumber = yearStart y + ((153 * (m : ℤ) + 2) / 5 + d.day - 1) := by
    rw [Date.dayNumber, hindex, monthStart_eq y (Nat.cast_nonneg m) (by omega)]
    omega
  have hday : (d.day : ℤ) ≤ lengthAt (12 * y + m + 2) := by
    rw [← hindex, hd.lengthAt_eq]
    exact Nat.cast_le.mpr hd.day_le
  have hend : d.dayNumber < yearStart (y + 1) := by
    have hnext : monthStart (12 * (y + 1) + 0 + 2) = yearStart (y + 1) := by
      rw [monthStart_eq (y + 1) (le_refl 0) (by decide)]
      exact add_zero _
    rw [← hnext]
    exact lt_of_lt_of_le hd.lt_monthStart (monthStart_strictMono.monotone (by omega))
  refine ⟨hnumber, hday, ?_⟩
  rw [yearStart_succ, hnumber] at hend
  simp only [isLeap_era]
  split_ifs at hend ⊢ <;> omega

/-- What the source computes of a day in the year that begins with March. -/
theorem civilOf_march {y i : ℤ} {m : ℕ} (hm : m < 12) (hi : (153 * (m : ℤ) + 2) / 5 ≤ i)
    (hi' : i < (153 * (m : ℤ) + 2) / 5 + lengthAt (12 * y + m + 2))
    (hle : i ≤ if IsLeap (y % 400 + 1) then 365 else 364) :
    civilOf (yearStart y + i) =
      (if (m : ℤ) + (if (m : ℤ) < 10 then 3 else -9) ≤ 2 then y + 1 else y,
        (m : ℤ) + (if (m : ℤ) < 10 then 3 else -9), i - (153 * (m : ℤ) + 2) / 5 + 1) := by
  -- the era and the year of it
  have hstart := yearStart_era y
  have hyearOfEra := yearOfEra_eq (r := y % 400) (i := i) (by omega) (by omega) (by omega) hle
  have hera := tdiv_moved (yearStart y + i) (k := 146097) (by decide)
  rw [show (146097 : ℤ) - 1 = 146096 from rfl] at hera
  have hquot : (yearStart y + i) / 146097 = y / 400 := by
    split_ifs at hle <;> omega
  have hrest : yearStart y + i - y / 400 * 146097 =
      365 * (y % 400) + y % 400 / 4 - y % 400 / 100 + i := by
    omega
  have hyear : y % 400 + y / 400 * 400 = y := by omega
  simp only [civilOf, hera, hquot, hrest, hyearOfEra, hyear]
  rw [Int.tdiv_eq_ediv_of_nonneg (a := y % 400) (by omega),
    Int.tdiv_eq_ediv_of_nonneg (a := y % 400) (by omega), add_sub_cancel_left,
    Int.tdiv_eq_ediv_of_nonneg (by omega), month_of_dayOfYear hm hi hi',
    Int.tdiv_eq_ediv_of_nonneg (by omega)]

/-- **The date comes back from its day number.** -/
theorem civilOf_dayNumber {d : CivilDate} (hd : d.Valid) :
    civilOf d.dayNumber = (d.year, (d.month : ℤ), (d.day : ℤ)) := by
  obtain ⟨y, m, hm, hindex, hyear, hmonth⟩ := exists_march hd
  obtain ⟨hnumber, hday, hle⟩ := dayNumber_march hd hm hindex
  have hpos := hd.day_pos
  have hpos' := hd.month_pos
  have hle' := hd.month_le
  rw [hnumber, civilOf_march hm (by omega) (by omega) hle]
  simp only [Prod.mk.injEq]
  split_ifs at hyear hmonth ⊢ <;> omega

theorem storable_range {d : CivilDate} (hd : Storable d) :
    306 ≤ d.dayNumber ∧ d.dayNumber < 3652365 :=
  (hd.year_mem_iff 1 9999).mp ⟨hd.one_le, hd.le⟩

/-- The date of a day, if it is in the calendar. -/
theorem civilFromDays_eq_some {n : ℤ} {d : CivilDate} :
    civilFromDays n = some d ↔ Storable d ∧ n = d.dayNumber - 719468 := by
  obtain ⟨x, hx, hnumber⟩ := Date.exists_dayNumber (n + 719468)
  have hcivil := civilOf_dayNumber hx
  rw [hnumber] at hcivil
  simp only [civilFromDays, Option.bind_eq_bind, Option.bind_eq_some_iff, Option.map_eq_some_iff,
    checkedI64_eq_some, tryI32_eq_some, tryU32_eq_some, daysFromCivil_eq_some]
  constructor
  · rintro ⟨z, ⟨-, rfl⟩, year, ⟨-, hyear⟩, month, ⟨-, hmonth⟩, day, ⟨-, hday⟩, -, ⟨hd, -⟩, rfl⟩
    rw [hcivil] at hyear hmonth hday
    obtain rfl : x = ⟨year, month, day⟩ := by
      rw [← hyear, ← Nat.cast_inj.mp hmonth, ← Nat.cast_inj.mp hday]
    exact ⟨hd, by omega⟩
  · rintro ⟨hd, hn⟩
    obtain rfl : x = d := (Date.dayNumber_inj hx hd.toValid).mp (by omega)
    have hone := hd.one_le
    have hle := hd.le
    have hmonth := hd.month_le
    have hday := hd.day_le.trans (monthLength_le x.year x.month)
    have hrange := storable_range hd
    refine ⟨n + 719468, ⟨by omega, rfl⟩, ?_⟩
    rw [hcivil]
    exact ⟨x.year, ⟨by dsimp only; omega, rfl⟩, x.month, ⟨by omega, rfl⟩, x.day, ⟨by omega, rfl⟩,
      n, ⟨hd, hn⟩, rfl⟩

/-! ## The calendar -/

/-- Every day from the first of the year 1 to the last of the year 9999 has a date. -/
theorem exists_storable {n : ℤ} (h : -719162 ≤ n) (h' : n ≤ 2932896) :
    ∃ d, Storable d ∧ n = d.dayNumber - 719468 := by
  obtain ⟨d, hd, hnumber⟩ := Date.exists_dayNumber (n + 719468)
  have hyear := hd.year_mem_iff 1 9999
  rw [show Date.dayNumber ⟨1, 1, 1⟩ = 306 by decide,
    show Date.dayNumber ⟨9999 + 1, 1, 1⟩ = 3652365 by decide] at hyear
  obtain ⟨hone, hle⟩ := hyear.mpr ⟨by omega, by omega⟩
  exact ⟨d, ⟨hd, hone, hle⟩, by omega⟩

/-- Days are added along the calendar. -/
theorem addDays_eq_some {d e : CivilDate} {n : ℤ} :
    addDays d n = some e ↔ Storable d ∧ Storable e ∧ e.dayNumber = d.dayNumber + n := by
  simp only [addDays, Option.bind_eq_bind, Option.bind_eq_some_iff, daysFromCivil_eq_some,
    checkedI64_eq_some, civilFromDays_eq_some]
  constructor
  · rintro ⟨_, ⟨hd, rfl⟩, _, ⟨-, rfl⟩, he, hsum⟩
    exact ⟨hd, he, by omega⟩
  · rintro ⟨hd, he, hsum⟩
    have hrange := storable_range he
    exact ⟨_, ⟨hd, rfl⟩, _, ⟨by omega, rfl⟩, he, by omega⟩

/-- **The calendar is a bijection.** Every valid date of the years 1 to 9999 has a day, which gives
it back; every day from the first to the last of them has a date, which gives it back; a later date
has a later day; and the next date has the next day. -/
theorem civil_bijection :
    (∀ d, Storable d → ∃ n, daysFromCivil d = some n ∧ civilFromDays n = some d) ∧
      (daysFromCivil ⟨1, 1, 1⟩ = some (-719162) ∧ daysFromCivil ⟨9999, 12, 31⟩ = some 2932896) ∧
      (∀ n, -719162 ≤ n → n ≤ 2932896 →
        ∃ d, Storable d ∧ civilFromDays n = some d ∧ daysFromCivil d = some n) ∧
      (∀ d e n m, daysFromCivil d = some n → daysFromCivil e = some m → d.Before e → n < m) ∧
      ∀ d e n m, daysFromCivil d = some n → daysFromCivil e = some m → d.Before e →
        (∀ x, Storable x → d.Before x → ¬x.Before e) → m = n + 1 := by
  simp only [daysFromCivil_eq_some, civilFromDays_eq_some]
  refine ⟨fun d hd => ⟨_, ⟨hd, rfl⟩, hd, rfl⟩,
    ⟨daysFromCivil_eq_some.mp (by decide), daysFromCivil_eq_some.mp (by decide)⟩,
    fun n hn hn' => ?_, ?_, ?_⟩
  · obtain ⟨d, hd, hnumber⟩ := exists_storable hn hn'
    exact ⟨d, hd, ⟨hd, hnumber⟩, hd, hnumber⟩
  · rintro d e _ _ ⟨hd, rfl⟩ ⟨he, rfl⟩ hbefore
    have hlt := Date.dayNumber_lt hd.toValid he.toValid hbefore
    omega
  · rintro d e _ _ ⟨hd, rfl⟩ ⟨he, rfl⟩ hbefore hnone
    have hnext := Date.dayNumber_next hd.toValid he.toValid hbefore fun x hx hdx hxe => ?_
    · omega
    · -- a date between two stored ones is of a year between theirs
      refine hnone x ⟨hx, ?_, ?_⟩ hdx hxe
      · have := hd.one_le
        simp only [Date.Before] at hdx
        omega
      · have := he.le
        simp only [Date.Before] at hxe
        omega

end SynapseMemory.Temporal
