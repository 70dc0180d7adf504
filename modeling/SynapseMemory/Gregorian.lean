import Mathlib

/-!
# The Gregorian calendar

The proleptic Gregorian calendar, over all years. A date is valid if its month has its day. The
**day number** of a date counts from the first of March of the year 0; the months are counted
through, from January of the year 0, so that the number of the first day of a month is a function of
one index (`monthStart`), which goes up by the length of the month (`monthStart_succ`).

It follows that the valid dates are the integers: the order of the dates is that of their numbers
(`dayNumber_lt_iff`), every integer is the number of a valid date (`exists_dayNumber`), and the next
date has the next number (`dayNumber_next`).
-/

namespace Gregorian

/-! ## Years and months -/

/-- A year with a leap day. -/
def IsLeap (y : ℤ) : Prop := y % 4 = 0 ∧ (y % 100 ≠ 0 ∨ y % 400 = 0)

instance : DecidablePred IsLeap := fun y =>
  inferInstanceAs (Decidable (y % 4 = 0 ∧ (y % 100 ≠ 0 ∨ y % 400 = 0)))

/-- The number of days of a month. -/
def monthLength (y : ℤ) (m : ℕ) : ℕ :=
  if m = 2 then if IsLeap y then 29 else 28
  else if m = 4 ∨ m = 6 ∨ m = 9 ∨ m = 11 then 30
  else 31

theorem monthLength_le (y : ℤ) (m : ℕ) : monthLength y m ≤ 31 := by
  rw [monthLength]
  split_ifs <;> decide

/-- The number of the first of March of a year. -/
def yearStart (y : ℤ) : ℤ := 365 * y + y / 4 - y / 100 + y / 400

/-- The year from March to February has the leap day of its last month. -/
theorem yearStart_succ (y : ℤ) :
    yearStart (y + 1) = yearStart y + if IsLeap (y + 1) then 366 else 365 := by
  simp only [yearStart, IsLeap]
  split_ifs <;> omega

/-- The number of the first day of a month. -/
def monthStart (k : ℤ) : ℤ := yearStart ((k - 2) / 12) + (153 * ((k - 2) % 12) + 2) / 5

theorem monthStart_eq (y : ℤ) {m : ℤ} (hm : 0 ≤ m) (hm' : m < 12) :
    monthStart (12 * y + m + 2) = yearStart y + (153 * m + 2) / 5 := by
  rw [monthStart, show (12 * y + m + 2 - 2) / 12 = y by omega,
    show (12 * y + m + 2 - 2) % 12 = m by omega]

/-- The length of a month, by its index. -/
def lengthAt (k : ℤ) : ℕ := monthLength (k / 12) ((k % 12).toNat + 1)

theorem lengthAt_eq (y : ℤ) {m : ℕ} (hm : 0 < m) (hm' : m ≤ 12) :
    lengthAt (12 * y + m - 1) = monthLength y m := by
  rw [lengthAt, show (12 * y + m - 1) / 12 = y by omega,
    show ((12 * y + m - 1) % 12).toNat + 1 = m by omega]

/-- The months from March on take 31, 30, 31, 30, 31 days, and so on. -/
theorem lengthAt_march (y : ℤ) {m : ℕ} (hm : m < 11) :
    (lengthAt (12 * y + m + 2) : ℤ) = (153 * (m + 1) + 2) / 5 - (153 * m + 2) / 5 := by
  by_cases hjanuary : m = 10
  · subst hjanuary
    rw [show 12 * y + (10 : ℕ) + 2 = 12 * (y + 1) + (1 : ℕ) - 1 by omega,
      lengthAt_eq (y + 1) one_pos (by decide)]
    rfl
  · rw [show 12 * y + (m : ℤ) + 2 = 12 * y + (m + 3 : ℕ) - 1 by omega,
      lengthAt_eq y (by omega) (by omega)]
    have hlt : m < 10 := by omega
    interval_cases m <;> rfl

/-- February has the rest of the year. -/
theorem lengthAt_february (y : ℤ) :
    (lengthAt (12 * y + (11 : ℕ) + 2) : ℤ) = if IsLeap (y + 1) then 29 else 28 := by
  rw [show 12 * y + (11 : ℕ) + 2 = 12 * (y + 1) + (2 : ℕ) - 1 by omega,
    lengthAt_eq (y + 1) two_pos (by decide), monthLength, if_pos rfl]
  split <;> rfl

/-- **The months follow each other.** -/
theorem monthStart_succ (k : ℤ) : monthStart (k + 1) = monthStart k + lengthAt k := by
  obtain ⟨y, m, hm, rfl⟩ : ∃ (y : ℤ) (m : ℕ), m < 12 ∧ k = 12 * y + m + 2 :=
    ⟨(k - 2) / 12, ((k - 2) % 12).toNat, by omega, by omega⟩
  rw [monthStart_eq y (Nat.cast_nonneg m) (by omega)]
  by_cases hfebruary : m = 11
  · subst hfebruary
    rw [show 12 * y + (11 : ℕ) + 2 + 1 = 12 * (y + 1) + 0 + 2 by omega,
      monthStart_eq (y + 1) (le_refl 0) (by decide), yearStart_succ, lengthAt_february]
    split_ifs <;> omega
  · rw [show 12 * y + (m : ℤ) + 2 + 1 = 12 * y + (m + 1) + 2 by omega,
      monthStart_eq y (by omega) (by omega), lengthAt_march y (by omega)]
    omega

theorem lengthAt_pos (k : ℤ) : 0 < lengthAt k := by
  rw [lengthAt, monthLength]
  split_ifs <;> decide

theorem monthStart_strictMono : StrictMono monthStart := by
  refine strictMono_int_of_lt_succ fun k => ?_
  rw [monthStart_succ]
  exact Int.lt_add_of_pos_right _ (Nat.cast_pos.mpr (lengthAt_pos k))

/-- Every day is in a month. -/
theorem exists_month (n : ℤ) : ∃ k, monthStart k ≤ n ∧ n < monthStart (k + 1) := by
  have hbdd : ∃ b, ∀ k, monthStart k ≤ n → k ≤ b := by
    refine ⟨max n 0 + 100, fun k hk => ?_⟩
    rw [monthStart, yearStart] at hk
    omega
  have hinh : ∃ k, monthStart k ≤ n := by
    refine ⟨min n 0 - 100, ?_⟩
    rw [monthStart, yearStart]
    omega
  obtain ⟨k, hk, hgreatest⟩ := Int.exists_greatest_of_bdd hbdd hinh
  refine ⟨k, hk, lt_of_not_ge fun hle => ?_⟩
  exact absurd (hgreatest (k + 1) hle) (by omega)

/-! ## Dates -/

/-- A date, which need not be in the calendar. -/
structure Date where
  year : ℤ
  month : ℕ
  day : ℕ
  deriving DecidableEq

namespace Date

/-- The year has the month, and the month has the day. -/
structure Valid (d : Date) : Prop where
  month_pos : 0 < d.month
  month_le : d.month ≤ 12
  day_pos : 0 < d.day
  day_le : d.day ≤ monthLength d.year d.month

/-- The order of the dates, by year, month and day. -/
def Before (d e : Date) : Prop :=
  d.year < e.year ∨
    d.year = e.year ∧ (d.month < e.month ∨ d.month = e.month ∧ d.day < e.day)

/-- Of two dates one comes first, or they are the same. -/
theorem before_trichotomy (d e : Date) : d.Before e ∨ d = e ∨ e.Before d := by
  obtain ⟨y, m, i⟩ := d
  obtain ⟨y', m', i'⟩ := e
  simp only [Before, mk.injEq]
  omega

/-- The number of months since the beginning of year 0. -/
def monthIndex (d : Date) : ℤ := 12 * d.year + d.month - 1

/-- The number of days since the beginning of year 0. -/
def dayNumber (d : Date) : ℤ := monthStart d.monthIndex + d.day - 1

variable {d e : Date}

theorem Valid.lengthAt_eq (hd : d.Valid) : lengthAt d.monthIndex = monthLength d.year d.month :=
  Gregorian.lengthAt_eq d.year hd.month_pos hd.month_le

/-- A date is before the first day of the next month. -/
theorem Valid.lt_monthStart (hd : d.Valid) : d.dayNumber < monthStart (d.monthIndex + 1) := by
  have hle := hd.day_le
  rw [← hd.lengthAt_eq] at hle
  rw [monthStart_succ, dayNumber]
  omega

/-- A date is not before the beginning of its month. -/
theorem Valid.monthStart_le (hd : d.Valid) : monthStart d.monthIndex ≤ d.dayNumber := by
  have hpos := hd.day_pos
  rw [dayNumber]
  omega

/-- An earlier date has a smaller number. -/
theorem dayNumber_lt (hd : d.Valid) (he : e.Valid) (h : d.Before e) :
    d.dayNumber < e.dayNumber := by
  by_cases hmonth : d.monthIndex = e.monthIndex
  · -- the same month, and a later day
    have hday : d.day < e.day := by
      have := hd.month_pos
      have := hd.month_le
      have := he.month_pos
      have := he.month_le
      simp only [Before, monthIndex] at h hmonth
      omega
    rw [dayNumber, dayNumber, hmonth]
    omega
  · have hlt : d.monthIndex + 1 ≤ e.monthIndex := by
      have := hd.month_le
      have := he.month_pos
      simp only [Before, monthIndex] at h hmonth ⊢
      omega
    calc d.dayNumber < monthStart (d.monthIndex + 1) := hd.lt_monthStart
      _ ≤ monthStart e.monthIndex := monthStart_strictMono.monotone hlt
      _ ≤ e.dayNumber := he.monthStart_le

/-- The numbers have the order of the dates. -/
theorem dayNumber_lt_iff (hd : d.Valid) (he : e.Valid) :
    d.dayNumber < e.dayNumber ↔ d.Before e := by
  refine ⟨fun h => ?_, dayNumber_lt hd he⟩
  rcases before_trichotomy d e with hbefore | rfl | hafter
  · exact hbefore
  · exact absurd h (lt_irrefl _)
  · exact absurd (dayNumber_lt he hd hafter) h.asymm

/-- No two dates have one number. -/
theorem dayNumber_inj (hd : d.Valid) (he : e.Valid) : d.dayNumber = e.dayNumber ↔ d = e := by
  refine ⟨fun h => ?_, congrArg dayNumber⟩
  rcases before_trichotomy d e with hbefore | rfl | hafter
  · exact absurd h (dayNumber_lt hd he hbefore).ne
  · rfl
  · exact absurd h (dayNumber_lt he hd hafter).ne'

/-- **Every integer is the number of a date.** -/
theorem exists_dayNumber (n : ℤ) : ∃ d : Date, d.Valid ∧ d.dayNumber = n := by
  obtain ⟨k, hle, hlt⟩ := exists_month n
  rw [monthStart_succ, lengthAt] at hlt
  refine ⟨⟨k / 12, (k % 12).toNat + 1, (n - monthStart k).toNat + 1⟩,
    ⟨Nat.succ_pos _, by dsimp only; omega, Nat.succ_pos _, by dsimp only; omega⟩, ?_⟩
  rw [dayNumber, monthIndex, show 12 * (k / 12) + ((k % 12).toNat + 1 : ℕ) - 1 = k by omega]
  dsimp only
  omega

/-- A date with no valid date between it and an earlier one has the next number. -/
theorem dayNumber_next (hd : d.Valid) (he : e.Valid) (h : d.Before e)
    (hnone : ∀ x : Date, x.Valid → d.Before x → ¬x.Before e) :
    e.dayNumber = d.dayNumber + 1 := by
  have hlt := dayNumber_lt hd he h
  obtain ⟨x, hx, hnumber⟩ := exists_dayNumber (d.dayNumber + 1)
  have hbefore : d.Before x := (dayNumber_lt_iff hd hx).mp (by omega)
  have hge := hnone x hx hbefore
  rw [← dayNumber_lt_iff hx he] at hge
  omega

/-- The years from one to another, by their day numbers. -/
theorem Valid.year_mem_iff (hd : d.Valid) (a b : ℤ) :
    a ≤ d.year ∧ d.year ≤ b ↔
      dayNumber ⟨a, 1, 1⟩ ≤ d.dayNumber ∧ d.dayNumber < dayNumber ⟨b + 1, 1, 1⟩ := by
  have hfirst : ∀ y, (⟨y, 1, 1⟩ : Date).Valid := fun y =>
    ⟨one_pos, Nat.one_le_ofNat, one_pos, Nat.one_le_ofNat (n := 31)⟩
  have hday := hd.day_pos
  have hmonth := hd.month_pos
  rw [← not_lt (a := d.dayNumber), dayNumber_lt_iff hd (hfirst a),
    dayNumber_lt_iff hd (hfirst (b + 1))]
  simp only [Before]
  omega

end Date

end Gregorian
