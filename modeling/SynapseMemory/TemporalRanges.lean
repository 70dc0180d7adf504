import SynapseMemory.TemporalQuery

/-!
# The range that a query names

The model of the second half of `parse_temporal`: from the cue and the date of today to a range of
seconds, in checked arithmetic.

A range begins with the first second of a day, week, month, quarter or year, and ends with the last
one. The months and what is made of them are found by an index (`startOf`), so that their ranges are
those between the starts of two months. The end of a month is found from the date that the next one
begins with, which has to be one of the years 1 to 9999.

Nothing overflows but the product of a count in the query and the days of its unit
(`parseTemporal_safe_iff`).
-/

namespace SynapseMemory.Temporal

open Gregorian Outcome
open Checked (i64)

/-- `DateRange` -/
structure DateRange where
  lo : ℤ
  hi : ℤ
  deriving DecidableEq

/-- The result of an operation on `i32`. -/
def i32 (n : ℤ) : Outcome Unit ℤ := signed 32 n

/-! ## The source -/

/-- `day_bounds` -/
def dayBounds (value : CivilDate) : Outcome Unit DateRange := do
  let days ← match Checked.daysFromCivil value with
    | .ok n => .ok n
    | .error _ => .ok 0
    | .panic => .panic
  let lo ← i64 (days * day)
  .ok ⟨lo, ← i64 ((← i64 (lo + day)) - 1)⟩

/-- `week_of` -/
def weekOf (value : CivilDate) : Outcome Unit DateRange := do
  let days ← Checked.daysFromCivil value
  -- 1970-01-01 was a Thursday
  let monday ← i64 (days - (← i64 (days + 3)) % 7)
  let lo ← i64 (monday * day)
  .ok ⟨lo, ← i64 ((← i64 (lo + (← i64 (7 * day)))) - 1)⟩

/-- The first day of the next month. -/
def nextMonth (year : ℤ) (month : ℕ) : Outcome Unit CivilDate :=
  if month = 12 then do Checked.checkedDate (← i32 (year + 1)) 1 1
  else do Checked.checkedDate year (← unsigned 32 (month + 1)) 1

/-- `month_of` -/
def monthOf (year : ℤ) (month : ℕ) : Outcome Unit DateRange := do
  let first ← Checked.checkedDate year month 1
  let next ← nextMonth year month
  .ok ⟨(← dayBounds first).lo, ← i64 ((← dayBounds next).lo - 1)⟩

/-- `year_of` -/
def yearOf (year : ℤ) : Outcome Unit DateRange := do
  let first ← Checked.checkedDate year 1 1
  let lo := (← dayBounds first).lo
  let next ← Checked.checkedDate (← i32 (year + 1)) 1 1
  .ok ⟨lo, ← i64 ((← dayBounds next).lo - 1)⟩

/-- The first month after a quarter. -/
def afterQuarter (year : ℤ) (quarter firstMonth : ℕ) : Outcome Unit DateRange :=
  if quarter = 4 then do monthOf (← i32 (year + 1)) 1
  else do monthOf year (← unsigned 32 (firstMonth + 3))

/-- The range of a quarter. -/
def quarterOf (year : ℤ) (quarter : ℕ) : Outcome Unit DateRange := do
  let firstMonth ← unsigned 32 ((← unsigned 32 ((← minus quarter 1) * 3)) + 1)
  let lo := (← monthOf year firstMonth).lo
  let next ← afterQuarter year quarter firstMonth
  .ok ⟨lo, ← i64 (next.lo - 1)⟩

/-- The month so many months from the one of a date. -/
def monthFrom (today : CivilDate) (offset : ℤ) : Outcome Unit DateRange := do
  let months ← i64 ((← i64 (today.year * 12)) + today.month)
  let monthIndex ← i64 ((← i64 (months - 1)) + offset)
  let year ← ofOption (tryI32 (monthIndex / 12))
  let month ← ofOption (tryU32 (← i64 (monthIndex % 12 + 1)))
  monthOf year month

/-- The days of a count, from today. -/
def Count.offset (c : Count) : Outcome Unit ℤ :=
  if c.back then do i64 ((← i64 (-c.count)) * c.days) else i64 (c.count * c.days)

/-- The range that is meant, seen from a day. -/
def Cue.range (today : CivilDate) : Cue → Outcome Unit DateRange
  | .timestamp ts => do
    let lo ← i64 (ts - ts % Temporal.day)
    .ok ⟨lo, ← i64 ((← i64 (lo + Temporal.day)) - 1)⟩
  | .day offset => do dayBounds (← Checked.addDays today offset)
  | .count c => do dayBounds (← Checked.addDays today (← c.offset))
  | .week offset => do weekOf (← Checked.addDays today (← i64 (offset * 7)))
  | .month offset => monthFrom today offset
  | .year offset => do yearOf (← i32 (today.year + offset))
  | .quarter q named => quarterOf (named.getD today.year) q
  | .monthName m named => monthOf (named.getD today.year) m

/-- `parse_temporal` -/
def parseTemporal [Unicode] [Lowercase] (query : Text) (now : ℤ) : Outcome Unit DateRange := do
  let query := normalizedQuery query
  let today ← Checked.civilFromDays (now / day)
  match ← cueOf query with
  | some cue => cue.range today
  | none => .error ()

/-! ## Days and weeks -/

/-- The first second of a day. -/
def secondOf (d : CivilDate) : ℤ := (d.dayNumber - 719468) * day

theorem secondOf_range {d : CivilDate} (hd : Storable d) :
    -62135596800 ≤ secondOf d ∧ secondOf d ≤ 253402214400 := by
  have hrange := storable_range hd
  rw [secondOf, day]
  omega

theorem dayBounds_of {d : CivilDate} (hd : Storable d) :
    dayBounds d = .ok ⟨secondOf d, secondOf d + day - 1⟩ := by
  have hrange := storable_range hd
  have hdays : Checked.daysFromCivil d = .ok (d.dayNumber - 719468) := by
    rw [Checked.daysFromCivil_eq, daysFromCivil_eq_some.mpr ⟨hd, rfl⟩]
    rfl
  unfold dayBounds secondOf
  simp (disch := omega) only [hdays, day, Checked.i64_of, ok_bind]

/-- The Monday of the week of a day. -/
def mondayOf (d : CivilDate) : ℤ :=
  d.dayNumber - 719468 - (d.dayNumber - 719468 + 3) % 7

theorem weekOf_of {d : CivilDate} (hd : Storable d) :
    weekOf d = .ok ⟨mondayOf d * day, mondayOf d * day + 7 * day - 1⟩ := by
  have hrange := storable_range hd
  have hdays : Checked.daysFromCivil d = .ok (d.dayNumber - 719468) := by
    rw [Checked.daysFromCivil_eq, daysFromCivil_eq_some.mpr ⟨hd, rfl⟩]
    rfl
  unfold weekOf mondayOf
  simp (disch := omega) only [hdays, day, Checked.i64_of, ok_bind]

/-! ## Months -/

/-- The first second of a month, by its index. -/
def startOf (k : ℤ) : ℤ := (monthStart k - 719468) * day

theorem startOf_strictMono : StrictMono startOf := fun a b h => by
  have hlt := monthStart_strictMono h
  rw [startOf, startOf, day]
  omega

/-- From the start of a month to the second before the start of another. -/
def months (k l : ℤ) : DateRange := ⟨startOf k, startOf l - 1⟩

theorem storable_first {y : ℤ} {m : ℕ} :
    Storable ⟨y, m, 1⟩ ↔ (1 ≤ y ∧ y ≤ 9999) ∧ 0 < m ∧ m ≤ 12 := by
  refine ⟨fun h => ⟨⟨h.one_le, h.le⟩, h.month_pos, h.month_le⟩, ?_⟩
  rintro ⟨⟨hone, hle⟩, hpos, htwelve⟩
  have hlen := lengthAt_pos (12 * y + m - 1)
  rw [lengthAt_eq y hpos htwelve] at hlen
  exact ⟨⟨hpos, htwelve, one_pos, hlen⟩, hone, hle⟩

theorem secondOf_first (y : ℤ) (m : ℕ) : secondOf ⟨y, m, 1⟩ = startOf (12 * y + m - 1) := by
  have hnumber : Date.dayNumber ⟨y, m, 1⟩ = monthStart (12 * y + m - 1) := by
    change monthStart (12 * y + m - 1) + (1 : ℕ) - 1 = _
    omega
  rw [secondOf, startOf, hnumber]

theorem checkedDate_first (y : ℤ) (m : ℕ) : Checked.checkedDate y m 1 =
    if (1 ≤ y ∧ y ≤ 9999) ∧ 0 < m ∧ m ≤ 12 then .ok ⟨y, m, 1⟩ else .error () := by
  rw [Checked.checkedDate_eq, checkedDate]
  split
  next h =>
    rw [daysFromCivil_eq_some.mpr ⟨storable_first.mpr h, rfl⟩]
    rfl
  next h =>
    cases hdays : daysFromCivil ⟨y, m, 1⟩ with
    | none => rfl
    | some n => exact absurd (storable_first.mp (daysFromCivil_eq_some.mp hdays).1) h

theorem nextMonth_of {y : ℤ} {m : ℕ} (hy : 1 ≤ y ∧ y ≤ 9999) (hm : 0 < m ∧ m ≤ 12) :
    nextMonth y m = if m = 12 then if y = 9999 then .error () else .ok ⟨y + 1, 1, 1⟩
      else .ok ⟨y, m + 1, 1⟩ := by
  unfold nextMonth
  split
  next hlast =>
    rw [i32, signed_of (by omega), ok_bind, checkedDate_first]
    by_cases hend : y = 9999
    · rw [if_pos hend, if_neg (by omega)]
    · rw [if_neg hend, if_pos (by omega)]
  next hlast =>
    rw [unsigned_of (by omega), ok_bind, checkedDate_first, if_pos (by omega)]

/-- **The range of a month**, unless it is the last of all. -/
theorem monthOf_eq (y : ℤ) (m : ℕ) : monthOf y m =
    if ((1 ≤ y ∧ y ≤ 9999) ∧ 0 < m ∧ m ≤ 12) ∧ ¬(m = 12 ∧ y = 9999) then
      .ok (months (12 * y + m - 1) (12 * y + m)) else .error () := by
  unfold monthOf
  rw [checkedDate_first]
  by_cases hfirst : (1 ≤ y ∧ y ≤ 9999) ∧ 0 < m ∧ m ≤ 12
  · rw [if_pos hfirst, ok_bind, nextMonth_of hfirst.1 hfirst.2]
    have hlo := dayBounds_of (storable_first.mpr hfirst)
    have hcut : ∀ d : CivilDate, Storable d → secondOf d = startOf (12 * y + m) →
        (do .ok ⟨(← dayBounds ⟨y, m, 1⟩).lo, ← i64 ((← dayBounds d).lo - 1)⟩) =
          Outcome.ok (ε := Unit) (months (12 * y + m - 1) (12 * y + m)) := by
      intro d hd hnext
      have hrange := secondOf_range hd
      rw [hlo, dayBounds_of hd, ok_bind, ok_bind, Checked.i64_of (by dsimp only; omega), ok_bind,
        secondOf_first, months, hnext]
    by_cases hlast : m = 12
    · by_cases hend : y = 9999
      · rw [if_pos hlast, if_pos hend, if_neg (by omega)]
        rfl
      · rw [if_pos hlast, if_neg hend, if_pos (by omega), ok_bind]
        refine hcut _ (storable_first.mpr (by omega)) ?_
        rw [secondOf_first, hlast]
        congr 1
        omega
    · rw [if_neg hlast, if_pos (by omega), ok_bind]
      refine hcut _ (storable_first.mpr (by omega)) ?_
      rw [secondOf_first]
      congr 1
      omega
  · rw [if_neg hfirst, if_neg (by omega)]
    rfl

/-! ## Quarters and years -/

theorem startOf_range {y : ℤ} {m : ℕ} (h : (1 ≤ y ∧ y ≤ 9999) ∧ 0 < m ∧ m ≤ 12) :
    -62135596800 ≤ startOf (12 * y + m - 1) ∧ startOf (12 * y + m - 1) ≤ 253402214400 := by
  rw [← secondOf_first]
  exact secondOf_range (storable_first.mpr h)

theorem yearOf_eq {y : ℤ} (hy : -2 ^ 31 ≤ y ∧ y < 2 ^ 31) : yearOf y =
    if 1 ≤ y ∧ y ≤ 9998 then .ok (months (12 * y) (12 * (y + 1))) else .error () := by
  unfold yearOf
  rw [checkedDate_first]
  by_cases hfirst : (1 ≤ y ∧ y ≤ 9999) ∧ 0 < 1 ∧ 1 ≤ 12
  · rw [if_pos hfirst, ok_bind, dayBounds_of (storable_first.mpr hfirst), ok_bind, i32,
      signed_of (by omega), ok_bind, checkedDate_first]
    by_cases hlast : y = 9999
    · rw [if_neg (by omega), if_neg (by omega)]
      rfl
    · have hnext : (1 ≤ y + 1 ∧ y + 1 ≤ 9999) ∧ 0 < 1 ∧ 1 ≤ 12 := by omega
      have hrange := startOf_range hnext
      rw [if_pos hnext, if_pos (by omega), ok_bind, dayBounds_of (storable_first.mpr hnext),
        ok_bind,
        secondOf_first, secondOf_first, Checked.i64_of (by dsimp only; omega), ok_bind, months]
      congr 3 <;> push_cast <;> ring_nf
  · rw [if_neg hfirst, if_neg (by omega)]
    rfl

theorem afterQuarter_eq {y : ℤ} {q : ℕ} (hy : 1 ≤ y ∧ y ≤ 9999) (hq : 0 < q ∧ q ≤ 4) :
    afterQuarter y q (3 * (q - 1) + 1) = if q = 4 ∧ y = 9999 then .error () else
      .ok (months (12 * y + 3 * q) (12 * y + 3 * q + 1)) := by
  unfold afterQuarter
  by_cases hlast : q = 4
  · rw [if_pos hlast, i32, signed_of (by omega), ok_bind, monthOf_eq]
    by_cases hend : y = 9999
    · rw [if_neg (by omega), if_pos ⟨hlast, hend⟩]
    · rw [if_pos (by omega), if_neg (by omega), hlast]
      congr 2 <;> push_cast <;> ring
  · rw [if_neg hlast, unsigned_of (by omega), ok_bind, monthOf_eq, if_pos (by omega),
      if_neg (by omega)]
    congr 2 <;> omega

theorem quarterOf_eq {y : ℤ} {q : ℕ} (hq : 0 < q ∧ q ≤ 4) : quarterOf y q =
    if (1 ≤ y ∧ y ≤ 9999) ∧ ¬(q = 4 ∧ y = 9999) then
      .ok (months (12 * y + 3 * q - 3) (12 * y + 3 * q)) else .error () := by
  unfold quarterOf
  rw [minus_of hq.1, ok_bind, unsigned_of (by omega), ok_bind, unsigned_of (by omega), ok_bind,
    mul_comm, monthOf_eq]
  by_cases hy : 1 ≤ y ∧ y ≤ 9999
  · rw [if_pos (by omega), ok_bind, afterQuarter_eq hy hq]
    by_cases hend : q = 4 ∧ y = 9999
    · rw [if_pos hend, if_neg (by omega)]
      rfl
    · have hrange : -2 ^ 63 ≤ startOf (12 * y + 3 * q) - 1 ∧
          startOf (12 * y + 3 * q) - 1 < 2 ^ 63 := by
        have hle := startOf_strictMono.monotone (show 12 * y + 3 * q ≤ 12 * 10000 by omega)
        have hge := startOf_strictMono.monotone (show 12 * 1 ≤ 12 * y + 3 * q by omega)
        have hfirst : startOf (12 * 1) = -62135596800 := by decide
        have hlast : startOf (12 * 10000) = 253402300800 := by decide
        omega
      rw [if_neg hend, if_pos ⟨hy, hend⟩, ok_bind]
      simp only [months, Checked.i64_of hrange, ok_bind]
      congr 3
      omega
  · rw [if_neg (by omega), if_neg (by omega)]
    rfl

/-- The month of a date, and so many months from it. -/
theorem monthFrom_eq {today : CivilDate} (hd : Storable today) {offset : ℤ}
    (hoffset : -1 ≤ offset ∧ offset ≤ 1) : monthFrom today offset =
      if 12 ≤ today.monthIndex + offset ∧ today.monthIndex + offset < 119999 then
        .ok (months (today.monthIndex + offset) (today.monthIndex + offset + 1))
      else .error () := by
  have hone := hd.one_le
  have hle := hd.le
  have hpos := hd.month_pos
  have htwelve := hd.month_le
  have hindex : today.year * 12 + today.month - 1 + offset = today.monthIndex + offset := by
    rw [Date.monthIndex, mul_comm]
  have hrange : 11 ≤ today.monthIndex + offset ∧ today.monthIndex + offset ≤ 120000 := by
    rw [← hindex]
    omega
  unfold monthFrom
  rw [Checked.i64_of (by omega), ok_bind, Checked.i64_of (by omega), ok_bind,
    Checked.i64_of (by omega), ok_bind, Checked.i64_of (by omega), ok_bind, hindex,
    Checked.i64_of (by omega)]
  generalize today.monthIndex + offset = k at hrange ⊢
  obtain ⟨y, m, hm, rfl⟩ : ∃ (y : ℤ) (m : ℕ), m < 12 ∧ k = 12 * y + m :=
    ⟨k / 12, (k % 12).toNat, by omega, by omega⟩
  have hyear : tryI32 ((12 * y + m) / 12) = some y := tryI32_eq_some.mpr (by omega)
  have hmonth : tryU32 ((12 * y + m) % 12 + 1) = some (m + 1) := tryU32_eq_some.mpr (by omega)
  rw [hyear, show ofOption (some y) = .ok y from rfl, ok_bind, ok_bind, hmonth]
  change monthOf y (m + 1) = _
  rw [monthOf_eq]
  by_cases hin : 12 ≤ 12 * y + (m : ℤ) ∧ 12 * y + m < 119999
  · rw [if_pos hin, if_pos (by omega)]
    congr 2 <;> omega
  · rw [if_neg hin, if_neg (by omega)]

/-! ## The cues -/

/-- What the cues of a query are like. -/
def Cue.Sound : Cue → Prop
  | .timestamp ts => ∃ d, Storable d ∧ ts = secondOf d
  | .count c => (0 ≤ c.count ∧ c.count < 2 ^ 63) ∧ 0 < c.days ∧ c.days ≤ 365
  | .day offset | .week offset | .month offset | .year offset => -1 ≤ offset ∧ offset ≤ 1
  | .quarter q named => (0 < q ∧ q ≤ 4) ∧ ∀ y ∈ named, 1900 ≤ y ∧ y < 2100
  | .monthName _ named => ∀ y ∈ named, 1900 ≤ y ∧ y < 2100

theorem phraseIn_mem {table : List (String × Cue)} {query : Text} {cue : Cue}
    (h : phraseIn table query = some cue) : ∃ e ∈ table, e.2 = cue := by
  obtain ⟨e, he, rfl⟩ := Option.map_eq_some_iff.mp h
  exact ⟨e, List.mem_of_find?_eq_some he, rfl⟩

theorem wordIn_spec {cueAt : List Text → ℕ → Option Cue} {words : List Text} {cue : Cue}
    (h : wordIn cueAt words = some cue) : ∃ index, cueAt words index = some cue := by
  obtain ⟨index, -, hcue⟩ := List.exists_of_findSome?_eq_some h
  exact ⟨index, hcue⟩

theorem mem_yearAfter {words : List Text} {index : ℕ} :
    ∀ y ∈ yearAfter words index, 1900 ≤ y ∧ y < 2100 := fun _ hy =>
  of_decide_eq_true (Option.filter_eq_some_iff.mp hy).2

/-- What is left between the digits of a word has no sign. -/
theorem not_signed_digits (w : Text) : ¬Text.Signed (trimMatches (fun c => !c.isDigit) w) := by
  have hdigit : ∀ c ∈ (trimMatches (fun c => !c.isDigit) w).head?, c.isDigit = true := by
    intro c hc
    rw [trimMatches] at hc
    have hprefix := List.rdropWhile_prefix (fun c : Char => !c.isDigit)
      (w.dropWhile fun c => !c.isDigit)
    have hhead : c ∈ (w.dropWhile fun c => !c.isDigit).head? := by
      obtain ⟨t, ht⟩ := hprefix
      rw [← ht, List.head?_append]
      simp [Option.mem_def.mp hc]
    have hnot := List.head?_dropWhile_not (fun c : Char => !c.isDigit) w
    rw [Option.mem_def.mp hhead] at hnot
    simpa using hnot
  rintro (hplus | hminus)
  · exact absurd (hdigit _ hplus) (by decide)
  · exact absurd (hdigit _ hminus) (by decide)

theorem unitDays_range {unit : Text} {days : ℤ} (h : unitDays unit = some days) :
    0 < days ∧ days ≤ 365 := by
  obtain ⟨e, he, rfl⟩ := Option.map_eq_some_iff.mp h
  have hall : ∀ e ∈ unitNames, 0 < e.2 ∧ e.2 ≤ 365 := by decide
  exact hall e (List.mem_of_find?_eq_some he)

variable [Unicode]

theorem countAt_sound {words : List Text} {index : ℕ} {cue : Cue}
    (h : countAt words index = some cue) : cue.Sound := by
  unfold countAt at h
  simp only [Option.bind_eq_bind, Option.bind_eq_some_iff] at h
  obtain ⟨word, -, count, hcount, days, ⟨unit, -, hdays⟩, h⟩ := h
  obtain ⟨-, rfl, -, hle⟩ := (Text.parseInt_decimal (not_signed_digits word)).mp hcount
  have hsound : ∀ back, (Cue.count ⟨back, Text.decimalValue _, days⟩).Sound := fun _ =>
    ⟨⟨Int.natCast_nonneg _, Int.lt_of_le_sub_one hle⟩, unitDays_range hdays⟩
  generalize (if index = 0 then none else words[index - 1]?) = before at h
  split at h
  · exact Option.some.inj h ▸ hsound true
  · split at h
    · exact Option.some.inj h ▸ hsound false
    · obtain ⟨-, hcue⟩ := Option.ite_none_right_eq_some.mp h
      exact Option.some.inj hcue ▸ hsound true

theorem monthAt_sound {words : List Text} {index : ℕ} {cue : Cue}
    (h : monthAt words index = some cue) : cue.Sound := by
  unfold monthAt at h
  simp only [Option.bind_eq_bind, Option.bind_eq_some_iff, Option.some_inj] at h
  obtain ⟨word, -, month, -, rfl⟩ := h
  exact mem_yearAfter

omit [Unicode] in
theorem quarterAt_sound {words : List Text} {index : ℕ} {cue : Cue}
    (h : quarterAt words index = some cue) : cue.Sound := by
  unfold quarterAt at h
  simp only [Option.bind_eq_bind, Option.bind_eq_some_iff] at h
  obtain ⟨word, -, h⟩ := h
  split at h
  · simp only [Option.bind_eq_some_iff, Option.some_inj] at h
    obtain ⟨q, hq, rfl⟩ := h
    have hrange : 1 ≤ q ∧ q ≤ 4 := of_decide_eq_true (Option.filter_eq_some_iff.mp hq).2
    exact ⟨by omega, mem_yearAfter⟩
  · cases h

theorem wordCue_sound {query : Text} {cue : Cue} (h : wordCue query = some cue) : cue.Sound := by
  have hday : ∀ e ∈ namedDay, e.2.Sound := by simp [namedDay, Cue.Sound]
  have hspan : ∀ e ∈ namedWeekOrMonth, e.2.Sound := by simp [namedWeekOrMonth, Cue.Sound]
  have hyear : ∀ e ∈ namedYear, e.2.Sound := by simp [namedYear, Cue.Sound]
  have hphrase : ∀ {table}, (∀ e ∈ table, e.2.Sound) → phraseIn table query = some cue →
      cue.Sound := by
    intro table htable hcue
    obtain ⟨e, he, rfl⟩ := phraseIn_mem hcue
    exact htable e he
  simp only [wordCue, Option.or_eq_some_iff] at h
  rcases h with h | ⟨-, h | ⟨-, h | ⟨-, h | ⟨-, h | ⟨-, h⟩⟩⟩⟩⟩
  · exact hphrase hday h
  · obtain ⟨index, h⟩ := wordIn_spec h
    exact countAt_sound h
  · exact hphrase hspan h
  · exact hphrase hyear h
  · obtain ⟨index, h⟩ := wordIn_spec h
    exact quarterAt_sound h
  · obtain ⟨index, h⟩ := wordIn_spec h
    exact monthAt_sound h

variable [Lowercase]

/-- The cue of a query. -/
def cueIn (query : Text) : Option Cue :=
  ((dateIn query).map Cue.timestamp).or (wordCue (normalizedQuery query))

theorem cueIn_sound {query : Text} {cue : Cue} (h : cueIn query = some cue) : cue.Sound := by
  rcases Option.or_eq_some_iff.mp h with h | ⟨-, h⟩
  · obtain ⟨ts, hts, rfl⟩ := Option.map_eq_some_iff.mp h
    exact dateIn_eq_some hts
  · exact wordCue_sound h

/-- The seconds of the years 1 to 9999. -/
def InYears (now : ℤ) : Prop := -719162 * day ≤ now ∧ now < 2932897 * day

omit [Unicode] [Lowercase] in
theorem exists_today {now : ℤ} (h : InYears now) :
    ∃ today, Storable today ∧ now / day = today.dayNumber - 719468 ∧
      Checked.civilFromDays (now / day) = .ok today := by
  obtain ⟨hle, hlt⟩ := h
  rw [day] at *
  obtain ⟨today, hd, hnumber⟩ := exists_storable (n := now / 86400) (by omega) (by omega)
  refine ⟨today, hd, hnumber, ?_⟩
  rw [Checked.civilFromDays_eq (by omega), civilFromDays_eq_some.mpr ⟨hd, hnumber⟩]
  rfl

theorem parseTemporal_eq {query : Text} {now : ℤ} {today : CivilDate}
    (h : Checked.civilFromDays (now / day) = .ok today) :
    parseTemporal query now = ofOption (cueIn query) >>= Cue.range today := by
  rw [parseTemporal, h, ok_bind, cueOf_normalizedQuery, ok_bind, cueIn]
  generalize ((dateIn query).map Cue.timestamp).or (wordCue (normalizedQuery query)) = cue
  cases cue <;> rfl

/-! ## Safety -/

/-- The count has room, in days. -/
def Count.Fits (c : Count) : Prop :=
  if c.back then c.count * c.days ≤ 2 ^ 63 else c.count * c.days < 2 ^ 63

/-- No overflow, and the lower bound is not above the upper one. -/
def Proper (x : Outcome Unit DateRange) : Prop := x ≠ .panic ∧ ∀ r, x = .ok r → r.lo ≤ r.hi

section

omit [Unicode] [Lowercase]

theorem proper_error : Proper (.error ()) := ⟨nofun, nofun⟩

theorem proper_ok {r : DateRange} (h : r.lo ≤ r.hi) : Proper (.ok r) :=
  ⟨nofun, fun _ hr => Outcome.ok.inj hr ▸ h⟩

theorem proper_ite {p : Prop} [Decidable p] {r : DateRange} (h : r.lo ≤ r.hi) :
    Proper (if p then .ok r else .error ()) := by
  split
  · exact proper_ok h
  · exact proper_error

theorem proper_addDays {today : CivilDate} {days : ℤ} {f : CivilDate → Outcome Unit DateRange}
    (h : ∀ d, Storable d → Proper (f d)) : Proper (Checked.addDays today days >>= f) := by
  rw [Checked.addDays_eq]
  cases hadd : addDays today days with
  | none => exact proper_error
  | some d => exact h d (addDays_eq_some.mp hadd).2.1

theorem proper_dayBounds {d : CivilDate} (hd : Storable d) : Proper (dayBounds d) := by
  rw [dayBounds_of hd]
  refine proper_ok ?_
  dsimp only [day]
  omega

theorem proper_weekOf {d : CivilDate} (hd : Storable d) : Proper (weekOf d) := by
  rw [weekOf_of hd]
  refine proper_ok ?_
  dsimp only [day]
  omega

theorem months_le {k l : ℤ} (h : k < l) : (months k l).lo ≤ (months k l).hi :=
  Int.le_sub_one_of_lt (startOf_strictMono h)

theorem offset_cases {c : Count} (h : (Cue.count c).Sound) :
    (c.Fits ∧ ∃ n, c.offset = .ok n) ∨ (¬c.Fits ∧ c.offset = .panic) := by
  obtain ⟨⟨hnonneg, hlt⟩, hpos, -⟩ := h
  have hproduct : 0 ≤ c.count * c.days := mul_nonneg hnonneg hpos.le
  unfold Count.offset Count.Fits i64
  cases c.back with
  | true =>
    simp only [if_true]
    rw [signed_of (by omega), ok_bind, neg_mul]
    by_cases hfits : c.count * c.days ≤ 2 ^ 63
    · exact .inl ⟨hfits, _, signed_of (by omega)⟩
    · exact .inr ⟨hfits, signed_eq_panic.mpr (by omega)⟩
  | false =>
    simp only [Bool.false_eq_true, if_false]
    by_cases hfits : c.count * c.days < 2 ^ 63
    · exact .inl ⟨hfits, _, signed_of (by omega)⟩
    · exact .inr ⟨hfits, signed_eq_panic.mpr (by omega)⟩

/-- The range of a date is its day. -/
theorem range_timestamp (today : CivilDate) {start : ℤ} (h : (Cue.timestamp start).Sound) :
    (Cue.timestamp start).range today = .ok ⟨start, start + day - 1⟩ := by
  obtain ⟨d, hd, rfl⟩ := h
  have hrange := secondOf_range hd
  have hstart : secondOf d % day = 0 := Int.mul_emod_left _ _
  change (do
    let lo ← i64 (secondOf d - secondOf d % day)
    Outcome.ok (DateRange.mk lo (← i64 ((← i64 (lo + day)) - 1)))) = _
  rw [hstart, day, Checked.i64_of (by omega), ok_bind, Checked.i64_of (by omega), ok_bind,
    Checked.i64_of (by omega), ok_bind, sub_zero]

/-- Every range is proper, if a count has room. -/
theorem proper_range {today : CivilDate} (hd : Storable today) {cue : Cue} (hs : cue.Sound)
    (hfits : ∀ c, cue = .count c → c.Fits) : Proper (cue.range today) := by
  have hone := hd.one_le
  have hle := hd.le
  cases cue with
  | timestamp ts =>
    rw [range_timestamp today hs]
    refine proper_ok ?_
    dsimp only [day]
    omega
  | day offset => exact proper_addDays fun d => proper_dayBounds
  | count c =>
    obtain ⟨-, n, hn⟩ := (offset_cases hs).resolve_right fun h => h.1 (hfits c rfl)
    change Proper (c.offset >>= _)
    rw [hn, ok_bind]
    exact proper_addDays fun d => proper_dayBounds
  | week offset =>
    obtain ⟨hlow, hhigh⟩ : -1 ≤ offset ∧ offset ≤ 1 := hs
    change Proper (i64 (offset * 7) >>= _)
    rw [Checked.i64_of (by omega), ok_bind]
    exact proper_addDays fun d => proper_weekOf
  | month offset =>
    change Proper (monthFrom today offset)
    rw [monthFrom_eq hd hs]
    exact proper_ite (months_le (lt_add_one _))
  | year offset =>
    obtain ⟨hlow, hhigh⟩ : -1 ≤ offset ∧ offset ≤ 1 := hs
    change Proper (i32 (today.year + offset) >>= _)
    rw [i32, signed_of (by omega), ok_bind, yearOf_eq (by omega)]
    exact proper_ite (months_le (by omega))
  | quarter q named =>
    change Proper (quarterOf _ q)
    rw [quarterOf_eq hs.1]
    exact proper_ite (months_le (by omega))
  | monthName m named =>
    change Proper (monthOf _ m)
    rw [monthOf_eq]
    exact proper_ite (months_le (by omega))

end

/-- A count in the query has room, if it is the cue. -/
def CountFits (query : Text) : Prop := ∀ c, cueIn query = some (.count c) → c.Fits

/-- **Nothing but a count overflows**, and every range is proper. -/
theorem parseTemporal_safe_iff {now : ℤ} (hnow : InYears now) (query : Text) :
    Proper (parseTemporal query now) ↔ CountFits query := by
  obtain ⟨today, hd, -, htoday⟩ := exists_today hnow
  rw [parseTemporal_eq htoday]
  cases hcue : cueIn query with
  | none =>
    exact iff_of_true proper_error fun c hc => by rw [hcue] at hc; cases hc
  | some cue =>
    refine ⟨fun hproper c hc => ?_, fun hfits => ?_⟩
    · obtain rfl := Option.some.inj (hcue.symm.trans hc)
      rcases offset_cases (cueIn_sound hcue) with ⟨hfits, -⟩ | ⟨-, hpanic⟩
      · exact hfits
      · refine absurd ?_ hproper.1
        change c.offset >>= _ = _
        rw [hpanic, panic_bind]
    · exact proper_range hd (cueIn_sound hcue) fun c hc => hfits c (hc ▸ hcue)

omit [Unicode] [Lowercase] in
/-- Three weeks have room. -/
theorem threeWeeks_safe : InYears 0 ∧
    @cueIn .asciiOnly .asciiOnly "3 weeks ago".toList = some (.count ⟨true, 3, 7⟩) ∧
    Proper (@parseTemporal .asciiOnly .asciiOnly "3 weeks ago".toList 0) := by
  have hnow : InYears 0 := by
    rw [InYears, day]
    omega
  have hcue : @cueIn .asciiOnly .asciiOnly "3 weeks ago".toList = some (.count ⟨true, 3, 7⟩) := by
    decide +kernel
  refine ⟨hnow, hcue, (@parseTemporal_safe_iff .asciiOnly .asciiOnly 0 hnow _).mpr fun c hc => ?_⟩
  obtain rfl := Cue.count.inj (Option.some.inj (hcue.symm.trans hc))
  exact show (3 : ℤ) * 7 ≤ 2 ^ 63 by norm_num

omit [Unicode] [Lowercase] in
/-- As many weeks as an `i64` can count. -/
theorem weeks_overflow : InYears 0 ∧
    ¬Proper (@parseTemporal .asciiOnly .asciiOnly "9223372036854775807 weeks ago".toList 0) := by
  have hnow : InYears 0 := by
    rw [InYears, day]
    omega
  have hpanic : @parseTemporal .asciiOnly .asciiOnly "9223372036854775807 weeks ago".toList 0 =
      .panic := by
    decide +kernel
  exact ⟨hnow, fun h => h.1 hpanic⟩

end SynapseMemory.Temporal
