import SynapseMemory.Outcome
import SynapseMemory.Timestamps

/-!
# The calendar in checked arithmetic

The functions of `temporal.rs` once more, with every operation on `i64` as one that can overflow.
None does: each function gives what it gives in the integers. For `civil_from_days` this holds for
every number of days, as its checked addition keeps the first of them away from the end of the range
(`civilFromDays_eq`). `parse_timestamp` reads times and offsets from two bytes each, so they are
small (`parseTimestamp_eq`).
-/

namespace SynapseMemory.Temporal.Checked

open Text Outcome

/-- The result of an operation on `i64`. -/
def i64 (n : ℤ) : Outcome Unit ℤ := signed 64 n

theorem i64_of {n : ℤ} (h : -2 ^ 63 ≤ n ∧ n < 2 ^ 63) : i64 n = .ok n := signed_of h

/-! ## Days from a date -/

/-- The days since the epoch of a date, with every step checked. -/
def daysOf (date : CivilDate) : Outcome Unit ℤ := do
  let year ← i64 (if date.month ≤ 2 then date.year - 1 else date.year)
  let era := (← i64 (if 0 ≤ year then year else year - 399)).tdiv 400
  let yearOfEra ← i64 (year - (← i64 (era * 400)))
  let month : ℤ := date.month
  let monthMoved ← i64 (month + if 2 < month then -3 else 9)
  let monthStart := (← i64 ((← i64 (153 * monthMoved)) + 2)).tdiv 5
  let dayOfYear ← i64 ((← i64 (monthStart + date.day)) - 1)
  let years ← i64 ((← i64 ((← i64 (yearOfEra * 365)) + yearOfEra.tdiv 4)) - yearOfEra.tdiv 100)
  let dayOfEra ← i64 (years + dayOfYear)
  i64 ((← i64 ((← i64 (era * 146097)) + dayOfEra)) - 719468)

/-- `days_from_civil`, of a date that is checked first. -/
def daysFromCivil (date : CivilDate) : Outcome Unit ℤ := do
  ensure (¬(¬(1 ≤ date.year ∧ date.year ≤ 9999) ∨ date.day = 0)) ()
  let last ← ofOption (daysInMonth date.year date.month)
  ensure (¬last < date.day) ()
  daysOf date

/-- The year that begins with March, in which the days are counted. -/
theorem daysOf_eq {date : CivilDate} (hyear : 1 ≤ date.year ∧ date.year ≤ 9999)
    (hmonth : date.month ≤ 12) (hday : date.day ≤ 31) :
    daysOf date = .ok (Temporal.daysOf date) := by
  have hrange : 0 ≤ (if date.month ≤ 2 then date.year - 1 else date.year) ∧
      (if date.month ≤ 2 then date.year - 1 else date.year) ≤ 9999 := by
    split <;> omega
  have hmoved : 0 ≤ (date.month : ℤ) + (if 2 < (date.month : ℤ) then -3 else 9) ∧
      (date.month : ℤ) + (if 2 < (date.month : ℤ) then -3 else 9) ≤ 11 := by
    split <;> omega
  unfold daysOf Temporal.daysOf
  dsimp only
  generalize (if date.month ≤ 2 then date.year - 1 else date.year) = year at hrange ⊢
  generalize (date.month : ℤ) + (if 2 < (date.month : ℤ) then -3 else 9) = moved at hmoved ⊢
  have hera := Int.natAbs_tdiv_le_natAbs year 400
  have hmonths := Int.natAbs_tdiv_le_natAbs (153 * moved + 2) 5
  have hfours := Int.natAbs_tdiv_le_natAbs (year - year.tdiv 400 * 400) 4
  have hcenturies := Int.natAbs_tdiv_le_natAbs (year - year.tdiv 400 * 400) 100
  simp (disch := omega) only [i64_of, ok_bind, if_pos hrange.1]

/-- The days of a date never overflow. -/
theorem daysFromCivil_eq (date : CivilDate) :
    daysFromCivil date = ofOption (Temporal.daysFromCivil date) := by
  rw [daysFromCivil, Temporal.daysFromCivil]
  by_cases hyear : ¬(1 ≤ date.year ∧ date.year ≤ 9999) ∨ date.day = 0
  · rw [if_pos hyear, ensure, if_neg (not_not.mpr hyear)]
    rfl
  · rw [if_neg hyear, ensure_of hyear, ok_bind]
    rw [not_or, not_not] at hyear
    cases hlast : daysInMonth date.year date.month with
    | none => rfl
    | some last =>
      obtain ⟨⟨-, hmonth⟩, hlen⟩ := daysInMonth_eq_some.mp hlast
      have hle := Gregorian.monthLength_le date.year date.month
      change ensure (¬last < date.day) () >>= _ =
        ofOption (if last < date.day then none else some (Temporal.daysOf date))
      by_cases hday : last < date.day
      · rw [if_pos hday, ensure, if_neg (not_not.mpr hday)]
        rfl
      · rw [if_neg hday, ensure_of hday, ok_bind, daysOf_eq hyear.1 hmonth (by omega)]
        rfl

/-! ## A date from days -/

/-- The year of an era that a day of it is in. -/
def yearOfEra (dayOfEra : ℤ) : Outcome Unit ℤ := do
  let plain ← i64 ((← i64 (dayOfEra - dayOfEra.tdiv 1460)) + dayOfEra.tdiv 36524)
  .ok ((← i64 (plain - dayOfEra.tdiv 146096)).tdiv 365)

/-- The month, and the day of it. -/
def monthDay (dayOfYear : ℤ) : Outcome Unit (ℤ × ℤ) := do
  let monthPrime := (← i64 ((← i64 (5 * dayOfYear)) + 2)).tdiv 153
  let monthStart := (← i64 ((← i64 (153 * monthPrime)) + 2)).tdiv 5
  let day ← i64 ((← i64 (dayOfYear - monthStart)) + 1)
  .ok (← i64 (monthPrime + if monthPrime < 10 then 3 else -9), day)

/-- The year, the month and the day of a shifted day number. -/
def civilOf (z : ℤ) : Outcome Unit (ℤ × ℤ × ℤ) := do
  let era := (← i64 (if 0 ≤ z then z else z - 146096)).tdiv 146097
  let dayOfEra ← i64 (z - (← i64 (era * 146097)))
  let yoe ← yearOfEra dayOfEra
  let year ← i64 (yoe + (← i64 (era * 400)))
  let years ← i64 ((← i64 ((← i64 (365 * yoe)) + yoe.tdiv 4)) - yoe.tdiv 100)
  let (month, day) ← monthDay (← i64 (dayOfEra - years))
  .ok (← i64 (if month ≤ 2 then year + 1 else year), month, day)

/-- `civil_from_days`, with the date checked after it was computed. -/
def civilFromDays (days : ℤ) : Outcome Unit CivilDate := do
  let z ← ofOption (checkedI64 (days + 719468))
  let (year, month, day) ← civilOf z
  let date : CivilDate :=
    ⟨← ofOption (tryI32 year), ← ofOption (tryU32 month), ← ofOption (tryU32 day)⟩
  let _ ← daysFromCivil date
  .ok date

/-- The year of an era is the one of unbounded arithmetic. -/
theorem yearOfEra_eq {n : ℤ} (h : 0 ≤ n ∧ n < 146097) :
    yearOfEra n = .ok (Temporal.yearOfEra n) ∧ (Temporal.yearOfEra n).natAbs < 2 ^ 20 := by
  have hfours := Int.natAbs_tdiv_le_natAbs n 1460
  have hcenturies := Int.natAbs_tdiv_le_natAbs n 36524
  have hera := Int.natAbs_tdiv_le_natAbs n 146096
  have hyear := Int.natAbs_tdiv_le_natAbs
    (n - n.tdiv 1460 + n.tdiv 36524 - n.tdiv 146096) 365
  unfold yearOfEra Temporal.yearOfEra
  refine ⟨?_, by omega⟩
  simp (disch := omega) only [i64_of, ok_bind]

/-- So are the month and the day. -/
theorem monthDay_eq {n : ℤ} (h : n.natAbs < 2 ^ 30) :
    ∃ month day, monthDay n = .ok (month, day) ∧ month.natAbs < 2 ^ 40 ∧
      month = (5 * n + 2).tdiv 153 + (if (5 * n + 2).tdiv 153 < 10 then 3 else -9) ∧
      day = n - (153 * (5 * n + 2).tdiv 153 + 2).tdiv 5 + 1 := by
  have hprime := Int.natAbs_tdiv_le_natAbs (5 * n + 2) 153
  have hstart := Int.natAbs_tdiv_le_natAbs (153 * (5 * n + 2).tdiv 153 + 2) 5
  have hmonth : ((5 * n + 2).tdiv 153 + if (5 * n + 2).tdiv 153 < 10 then 3 else -9).natAbs <
      2 ^ 40 := by
    split <;> omega
  refine ⟨_, _, ?_, hmonth, rfl, rfl⟩
  unfold monthDay
  simp (disch := omega) only [i64_of, ok_bind]

/-- So is the whole date, unless the days are near the end of the type. -/
theorem civilOf_eq {z : ℤ} (h : -2 ^ 63 + 146096 ≤ z ∧ z < 2 ^ 63) :
    civilOf z = .ok (Temporal.civilOf z) := by
  have hera := tdiv_moved z (k := 146097) (by decide)
  rw [show (146097 : ℤ) - 1 = 146096 from rfl] at hera
  have hmoved : -2 ^ 63 ≤ (if 0 ≤ z then z else z - 146096) ∧
      (if 0 ≤ z then z else z - 146096) < 2 ^ 63 := by
    split <;> omega
  unfold civilOf Temporal.civilOf
  rw [i64_of hmoved, ok_bind]
  dsimp only
  rw [hera]
  have hfirst : 0 ≤ z - z / 146097 * 146097 ∧ z - z / 146097 * 146097 < 146097 := by omega
  have hbefore : -2 ^ 63 ≤ z / 146097 * 146097 ∧ z / 146097 * 146097 < 2 ^ 63 := by omega
  have hcount : -2 ^ 47 ≤ z / 146097 ∧ z / 146097 < 2 ^ 47 := by omega
  rw [i64_of hbefore, ok_bind]
  generalize z - z / 146097 * 146097 = dayOfEra at hfirst ⊢
  generalize z / 146097 = era at hcount ⊢
  obtain ⟨hyear, hsmall⟩ := yearOfEra_eq hfirst
  rw [i64_of (by omega), ok_bind, hyear, ok_bind]
  generalize Temporal.yearOfEra dayOfEra = yoe at hsmall ⊢
  have hleaps := Int.natAbs_tdiv_le_natAbs yoe 4
  have hcommons := Int.natAbs_tdiv_le_natAbs yoe 100
  obtain ⟨month, day, hday, hmonth, rfl, rfl⟩ := monthDay_eq
    (n := dayOfEra - (365 * yoe + yoe.tdiv 4 - yoe.tdiv 100)) (by omega)
  simp (disch := omega) only [i64_of, ok_bind, hday]

/-- A date that exists is read without a panic. -/
theorem civilFromDays_eq {n : ℤ} (h : -2 ^ 63 ≤ n) :
    civilFromDays n = ofOption (Temporal.civilFromDays n) := by
  rw [civilFromDays, Temporal.civilFromDays]
  cases hz : checkedI64 (n + 719468) with
  | none => rfl
  | some z =>
    obtain ⟨hrange, rfl⟩ := checkedI64_eq_some.mp hz
    change civilOf (n + 719468) >>= _ = _
    rw [civilOf_eq (by omega), ok_bind]
    simp only [daysFromCivil_eq, Option.bind_eq_bind, Option.bind_some]
    cases tryI32 (Temporal.civilOf (n + 719468)).1 with
    | none => rfl
    | some year =>
      cases tryU32 (Temporal.civilOf (n + 719468)).2.1 with
      | none => rfl
      | some month =>
        cases tryU32 (Temporal.civilOf (n + 719468)).2.2 with
        | none => rfl
        | some day =>
          simp only [ofOption, ok_bind, Option.bind_some]
          cases Temporal.daysFromCivil ⟨year, month, day⟩ <;> rfl

/-! ## Dates -/

/-- `date` of the source -/
def checkedDate (year : ℤ) (month day : ℕ) : Outcome Unit CivilDate := do
  let _ ← daysFromCivil ⟨year, month, day⟩
  .ok ⟨year, month, day⟩

/-- `add_days` -/
def addDays (value : CivilDate) (days : ℤ) : Outcome Unit CivilDate := do
  civilFromDays (← ofOption (checkedI64 ((← daysFromCivil value) + days)))

theorem checkedDate_eq (year : ℤ) (month day : ℕ) :
    checkedDate year month day = ofOption (Temporal.checkedDate year month day) := by
  rw [checkedDate, Temporal.checkedDate, daysFromCivil_eq]
  cases Temporal.daysFromCivil ⟨year, month, day⟩ <;> rfl

/-- Adding days never panics. -/
theorem addDays_eq (value : CivilDate) (days : ℤ) :
    addDays value days = ofOption (Temporal.addDays value days) := by
  rw [addDays, Temporal.addDays, daysFromCivil_eq]
  cases Temporal.daysFromCivil value with
  | none => rfl
  | some n =>
    simp only [ofOption, ok_bind, Option.bind_eq_bind, Option.bind_some]
    cases hsum : checkedI64 (n + days) with
    | none => rfl
    | some m =>
      obtain ⟨hrange, rfl⟩ := checkedI64_eq_some.mp hsum
      exact civilFromDays_eq hrange.1

/-! ## Timestamps -/

/-- `parse_date`: ten bytes with two equal separators. -/
def parseDate (value : Text) : Outcome Unit CivilDate := do
  ensure (¬len value ≠ 10) ()
  let separator ← ofOption (byteAt value 4)
  ensure (¬(¬(separator = byte '-' ∨ separator = byte '/') ∨ byteAt value 7 ≠ some separator)) ()
  checkedDate (← ofOption (parseI32 value 0 4)) (← ofOption (parseU32 value 5 7)).toNat
    (← ofOption (parseU32 value 8 10)).toNat

/-- An offset of hours and minutes. -/
def parseOffset (suffix : Text) : Outcome Unit ℤ :=
  if Utc suffix then .ok 0
  else do
    ensure (len suffix = 6 ∧ (byteAt suffix 0 = some (byte '+') ∨
      byteAt suffix 0 = some (byte '-')) ∧ byteAt suffix 3 = some (byte ':')) ()
    let hours ← ofOption (parseI64 suffix 1 3)
    let minutes ← ofOption (parseI64 suffix 4 6)
    ensure (¬(23 < hours ∨ 59 < minutes)) ()
    let seconds ← i64 ((← i64 (hours * 3600)) + (← i64 (minutes * 60)))
    i64 (if suffix.head? = some '-' then -seconds else seconds)

/-- `parse_timestamp`: a date, or a date with a time and an offset. -/
def parseTimestamp (value : Text) : Outcome Unit ℤ := do
  let value := trim value
  let date ← parseDate (← ofOption (get? value 0 10))
  let dayStart ← ofOption (checkedI64 ((← daysFromCivil date) * day))
  if len value = 10 then .ok dayStart
  else
    ensure (¬(len value < 19 ∨ ¬(byteAt value 10 = some (byte 'T') ∨
      byteAt value 10 = some (byte 't') ∨ byteAt value 10 = some (byte ' ')))) ()
    ensure (¬(byteAt value 13 ≠ some (byte ':') ∨ byteAt value 16 ≠ some (byte ':'))) ()
    let hour ← ofOption (parseI64 value 11 13)
    let minute ← ofOption (parseI64 value 14 16)
    let second ← ofOption (parseI64 value 17 19)
    ensure (¬(23 < hour ∨ 59 < minute ∨ 59 < second)) ()
    let offset ← parseOffset (← ofOption (skipFraction (← ofOption (getFrom? value 19))))
    let time ← i64 ((← i64 ((← i64 (hour * 3600)) + (← i64 (minute * 60)))) + second)
    ofOption (checkedI64 ((← ofOption (checkedI64 (dayStart + time))) - offset))

/-- As many digits bound their number. -/
theorem ofDigitChars_lt {t : Text} (h : ∀ c ∈ t, c.isDigit = true) (n : ℕ) :
    Nat.ofDigitChars 10 t n < (n + 1) * 10 ^ t.length := by
  induction t generalizing n with
  | nil => simp
  | cons c t ih =>
    obtain ⟨hc, ht⟩ := List.forall_mem_cons.mp h
    have hdigit : c.toNat ≤ 57 := (Char.isDigit_iff_toNat.mp hc).2
    rw [Nat.ofDigitChars_cons, List.length_cons, pow_succ, mul_comm (10 ^ t.length), ← mul_assoc]
    refine (ih ht _).trans_le (Nat.mul_le_mul_right _ ?_)
    change 10 * n + (c.toNat - 48) + 1 ≤ (n + 1) * 10
    omega

theorem readDigits_lt {t : Text} {n : ℕ} (h : readDigits t = some n) : n < 10 ^ t.length := by
  obtain ⟨hdecimal, rfl⟩ := (Option.ite_none_right_eq_some.mp h).imp_right Option.some.inj
  exact (ofDigitChars_lt hdecimal.2 0).trans_le (by rw [zero_add, one_mul])

/-- A number read from a text has no more digits. -/
theorem natAbs_parseInt_lt {lo hi n : ℤ} {t : Text} (h : parseInt lo hi t = some n) :
    n.natAbs < 10 ^ t.length := by
  have hread := (Option.filter_eq_some_iff.mp h).1
  rw [readSigned.eq_def] at hread
  have hlonger : ∀ rest : Text, 10 ^ rest.length ≤ 10 ^ (rest.length + 1) := fun rest =>
    Nat.pow_le_pow_right (by decide) (Nat.le_succ _)
  split at hread
  · obtain ⟨m, hm, rfl⟩ := Option.map_eq_some_iff.mp hread
    exact (readDigits_lt hm).trans_le (hlonger _)
  · obtain ⟨-, hread⟩ := Option.ite_none_right_eq_some.mp hread
    obtain ⟨m, hm, rfl⟩ := Option.map_eq_some_iff.mp hread
    rw [Int.natAbs_negOfNat]
    exact (readDigits_lt hm).trans_le (hlonger _)
  · obtain ⟨m, hm, rfl⟩ := Option.map_eq_some_iff.mp hread
    exact readDigits_lt hm

theorem length_le_len (t : Text) : t.length ≤ len t := by
  induction t with
  | nil => exact le_refl _
  | cons c t ih =>
    have hpos := c.utf8Size_pos
    rw [List.length_cons, len_cons]
    omega

/-- Two bytes are read as a number of two digits. -/
theorem natAbs_parseI64_lt {value : Text} {i : ℕ} {n : ℤ} (h : parseI64 value i (i + 2) = some n) :
    n.natAbs < 100 := by
  obtain ⟨t, ht, hn⟩ := Option.bind_eq_some_iff.mp h
  obtain ⟨a, b, -, -, hlen⟩ := get?_eq_some.mp ht
  have hle : t.length ≤ 2 := (length_le_len t).trans (by omega)
  exact (natAbs_parseInt_lt hn).trans_le (Nat.pow_le_pow_right (by decide) hle)

/-- An error where the condition does not hold. -/
theorem ensure_bind_eq {α : Type} {p : Prop} [Decidable p] {f : Unit → Outcome Unit α}
    {x : Option α}
    (h : ¬p → f () = ofOption x) :
    (ensure (¬p) () >>= f) = ofOption (if p then none else x) := by
  by_cases hp : p
  · rw [ensure, if_neg (not_not.mpr hp), if_pos hp]
    rfl
  · rw [ensure_of hp, ok_bind, if_neg hp, h hp]

theorem bind_eq {α β : Type} {x : Option α} {f : α → Outcome Unit β} {g : α → Option β}
    (h : ∀ a, x = some a → f a = ofOption (g a)) : (ofOption x >>= f) = ofOption (x.bind g) := by
  cases x with
  | none => rfl
  | some a => exact h a rfl

theorem parseDate_eq (value : Text) : parseDate value = ofOption (Temporal.parseDate value) := by
  unfold parseDate Temporal.parseDate
  refine ensure_bind_eq fun _ => bind_eq fun separator _ => ensure_bind_eq fun _ => ?_
  refine bind_eq fun year _ => bind_eq fun month _ => bind_eq fun day _ => ?_
  exact checkedDate_eq _ _ _

/-- No offset does. -/
theorem parseOffset_eq (suffix : Text) :
    parseOffset suffix = ofOption (Temporal.parseOffset suffix) := by
  unfold parseOffset Temporal.parseOffset
  split
  · rfl
  · rw [ensure]
    split
    · rw [ok_bind]
      refine bind_eq fun hours hhours => bind_eq fun minutes hminutes => ensure_bind_eq fun _ => ?_
      have hhours := natAbs_parseI64_lt hhours
      have hminutes := natAbs_parseI64_lt hminutes
      have hsigned : -2 ^ 63 ≤ (if suffix.head? = some '-' then -(hours * 3600 + minutes * 60)
          else hours * 3600 + minutes * 60) ∧
          (if suffix.head? = some '-' then -(hours * 3600 + minutes * 60)
            else hours * 3600 + minutes * 60) < 2 ^ 63 := by
        split <;> omega
      rw [i64_of (by omega), ok_bind, i64_of (by omega), ok_bind, i64_of (by omega), ok_bind,
        i64_of hsigned]
      rfl
    · rfl

/-- No timestamp does. -/
theorem parseTimestamp_eq (value : Text) :
    parseTimestamp value = ofOption (Temporal.parseTimestamp value) := by
  unfold parseTimestamp Temporal.parseTimestamp
  dsimp only
  refine bind_eq fun text _ => ?_
  rw [parseDate_eq]
  refine bind_eq fun date _ => ?_
  rw [daysFromCivil_eq]
  refine bind_eq fun days _ => bind_eq fun dayStart _ => ?_
  split
  · rfl
  · refine ensure_bind_eq fun _ => ensure_bind_eq fun _ => bind_eq fun hour hhour => ?_
    refine bind_eq fun minute hminute => bind_eq fun second hsecond => ensure_bind_eq fun _ => ?_
    have hhour := natAbs_parseI64_lt hhour
    have hminute := natAbs_parseI64_lt hminute
    have hsecond := natAbs_parseI64_lt hsecond
    refine bind_eq fun rest _ => bind_eq fun suffix _ => ?_
    rw [parseOffset_eq]
    refine bind_eq fun offset _ => ?_
    rw [i64_of (by omega), ok_bind, i64_of (by omega), ok_bind, i64_of (by omega), ok_bind,
      i64_of (by omega), ok_bind]
    exact bind_eq fun _ _ => rfl

end SynapseMemory.Temporal.Checked
