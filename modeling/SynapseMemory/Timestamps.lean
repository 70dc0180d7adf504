import SynapseMemory.Temporal
import SynapseMemory.TextFields

/-!
# Timestamps as text

The model of `parse_timestamp` and `format_timestamp` of `temporal.rs`. The parser takes its fields
at fixed byte offsets (`fieldsOf`) and reads each of them as an integer of the type that the source
reads it as.

What is formatted is parsed back (`parse_format`). An integer may have a sign, so the parser accepts
more than it documents: a field of two bytes can be a sign and a digit. A string that it accepts has
decimal fields in their ranges, and an instant of its day, just if none of its fields begins with a
sign (`shaped_iff`).
-/

namespace SynapseMemory.Temporal

open Gregorian Text

/-! ## The source -/

/-- `parse_number` at `i32` -/
def parseI32 (value : Text) (start stop : ℕ) : Option ℤ :=
  (get? value start stop).bind (parseInt (-2 ^ 31) (2 ^ 31 - 1))

/-- `parse_number` at `u32` -/
def parseU32 (value : Text) (start stop : ℕ) : Option ℤ :=
  (get? value start stop).bind (parseInt 0 (2 ^ 32 - 1))

/-- `parse_number` at `i64` -/
def parseI64 (value : Text) (start stop : ℕ) : Option ℤ :=
  (get? value start stop).bind (parseInt (-2 ^ 63) (2 ^ 63 - 1))

/-- `parse_date` -/
def parseDate (value : Text) : Option CivilDate :=
  if len value ≠ 10 then none
  else do
    let separator ← byteAt value 4
    if ¬(separator = byte '-' ∨ separator = byte '/') ∨ byteAt value 7 ≠ some separator then none
    else
      checkedDate (← parseI32 value 0 4) (← parseU32 value 5 7).toNat (← parseU32 value 8 10).toNat

/-- What follows the seconds, without a fraction of a second. -/
def skipFraction (suffix : Text) : Option Text :=
  match suffix with
  | '.' :: fraction =>
    if (fraction.takeWhile Char.isDigit).isEmpty then none
    else some (fraction.dropWhile Char.isDigit)
  | _ => some suffix

/-- The offset is zero. -/
def Utc (suffix : Text) : Prop := suffix = [] ∨ suffix = ['Z'] ∨ suffix = ['z']

instance (suffix : Text) : Decidable (Utc suffix) :=
  inferInstanceAs (Decidable (suffix = [] ∨ suffix = ['Z'] ∨ suffix = ['z']))

/-- The offset, in seconds. -/
def parseOffset (suffix : Text) : Option ℤ :=
  if Utc suffix then some 0
  else if len suffix = 6 ∧ (byteAt suffix 0 = some (byte '+') ∨ byteAt suffix 0 = some (byte '-')) ∧
      byteAt suffix 3 = some (byte ':') then do
    let hours ← parseI64 suffix 1 3
    let minutes ← parseI64 suffix 4 6
    if 23 < hours ∨ 59 < minutes then none
    else
      let seconds := hours * 3600 + minutes * 60
      some (if suffix.head? = some '-' then -seconds else seconds)
  else none

/-- `parse_timestamp` -/
def parseTimestamp (value : Text) : Option ℤ := do
  let value := trim value
  let date ← parseDate (← get? value 0 10)
  let dayStart ← checkedI64 ((← daysFromCivil date) * day)
  if len value = 10 then some dayStart
  else if len value < 19 ∨ ¬(byteAt value 10 = some (byte 'T') ∨
      byteAt value 10 = some (byte 't') ∨ byteAt value 10 = some (byte ' ')) then none
  else if byteAt value 13 ≠ some (byte ':') ∨ byteAt value 16 ≠ some (byte ':') then none
  else
    let hour ← parseI64 value 11 13
    let minute ← parseI64 value 14 16
    let second ← parseI64 value 17 19
    if 23 < hour ∨ 59 < minute ∨ 59 < second then none
    else
      let offset ← parseOffset (← skipFraction (← getFrom? value 19))
      checkedI64 ((← checkedI64 (dayStart + (hour * 3600 + minute * 60 + second))) - offset)

/-- The year is positive, as `civil_from_days` has checked. -/
def formatTimestamp (ts : ℤ) : Option Text := do
  let seconds := (ts % day).toNat
  let date ← civilFromDays (ts / day)
  some (pad 4 date.year.toNat ++ '-' :: pad 2 date.month ++ '-' :: pad 2 date.day ++
    'T' :: pad 2 (seconds / 3600) ++ ':' :: pad 2 (seconds % 3600 / 60) ++
    ':' :: pad 2 (seconds % 60) ++ ['Z'])

/-! ## What is formatted is parsed back -/

/-- A date as it is formatted. -/
def formatDate (date : CivilDate) : Text :=
  pad 4 date.year.toNat ++ '-' :: (pad 2 date.month ++ '-' :: pad 2 date.day)

theorem parse_formatDate {date : CivilDate} (hd : Storable date) :
    len (formatDate date) = 10 ∧ parseDate (formatDate date) = some date := by
  have hone := hd.one_le
  have hle := hd.le
  have hmonthLe := hd.month_le
  have hdayLe := hd.day_le.trans (monthLength_le date.year date.month)
  have hyear : len (pad 4 date.year.toNat) = 4 := len_pad (by decide) (by omega)
  have hmonth : len (pad 2 date.month) = 2 := len_pad (by decide) (by omega)
  have hday : len (pad 2 date.day) = 2 := len_pad (by decide) (by omega)
  have hdash : ('-' : Char).utf8Size = 1 := rfl
  rw [formatDate]
  generalize hv : pad 4 date.year.toNat ++ '-' :: (pad 2 date.month ++ '-' :: pad 2 date.day) = v
  have hlen : len v = 10 := by
    rw [← hv]
    simp only [len_append, len_cons, hyear, hmonth, hday, hdash]
  have hfirst : byteAt v 4 = some (byte '-') := byteAt_eq hv.symm hyear rfl
  have hlast : byteAt v 7 = some (byte '-') :=
    byteAt_eq (a := pad 4 date.year.toNat ++ '-' :: pad 2 date.month) (b := pad 2 date.day)
      (by simp [← hv])
      (by simp only [len_append, len_cons, hyear, hmonth, hdash]) rfl
  have hyears : get? v 0 4 = some (pad 4 date.year.toNat) :=
    get?_eq_some.mpr ⟨[], _, hv.symm, rfl, by rw [hyear]⟩
  have hmonths : get? v 5 7 = some (pad 2 date.month) :=
    get?_field hv.symm (by rw [hyear, hdash]) (by rw [hmonth])
  have hdays : get? v 8 10 = some (pad 2 date.day) :=
    get?_field (a := pad 4 date.year.toNat ++ '-' :: pad 2 date.month) (b := []) (c := '-')
      (by simp [← hv])
      (by simp only [len_append, len_cons, hyear, hmonth, hdash]) (by rw [hday])
  have hdate : checkedDate date.year date.month date.day = some date := by
    rw [checkedDate, daysFromCivil_eq_some.mpr ⟨hd, rfl⟩]
    rfl
  refine ⟨hlen, ?_⟩
  rw [parseDate, if_neg (not_not.mpr hlen), hfirst, hlast]
  simp only [Option.bind_eq_bind, Option.bind_some, ne_eq, not_true_eq_false, or_false, true_or,
    if_false, parseI32, parseU32, hyears, hmonths, hdays]
  rw [parseInt_pad 4 (by omega) (by omega), parseInt_pad 2 (by omega) (by omega),
    parseInt_pad 2 (by omega) (by omega)]
  simp only [Option.bind_some, Int.toNat_natCast, Int.toNat_of_nonneg (show 0 ≤ date.year by omega),
    hdate]

section Stamp

variable {date h m s v : Text}
  (hv : v = date ++ 'T' :: (h ++ ':' :: (m ++ ':' :: (s ++ ['Z'])))) (hdate : len date = 10)
  (hh : len h = 2) (hm : len m = 2) (hs : len s = 2)

include hv hdate hh hm hs

theorem stamp_separators :
    len v = 20 ∧ byteAt v 10 = some (byte 'T') ∧ byteAt v 13 = some (byte ':') ∧
      byteAt v 16 = some (byte ':') := by
  have ht : ('T' : Char).utf8Size = 1 := rfl
  have hcolon : (':' : Char).utf8Size = 1 := rfl
  have hz : ('Z' : Char).utf8Size = 1 := rfl
  refine ⟨?_, byteAt_eq hv hdate rfl, ?_, ?_⟩
  · rw [hv]
    simp only [len_append, len_cons, hdate, hh, hm, hs, ht, hcolon, hz]
    rfl
  · exact byteAt_eq (a := date ++ 'T' :: h) (b := m ++ ':' :: (s ++ ['Z'])) (by simp [hv])
      (by simp only [len_append, len_cons, hdate, hh, ht]) rfl
  · exact byteAt_eq (a := date ++ 'T' :: (h ++ ':' :: m)) (b := s ++ ['Z']) (by simp [hv])
      (by simp only [len_append, len_cons, hdate, hh, hm, ht, hcolon]) rfl

theorem stamp_slices :
    get? v 0 10 = some date ∧ get? v 11 13 = some h ∧ get? v 14 16 = some m ∧
      get? v 17 19 = some s ∧ getFrom? v 19 = some ['Z'] := by
  have ht : ('T' : Char).utf8Size = 1 := rfl
  have hcolon : (':' : Char).utf8Size = 1 := rfl
  refine ⟨get?_eq_some.mpr ⟨[], _, hv, rfl, by rw [hdate]⟩,
    get?_field hv (by rw [hdate, ht]) (by rw [hh]), ?_, ?_, ?_⟩
  · exact get?_field (a := date ++ 'T' :: h) (b := ':' :: (s ++ ['Z'])) (c := ':') (by simp [hv])
      (by simp only [len_append, len_cons, hdate, hh, ht, hcolon]) (by rw [hm])
  · exact get?_field (a := date ++ 'T' :: (h ++ ':' :: m)) (b := ['Z']) (c := ':') (by simp [hv])
      (by simp only [len_append, len_cons, hdate, hh, hm, ht, hcolon]) (by rw [hs])
  · refine getFrom?_eq_some.mpr ⟨date ++ 'T' :: (h ++ ':' :: (m ++ ':' :: s)), by simp [hv], ?_⟩
    simp only [len_append, len_cons, hdate, hh, hm, hs, ht, hcolon]

end Stamp

/-- An instant of a day that can be stored fits an `i64`. -/
theorem checkedI64_instant {d : CivilDate} (hd : Storable d) (seconds : ℤ) (hle : 0 ≤ seconds)
    (hlt : seconds < day) :
    checkedI64 ((d.dayNumber - 719468) * day + seconds) =
      some ((d.dayNumber - 719468) * day + seconds) := by
  have hrange := storable_range hd
  rw [day] at *
  exact checkedI64_eq_some.mpr ⟨by omega, rfl⟩

/-- A date, a time and a `Z`, cut at the separators. -/
theorem parseTimestamp_fields {date h m s v : Text} {d : CivilDate} {n hour minute second : ℤ}
    (hv : v = date ++ 'T' :: (h ++ ':' :: (m ++ ':' :: (s ++ ['Z']))))
    (hdate : parseDate date = some d) (hlen : len date = 10) (hn : daysFromCivil d = some n)
    (hh : len h = 2) (hm : len m = 2) (hs : len s = 2)
    (hhour : parseInt (-2 ^ 63) (2 ^ 63 - 1) h = some hour) (hhour' : 0 ≤ hour ∧ hour ≤ 23)
    (hminute : parseInt (-2 ^ 63) (2 ^ 63 - 1) m = some minute)
    (hminute' : 0 ≤ minute ∧ minute ≤ 59)
    (hsecond : parseInt (-2 ^ 63) (2 ^ 63 - 1) s = some second)
    (hsecond' : 0 ≤ second ∧ second ≤ 59) (htrim : trim v = v) :
    parseTimestamp v = some (n * day + (hour * 3600 + minute * 60 + second)) := by
  obtain ⟨hlenv, hten, hthirteen, hsixteen⟩ := stamp_separators hv hlen hh hm hs
  obtain ⟨hdates, hhours, hminutes, hseconds, hsuffix⟩ := stamp_slices hv hlen hh hm hs
  obtain ⟨hstorable, rfl⟩ := daysFromCivil_eq_some.mp hn
  have hstart := checkedI64_instant hstorable 0 (le_refl 0) (by decide)
  rw [add_zero] at hstart
  have hinstant := checkedI64_instant hstorable (hour * 3600 + minute * 60 + second) (by omega)
    (by rw [day]; omega)
  have hskip : skipFraction ['Z'] = some ['Z'] := rfl
  have hoffset : parseOffset ['Z'] = some 0 := rfl
  simp only [parseTimestamp, htrim, hdates, hdate, hn, hstart, hlenv, hten, hthirteen, hsixteen,
    parseI64, hhours, hminutes, hseconds, hhour, hminute, hsecond, hsuffix, hskip, hoffset,
    Option.bind_eq_bind, Option.bind_some]
  rw [if_neg (by decide), if_neg (by decide), if_neg (by decide), if_neg (by omega), hinstant,
    Option.bind_some, sub_zero, hinstant]

theorem parse_format {ts : ℤ} {t : Text} (h : formatTimestamp ts = some t) :
    parseTimestamp t = some ts := by
  obtain ⟨date, hdate, ht⟩ := Option.bind_eq_some_iff.mp h
  obtain ⟨hd, hdays⟩ := civilFromDays_eq_some.mp hdate
  obtain ⟨hlen, hparsed⟩ := parse_formatDate hd
  have hseconds : ((ts % day).toNat : ℤ) = ts % day ∧ (ts % day).toNat < 86400 := by
    rw [day]
    omega
  generalize (ts % day).toNat = seconds at ht hseconds
  have hstamp : t = formatDate date ++ 'T' :: (pad 2 (seconds / 3600) ++ ':' ::
      (pad 2 (seconds % 3600 / 60) ++ ':' :: (pad 2 (seconds % 60) ++ ['Z']))) := by
    rw [← Option.some.inj ht, formatDate]
    simp only [List.append_assoc, List.cons_append]
  have htrim : trim t = t := by
    refine trim_eq_self (fun c hc => ?_) (fun c hc => ?_)
    · rw [hstamp, formatDate, List.append_assoc,
        List.head?_append_of_ne_nil _ (decimal_pad 4 _).1] at hc
      exact isWhitespace_of_isDigit ((decimal_pad 4 _).2 c (List.mem_of_head? hc))
    · rw [← Option.some.inj ht, List.getLast?_concat] at hc
      obtain rfl := Option.some.inj hc
      rfl
  rw [parseTimestamp_fields hstamp hparsed hlen (daysFromCivil_eq_some.mpr ⟨hd, rfl⟩)
    (len_pad (by decide) (by omega)) (len_pad (by decide) (by omega))
    (len_pad (by decide) (by omega)) (parseInt_pad 2 (by omega) (by omega)) (by omega)
    (parseInt_pad 2 (by omega) (by omega)) (by omega) (parseInt_pad 2 (by omega) (by omega))
    (by omega) htrim, ← hdays]
  rw [day] at hseconds ⊢
  exact congrArg some (by omega)

/-- **Round trip.** What is formatted is parsed back, and so is what is formatted of a timestamp
that was parsed. -/
theorem timestamp_roundTrip :
    (∀ ts t, formatTimestamp ts = some t → parseTimestamp t = some ts) ∧
      ∀ s ts t, parseTimestamp s = some ts → formatTimestamp ts = some t →
        parseTimestamp t = parseTimestamp s :=
  ⟨fun _ _ => parse_format, fun _ _ _ hs ht => (parse_format ht).trans hs.symm⟩

/-- The instants that can be formatted are those of the years 1 to 9999. -/
theorem exists_format_iff {ts : ℤ} :
    (∃ t, formatTimestamp ts = some t) ↔ -719162 * day ≤ ts ∧ ts < 2932897 * day := by
  have hdate : (∃ t, formatTimestamp ts = some t) ↔ ∃ d, civilFromDays (ts / day) = some d := by
    simp only [formatTimestamp, Option.bind_eq_bind, Option.bind_eq_some_iff, Option.some_inj]
    exact ⟨fun ⟨_, d, hd, _⟩ => ⟨d, hd⟩, fun ⟨d, hd⟩ => ⟨_, d, hd, rfl⟩⟩
  rw [hdate, day]
  constructor
  · rintro ⟨d, hd⟩
    obtain ⟨hstorable, hdays⟩ := civilFromDays_eq_some.mp hd
    have hrange := storable_range hstorable
    omega
  · rintro ⟨hle, hlt⟩
    obtain ⟨d, hd⟩ := exists_storable (n := ts / 86400) (by omega) (by omega)
    exact ⟨d, civilFromDays_eq_some.mpr hd⟩

/-! ## What is accepted -/

/-- The texts of the fields of a timestamp. -/
structure Fields where
  year : Text
  month : Text
  day : Text
  /-- hour, minute and second -/
  time : Option (Text × Text × Text)
  /-- hours and minutes -/
  offset : Option (Text × Text)

/-- The fields, where the parser takes them. -/
def fieldsOf (s : Text) : Option Fields := do
  let value := trim s
  let year ← get? value 0 4
  let month ← get? value 5 7
  let day ← get? value 8 10
  if len value = 10 then some ⟨year, month, day, none, none⟩
  else
    let time := (← get? value 11 13, ← get? value 14 16, ← get? value 17 19)
    let suffix ← skipFraction (← getFrom? value 19)
    if Utc suffix then some ⟨year, month, day, some time, none⟩
    else some ⟨year, month, day, some time, some (← get? suffix 1 3, ← get? suffix 4 6)⟩

namespace Fields

/-- The texts of all fields, in their order. -/
def all (f : Fields) : List Text :=
  [f.year, f.month, f.day] ++ (f.time.toList.flatMap fun t => [t.1, t.2.1, t.2.2]) ++
    f.offset.toList.flatMap fun o => [o.1, o.2]

/-- The day that the fields name. -/
def date (f : Fields) : CivilDate :=
  ⟨decimalValue f.year, decimalValue f.month, decimalValue f.day⟩

/-- Every field is a decimal in its range of the calendar. -/
structure InRange (f : Fields) : Prop where
  decimal : ∀ t ∈ f.all, Decimal t
  date : Storable f.date
  time : ∀ t ∈ f.time, decimalValue t.1 ≤ 23 ∧ decimalValue t.2.1 ≤ 59 ∧ decimalValue t.2.2 ≤ 59
  offset : ∀ o ∈ f.offset, decimalValue o.1 ≤ 23 ∧ decimalValue o.2 ≤ 59

/-- The instant is in the day that the fields name. -/
def Within (f : Fields) (ts : ℤ) : Prop :=
  ∃ n, daysFromCivil f.date = some n ∧ n * Temporal.day ≤ ts ∧ ts < (n + 1) * Temporal.day

end Fields

/-- The string has decimal fields in their ranges and, without an offset, an instant of its day. -/
def Shaped (s : Text) (ts : ℤ) : Prop :=
  ∃ f, fieldsOf s = some f ∧ f.InRange ∧ (f.offset = none → f.Within ts)

/-- No field begins with a sign. -/
def Signless (s : Text) : Prop := ∀ f ∈ fieldsOf s, ∀ t ∈ f.all, ¬Signed t

instance (s : Text) : Decidable (Signless s) :=
  inferInstanceAs (Decidable (∀ f ∈ fieldsOf s, ∀ t ∈ f.all, ¬Signed t))

/-- What the parser has read from the fields: a date with the day number `n`, then a time and an
offset that it has only compared with upper bounds. -/
structure Fields.Read (f : Fields) (n ts : ℤ) : Prop where
  date : ∃ year month day, parseInt (-2 ^ 31) (2 ^ 31 - 1) f.year = some year ∧
    parseInt 0 (2 ^ 32 - 1) f.month = some month ∧ parseInt 0 (2 ^ 32 - 1) f.day = some day ∧
    daysFromCivil ⟨year, month.toNat, day.toNat⟩ = some n
  untimed : f.time = none → f.offset = none ∧ ts = n * Temporal.day
  time : ∀ t ∈ f.time, ∃ hour minute second,
    parseInt (-2 ^ 63) (2 ^ 63 - 1) t.1 = some hour ∧
    parseInt (-2 ^ 63) (2 ^ 63 - 1) t.2.1 = some minute ∧
    parseInt (-2 ^ 63) (2 ^ 63 - 1) t.2.2 = some second ∧
    hour ≤ 23 ∧ minute ≤ 59 ∧ second ≤ 59 ∧
    (f.offset = none → ts = n * Temporal.day + (hour * 3600 + minute * 60 + second))
  offset : ∀ o ∈ f.offset, ∃ hours minutes, parseInt (-2 ^ 63) (2 ^ 63 - 1) o.1 = some hours ∧
    parseInt (-2 ^ 63) (2 ^ 63 - 1) o.2 = some minutes ∧ hours ≤ 23 ∧ minutes ≤ 59

/-- What a date has been read from. -/
theorem parseDate_ok {value : Text} {d : CivilDate} (h : parseDate value = some d) :
    ∃ yearText monthText dayText, get? value 0 4 = some yearText ∧
      get? value 5 7 = some monthText ∧ get? value 8 10 = some dayText ∧
      ∃ year month day, parseInt (-2 ^ 31) (2 ^ 31 - 1) yearText = some year ∧
        parseInt 0 (2 ^ 32 - 1) monthText = some month ∧
        parseInt 0 (2 ^ 32 - 1) dayText = some day ∧ d = ⟨year, month.toNat, day.toNat⟩ := by
  rw [parseDate] at h
  split at h
  · cases h
  simp only [Option.bind_eq_bind, Option.bind_eq_some_iff] at h
  obtain ⟨separator, -, h⟩ := h
  split at h
  · cases h
  simp only [Option.bind_eq_some_iff, parseI32, parseU32, checkedDate, Option.map_eq_some_iff] at h
  obtain ⟨year, ⟨yearText, hyearText, hyear⟩, month, ⟨monthText, hmonthText, hmonth⟩, day,
    ⟨dayText, hdayText, hday⟩, n, -, rfl⟩ := h
  exact ⟨yearText, monthText, dayText, hyearText, hmonthText, hdayText, year, month, day, hyear,
    hmonth, hday, rfl⟩

/-- A slice of the first part of a string is a slice of the string. -/
theorem get?_of_get? {value m t : Text} {k i j : ℕ} (hm : get? value 0 k = some m)
    (ht : get? m i j = some t) : get? value i j = some t := by
  obtain ⟨a, b, rfl, ha, -⟩ := get?_eq_some.mp hm
  obtain ⟨a', b', rfl, ha', hj⟩ := get?_eq_some.mp ht
  refine get?_eq_some.mpr ⟨a ++ a', b' ++ b, ?_, ?_, hj⟩
  · simp only [List.append_assoc]
  · rw [len_append, ha, ha', zero_add]

/-- What an offset has been read from. -/
theorem parseOffset_ok {suffix : Text} {offset : ℤ} (h : parseOffset suffix = some offset) :
    (Utc suffix ∧ offset = 0) ∨ ¬Utc suffix ∧ ∃ hoursText minutesText,
      get? suffix 1 3 = some hoursText ∧ get? suffix 4 6 = some minutesText ∧
      ∃ hours minutes, parseInt (-2 ^ 63) (2 ^ 63 - 1) hoursText = some hours ∧
        parseInt (-2 ^ 63) (2 ^ 63 - 1) minutesText = some minutes ∧ hours ≤ 23 ∧
        minutes ≤ 59 := by
  rw [parseOffset] at h
  split at h
  next hutc => exact .inl ⟨hutc, (Option.some.inj h).symm⟩
  next hutc =>
    split at h
    · simp only [Option.bind_eq_bind, Option.bind_eq_some_iff, parseI64] at h
      obtain ⟨hours, ⟨hoursText, hhoursText, hhours⟩, minutes,
        ⟨minutesText, hminutesText, hminutes⟩, h⟩ := h
      split at h
      · cases h
      · exact .inr ⟨hutc, hoursText, minutesText, hhoursText, hminutesText, hours, minutes, hhours,
          hminutes, by omega, by omega⟩
    · cases h

/-- **What the parser accepts**: a string with fields that it has read. -/
theorem parseTimestamp_ok {s : Text} {ts : ℤ} (h : parseTimestamp s = some ts) :
    ∃ f n, fieldsOf s = some f ∧ f.Read n ts := by
  simp only [parseTimestamp, Option.bind_eq_bind, Option.bind_eq_some_iff,
    checkedI64_eq_some] at h
  obtain ⟨value, hvalue, d, hd, n, hn, _, ⟨-, rfl⟩, h⟩ := h
  obtain ⟨yearText, monthText, dayText, hyearText, hmonthText, hdayText, year, month, day, hyear,
    hmonth, hday, rfl⟩ := parseDate_ok hd
  simp only [fieldsOf, get?_of_get? hvalue hyearText, get?_of_get? hvalue hmonthText,
    get?_of_get? hvalue hdayText, Option.bind_eq_bind, Option.bind_some]
  have hdate : ∃ y m d, parseInt (-2 ^ 31) (2 ^ 31 - 1) yearText = some y ∧
      parseInt 0 (2 ^ 32 - 1) monthText = some m ∧ parseInt 0 (2 ^ 32 - 1) dayText = some d ∧
      daysFromCivil ⟨y, m.toNat, d.toNat⟩ = some n := ⟨year, month, day, hyear, hmonth, hday, hn⟩
  split at h
  next hlen =>
    rw [if_pos hlen]
    exact ⟨_, n, rfl, hdate, fun _ => ⟨rfl, (Option.some.inj h).symm⟩, nofun, nofun⟩
  next hlen =>
    rw [if_neg hlen]
    split at h
    · cases h
    split at h
    · cases h
    simp only [parseI64, Option.bind_eq_some_iff] at h
    obtain ⟨hour, ⟨hourText, hhourText, hhour⟩, minute, ⟨minuteText, hminuteText, hminute⟩, second,
      ⟨secondText, hsecondText, hsecond⟩, h⟩ := h
    split at h
    · cases h
    simp only [Option.bind_eq_some_iff, checkedI64_eq_some] at h
    obtain ⟨rest, hrest, suffix, hsuffix, offset, hoffset, _, ⟨-, rfl⟩, -, rfl⟩ := h
    simp only [hhourText, hminuteText, hsecondText, hrest, hsuffix, Option.bind_some]
    rcases parseOffset_ok hoffset with ⟨hutc, rfl⟩ |
      ⟨hutc, hoursText, minutesText, hhoursText, hminutesText, hread⟩
    · rw [if_pos hutc]
      refine ⟨_, n, rfl, hdate, nofun, ?_, nofun⟩
      rintro _ ⟨⟩
      exact ⟨hour, minute, second, hhour, hminute, hsecond, by omega, by omega, by omega,
        fun _ => sub_zero _⟩
    · rw [if_neg hutc]
      simp only [hhoursText, hminutesText, Option.bind_some]
      refine ⟨_, n, rfl, hdate, nofun, ?_, ?_⟩
      · rintro _ ⟨⟩
        exact ⟨hour, minute, second, hhour, hminute, hsecond, by omega, by omega, by omega, nofun⟩
      · rintro _ ⟨⟩
        exact hread

section Read

variable {f : Fields} {n ts : ℤ}

/-- Every field has been read as an integer. -/
theorem Fields.Read.parsed (h : f.Read n ts) {t : Text} (ht : t ∈ f.all) :
    ∃ lo hi m, parseInt lo hi t = some m := by
  obtain ⟨year, month, day, hyear, hmonth, hday, -⟩ := h.date
  simp only [Fields.all, List.mem_append, List.mem_cons, List.not_mem_nil, or_false,
    List.mem_flatMap, Option.mem_toList] at ht
  rcases ht with ((rfl | rfl | rfl) | ⟨time, htime, ht⟩) | ⟨offset, hoffset, ht⟩
  · exact ⟨_, _, _, hyear⟩
  · exact ⟨_, _, _, hmonth⟩
  · exact ⟨_, _, _, hday⟩
  · obtain ⟨hour, minute, second, hhour, hminute, hsecond, -⟩ := h.time time htime
    rcases ht with rfl | rfl | rfl
    · exact ⟨_, _, _, hhour⟩
    · exact ⟨_, _, _, hminute⟩
    · exact ⟨_, _, _, hsecond⟩
  · obtain ⟨hours, minutes, hhours, hminutes, -⟩ := h.offset offset hoffset
    rcases ht with rfl | rfl
    · exact ⟨_, _, _, hhours⟩
    · exact ⟨_, _, _, hminutes⟩

theorem Fields.mem_all_of_time {t : Text × Text × Text} (ht : t ∈ f.time) :
    t.1 ∈ f.all ∧ t.2.1 ∈ f.all ∧ t.2.2 ∈ f.all := by
  simp [Fields.all, Option.mem_def.mp ht]

theorem Fields.mem_all_of_offset {o : Text × Text} (ho : o ∈ f.offset) :
    o.1 ∈ f.all ∧ o.2 ∈ f.all := by
  simp [Fields.all, Option.mem_def.mp ho]

/-- What has been read from a field without a sign. -/
theorem eq_decimalValue {lo hi m : ℤ} {t : Text} (hsign : ¬Signed t)
    (h : parseInt lo hi t = some m) : m = decimalValue t :=
  ((parseInt_decimal hsign).mp h).2.1

theorem Fields.Read.decimal (h : f.Read n ts) (hsigns : ∀ t ∈ f.all, ¬Signed t) :
    ∀ t ∈ f.all, Decimal t := by
  intro t ht
  obtain ⟨lo, hi, m, hparse⟩ := h.parsed ht
  exact ((parseInt_decimal (hsigns t ht)).mp hparse).1

theorem Fields.Read.days (h : f.Read n ts) (hsigns : ∀ t ∈ f.all, ¬Signed t) :
    daysFromCivil f.date = some n := by
  obtain ⟨year, month, day, hyear, hmonth, hday, hn⟩ := h.date
  obtain rfl := eq_decimalValue (hsigns _ (by simp [Fields.all])) hyear
  obtain rfl := eq_decimalValue (hsigns _ (by simp [Fields.all])) hmonth
  obtain rfl := eq_decimalValue (hsigns _ (by simp [Fields.all])) hday
  exact hn

theorem Fields.Read.time_le (h : f.Read n ts) (hsigns : ∀ t ∈ f.all, ¬Signed t)
    {t : Text × Text × Text} (ht : t ∈ f.time) :
    decimalValue t.1 ≤ 23 ∧ decimalValue t.2.1 ≤ 59 ∧ decimalValue t.2.2 ≤ 59 ∧
      (f.offset = none → ts = n * Temporal.day +
        (decimalValue t.1 * 3600 + decimalValue t.2.1 * 60 + decimalValue t.2.2)) := by
  obtain ⟨hour, minute, second, hhour, hminute, hsecond, hle, hle', hle'', hts⟩ := h.time t ht
  obtain ⟨hmem, hmem', hmem''⟩ := mem_all_of_time ht
  obtain rfl := eq_decimalValue (hsigns _ hmem) hhour
  obtain rfl := eq_decimalValue (hsigns _ hmem') hminute
  obtain rfl := eq_decimalValue (hsigns _ hmem'') hsecond
  exact ⟨by omega, by omega, by omega, hts⟩

theorem Fields.Read.offset_le (h : f.Read n ts) (hsigns : ∀ t ∈ f.all, ¬Signed t)
    {o : Text × Text} (ho : o ∈ f.offset) : decimalValue o.1 ≤ 23 ∧ decimalValue o.2 ≤ 59 := by
  obtain ⟨hours, minutes, hhours, hminutes, hle, hle'⟩ := h.offset o ho
  obtain ⟨hmem, hmem'⟩ := mem_all_of_offset ho
  obtain rfl := eq_decimalValue (hsigns _ hmem) hhours
  obtain rfl := eq_decimalValue (hsigns _ hmem') hminutes
  omega

/-- Without an offset, the instant is in the day: the day has no more seconds than the time. -/
theorem Fields.Read.within (h : f.Read n ts) (hsigns : ∀ t ∈ f.all, ¬Signed t)
    (hnone : f.offset = none) : f.Within ts := by
  refine ⟨n, h.days hsigns, ?_⟩
  cases htime : f.time with
  | none =>
    rw [(h.untimed htime).2, Temporal.day]
    omega
  | some t =>
    obtain ⟨hle, hle', hle'', hts⟩ := h.time_le hsigns htime
    rw [hts hnone, Temporal.day]
    omega

/-- Without signs, the fields are decimals in their ranges. -/
theorem Fields.Read.inRange (h : f.Read n ts) (hsigns : ∀ t ∈ f.all, ¬Signed t) : f.InRange where
  decimal := h.decimal hsigns
  date := (daysFromCivil_eq_some.mp (h.days hsigns)).1
  time t ht := by
    obtain ⟨hle, hle', hle'', -⟩ := h.time_le hsigns ht
    exact ⟨hle, hle', hle''⟩
  offset o ho := h.offset_le hsigns ho

end Read

/-- **When an accepted string has the shape of a timestamp.** -/
theorem shaped_iff {s : Text} {ts : ℤ} (h : parseTimestamp s = some ts) :
    Shaped s ts ↔ Signless s := by
  obtain ⟨f, n, hf, hread⟩ := parseTimestamp_ok h
  constructor
  · rintro ⟨f', hf', hrange, -⟩ f'' hf''
    obtain rfl := Option.some.inj (hf'.symm.trans hf'')
    exact fun t ht => (hrange.decimal t ht).not_signed
  · intro hsigns
    exact ⟨f, hf, hread.inRange (hsigns f hf), hread.within (hsigns f hf)⟩

/-- Noon in a zone two hours east. -/
def noonEast : Text := "2026-05-03T12:00:00+02:00".toList

theorem noonEast_shaped :
    parseTimestamp noonEast = some 1777802400 ∧ Shaped noonEast 1777802400 := by
  have hparse : parseTimestamp noonEast = some 1777802400 := by decide +kernel
  exact ⟨hparse, (shaped_iff hparse).mpr (by decide +kernel)⟩

/-- An hour with a sign: the instant is on the day before. -/
def signedHour : Text := "2024-01-01T-1:00:00".toList

theorem signedHour_not_shaped : ¬∀ s ts, parseTimestamp s = some ts → Shaped s ts := by
  intro h
  obtain ⟨f, hf, hrange, -⟩ := h signedHour 1704063600 (by decide +kernel)
  have hhour : ∀ f ∈ fieldsOf signedHour, ['-', '1'] ∈ f.all := by decide +kernel
  exact absurd (hrange.decimal _ (hhour f hf)) (by decide)

end SynapseMemory.Temporal
