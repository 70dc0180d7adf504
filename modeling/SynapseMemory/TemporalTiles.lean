import SynapseMemory.TemporalPhrases
import SynapseMemory.TemporalStamps

/-!
# The ranges of the calendar

Last, this and next week, month and year, and the months and quarters of a year: each kind of range
is cut out of the seconds by a strictly increasing function, one range from each value to the one
before the next (`span`). So the ranges of a kind are adjacent, and so many in a row tile what lies
between the first and the last cut (`tiles_of_strictMono`).

The end of a month is found from the first day of the next one. In the year 9999 there is none after
December, so December, the last quarter and the year have no range, and the ranges of the months do
not tile the year. In every other year they do (`calendarTiles_iff`).
-/

namespace SynapseMemory.Temporal

open Gregorian Outcome
open Checked (i64)

/-! ## Ranges in a row -/

/-- The second range begins where the first one ends. -/
def Adjacent (r r' : DateRange) : Prop := r.hi + 1 = r'.lo

/-- Every second of the whole is in one of the ranges, which are in order and have nothing else. -/
structure Tiles (rs : List DateRange) (whole : DateRange) : Prop where
  disjoint : rs.Pairwise fun r r' => r.hi < r'.lo
  covers : ∀ ts, whole.Contains ts ↔ ∃ r ∈ rs, r.Contains ts

/-- From one cut to the next. -/
def span (f : ℤ → ℤ) (k : ℤ) : DateRange := ⟨f k, f (k + 1) - 1⟩

theorem adjacent_span (f : ℤ → ℤ) (k : ℤ) : Adjacent (span f k) (span f (k + 1)) :=
    sub_add_cancel _ _

theorem tiles_of_strictMono {f : ℤ → ℤ} (hf : StrictMono f) (n : ℕ) :
    Tiles ((List.range n).map fun i : ℕ => span f i) ⟨f 0, f n - 1⟩ where
  disjoint := by
    rw [List.pairwise_map]
    refine List.pairwise_lt_range.imp fun {i j} hij => ?_
    have hle := hf.monotone (show (i : ℤ) + 1 ≤ j by omega)
    dsimp only [span]
    omega
  covers ts := by
    simp only [List.mem_map, List.mem_range, exists_exists_and_eq_and, DateRange.Contains, span]
    constructor
    · intro h
      induction n with
      | zero => exact absurd h.1 (by simp at h; omega)
      | succ n ih =>
        by_cases hts : ts ≤ f n - 1
        · obtain ⟨i, hi, hcontains⟩ := ih ⟨h.1, hts⟩
          exact ⟨i, by omega, hcontains⟩
        · refine ⟨n, by omega, by omega, ?_⟩
          rw [← Nat.cast_succ]
          exact h.2
    · rintro ⟨i, hi, hlo, hhi⟩
      have hfirst := hf.monotone (show (0 : ℤ) ≤ i by omega)
      have hlast := hf.monotone (show (i : ℤ) + 1 ≤ n by omega)
      omega

/-- The ranges of the words of a table, from first to last. -/
theorem tiles_words {words : List (String × ℕ)} {n : ℕ}
    (hwords : words.map Prod.snd = (List.range n).map (· + 1)) {f : ℤ → ℤ} (hf : StrictMono f)
    {range : String × ℕ → Outcome Unit DateRange}
    (hrange : ∀ e ∈ words, range e = .ok (span f (e.2 - 1))) :
    ∃ rs, words.map range = rs.map .ok ∧ Tiles rs ⟨f 0, f n - 1⟩ := by
  refine ⟨_, ?_, tiles_of_strictMono hf n⟩
  calc words.map range
      = words.map fun e => .ok (span f (e.2 - 1)) := List.map_congr_left hrange
    _ = (words.map Prod.snd).map fun m : ℕ => .ok (span f (m - 1)) := by
      rw [List.map_map]
      rfl
    _ = ((List.range n).map fun i : ℕ => span f i).map .ok := by
      rw [hwords, List.map_map, List.map_map]
      refine List.map_congr_left fun i _ => ?_
      simp

/-- This range has the second in it, and the last and the next one are beside it if there are
any. -/
structure Consecutive (last this next : Outcome Unit DateRange) (now : ℤ) : Prop where
  contains : ∃ r, this = .ok r ∧ r.Contains now
  after_last : ∀ l r, last = .ok l → this = .ok r → Adjacent l r
  before_next : ∀ r n, this = .ok r → next = .ok n → Adjacent r n

theorem consecutive_of_cut {f : ℤ → ℤ} {now : ℤ} (range : ℤ → Outcome Unit DateRange)
    (hrange : ∀ k, -1 ≤ k ∧ k ≤ 1 → ∀ r, range k = .ok r → r = span f k)
    (hthis : ∃ r, range 0 = .ok r) (hnow : f 0 ≤ now ∧ now < f 1) :
    Consecutive (range (-1)) (range 0) (range 1) now where
  contains := by
    obtain ⟨r, hr⟩ := hthis
    obtain rfl := hrange 0 (by decide) r hr
    exact ⟨_, hr, hnow.1, Int.le_sub_one_of_lt hnow.2⟩
  after_last l r hl hr := by
    rw [hrange _ (by decide) l hl, hrange _ (by decide) r hr]
    exact adjacent_span f (-1)
  before_next r n hr hn := by
    rw [hrange _ (by decide) r hr, hrange _ (by decide) n hn]
    exact adjacent_span f 0

/-! ## Where the calendar is cut -/

/-- Where a week begins. -/
def weekCut (today : CivilDate) (k : ℤ) : ℤ := (mondayOf today + 7 * k) * day

/-- Where a month begins. -/
def monthCut (today : CivilDate) (k : ℤ) : ℤ := startOf (today.monthIndex + k)

/-- Where a year begins. -/
def yearCut (today : CivilDate) (k : ℤ) : ℤ := startOf (12 * (today.year + k))

variable {today : CivilDate} {now : ℤ}

theorem week_range {k : ℤ} (hk : -1 ≤ k ∧ k ≤ 1) {r : DateRange}
    (h : (Cue.week k).range today = .ok r) : r = span (weekCut today) k := by
  change (i64 (k * 7) >>= fun days => Checked.addDays today days >>= weekOf) = _ at h
  rw [Checked.i64_of (by omega), ok_bind, Checked.addDays_eq] at h
  obtain ⟨d, hadd, hweek⟩ := Outcome.bind_eq_ok.mp h
  obtain ⟨-, hd, hnumber⟩ := addDays_eq_some.mp (ofOption_eq_ok.mp hadd)
  have hmonday : mondayOf d = mondayOf today + 7 * k := by
    rw [mondayOf, mondayOf, hnumber]
    omega
  rw [weekOf_of hd, hmonday] at hweek
  rw [← Outcome.ok.inj hweek, span, weekCut, weekCut]
  congr 2
  ring

theorem month_range (hd : Storable today) {k : ℤ} (hk : -1 ≤ k ∧ k ≤ 1) {r : DateRange}
    (h : (Cue.month k).range today = .ok r) : r = span (monthCut today) k := by
  change monthFrom today k = _ at h
  rw [monthFrom_eq hd hk] at h
  split at h
  · rw [← Outcome.ok.inj h, months, span, monthCut, monthCut, add_assoc]
  · cases h

theorem year_range (hd : Storable today) {k : ℤ} (hk : -1 ≤ k ∧ k ≤ 1) {r : DateRange}
    (h : (Cue.year k).range today = .ok r) : r = span (yearCut today) k := by
  have hone := hd.one_le
  have hle := hd.le
  change i32 (today.year + k) >>= yearOf = _ at h
  rw [i32, signed_of (by omega), ok_bind, yearOf_eq (by omega)] at h
  split at h
  · rw [← Outcome.ok.inj h, months, span, yearCut, yearCut, add_assoc]
  · cases h

/-- Today's month has the second in it. -/
theorem now_in_month (hd : Storable today) (hnow : now / day = today.dayNumber - 719468) :
    monthCut today 0 ≤ now ∧ now < monthCut today 1 := by
  have hle := hd.1.monthStart_le
  have hlt := hd.1.lt_monthStart
  rw [monthCut, monthCut, add_zero, startOf, startOf]
  rw [day] at *
  omega

theorem now_in_year (hd : Storable today) (hnow : now / day = today.dayNumber - 719468) :
    yearCut today 0 ≤ now ∧ now < yearCut today 1 := by
  obtain ⟨hle, hlt⟩ := now_in_month hd hnow
  have hpos := hd.month_pos
  have htwelve := hd.month_le
  have hfirst := startOf_strictMono.monotone
    (show 12 * (today.year + 0) ≤ today.monthIndex + 0 by rw [Date.monthIndex]; omega)
  have hlast := startOf_strictMono.monotone
    (show today.monthIndex + 1 ≤ 12 * (today.year + 1) by rw [Date.monthIndex]; omega)
  exact ⟨hfirst.trans hle, hlt.trans_le hlast⟩

theorem now_in_week (hnow : now / day = today.dayNumber - 719468) :
    weekCut today 0 ≤ now ∧ now < weekCut today 1 := by
  rw [weekCut, weekCut, mondayOf]
  rw [day] at *
  omega

/-- The seconds of a year, from January 1 to December 31. -/
def calendarYear (y : ℤ) : DateRange := ⟨secondOf ⟨y, 1, 1⟩, secondOf ⟨y, 12, 31⟩ + day - 1⟩

theorem calendarYear_eq (y : ℤ) : calendarYear y =
    ⟨startOf (12 * y), startOf (12 * y + 12) - 1⟩ := by
  have hlast : monthStart (12 * y + 12) = monthStart (12 * y + 12 - 1) + 31 := by
    have hsucc := monthStart_succ (12 * y + (12 : ℕ) - 1)
    rw [lengthAt_eq y (by decide) (by decide), sub_add_cancel] at hsucc
    exact hsucc
  have hnumber : Date.dayNumber ⟨y, 12, 31⟩ + 1 = monthStart (12 * y + 12) := by
    rw [hlast]
    change monthStart (12 * y + 12 - 1) + 31 - 1 + 1 = _
    omega
  have hend : secondOf ⟨y, 12, 31⟩ + day = startOf (12 * y + 12) := by
    rw [secondOf, startOf, ← hnumber]
    ring
  rw [calendarYear, secondOf_first, hend]
  congr 2
  push_cast
  ring

/-! ## Every second -/

section

variable [Unicode] [Lowercase]

/-- What the queries about the calendar are answered on a day. -/
structure CalendarTiles (today : CivilDate) (now : ℤ) : Prop where
  weeks : Consecutive (parseTemporal "last week".toList now) (parseTemporal "this week".toList now)
    (parseTemporal "next week".toList now) now
  months : Consecutive (parseTemporal "last month".toList now)
    (parseTemporal "this month".toList now) (parseTemporal "next month".toList now) now
  years : Consecutive (parseTemporal "last year".toList now) (parseTemporal "this year".toList now)
    (parseTemporal "next year".toList now) now
  parts : ∀ words ∈ [monthWords, quarterWords], ∀ named : Option ℕ,
    (∀ y ∈ named, 1900 ≤ y ∧ y < 2100) →
      ∃ rs, (words.map fun e => parseTemporal (calendarQuery e.1.toList named) now) =
        rs.map .ok ∧ Tiles rs (calendarYear ((named.map Nat.cast).getD today.year))

/-- The last year of the calendar. -/
def LastYear (now : ℤ) : Prop := (calendarYear 9999).Contains now

theorem parseTemporal_span (htoday : Checked.civilFromDays (now / day) = .ok today)
    {e : String × Cue} (he : e ∈ spans) :
    parseTemporal e.1.toList now = e.2.range today := by
  rw [parseTemporal_eq htoday, (hasCue_spans e he).cueIn_eq]
  rfl

omit [Unicode] [Lowercase] in
theorem named_year (hd : Storable today) (hyear : today.year ≠ 9999) {named : Option ℕ}
    (hnamed : ∀ y ∈ named, 1900 ≤ y ∧ y < 2100) :
    1 ≤ (named.map Nat.cast).getD today.year ∧ (named.map Nat.cast).getD today.year ≤ 9998 := by
  have hone := hd.one_le
  have hle := hd.le
  cases named with
  | none => exact ⟨hone, by change today.year ≤ 9998; omega⟩
  | some y =>
    have hy := hnamed y rfl
    change (1 : ℤ) ≤ y ∧ (y : ℤ) ≤ 9998
    omega

section

variable (htoday : Checked.civilFromDays (now / day) = .ok today) (hd : Storable today)
  (hyear : today.year ≠ 9999) {named : Option ℕ} (hnamed : ∀ y ∈ named, 1900 ≤ y ∧ y < 2100)

include htoday hd hyear hnamed

theorem month_parts :
    ∃ rs, (monthWords.map fun e => parseTemporal (calendarQuery e.1.toList named) now) =
      rs.map .ok ∧ Tiles rs (calendarYear ((named.map Nat.cast).getD today.year)) := by
  have hy := named_year hd hyear hnamed
  have hwords : ∀ e ∈ monthWords, 0 < e.2 ∧ e.2 ≤ 12 := by decide
  generalize hname : (named.map Nat.cast).getD today.year = y at hy ⊢
  have hmono : StrictMono fun k => startOf (12 * y + k) := fun a b h =>
    startOf_strictMono (by omega)
  have hrange : ∀ e ∈ monthWords, parseTemporal (calendarQuery e.1.toList named) now =
      .ok (span (fun k => startOf (12 * y + k)) (e.2 - 1)) := by
    intro e he
    obtain ⟨hpos, hle⟩ := hwords e he
    rw [parseTemporal_eq htoday, cueIn_calendarQuery (named_months e he) rfl hnamed]
    change monthOf ((named.map Nat.cast).getD today.year) e.2 = _
    rw [hname, monthOf_eq, if_pos (by omega), months, span, sub_add_cancel, add_sub_assoc]
  have htiles := tiles_words (n := 12) rfl hmono hrange
  rw [calendarYear_eq]
  simpa using htiles

theorem quarter_parts :
    ∃ rs, (quarterWords.map fun e => parseTemporal (calendarQuery e.1.toList named) now) =
      rs.map .ok ∧ Tiles rs (calendarYear ((named.map Nat.cast).getD today.year)) := by
  have hy := named_year hd hyear hnamed
  have hwords : ∀ e ∈ quarterWords, 0 < e.2 ∧ e.2 ≤ 4 := by decide
  generalize hname : (named.map Nat.cast).getD today.year = y at hy ⊢
  have hmono : StrictMono fun k => startOf (12 * y + 3 * k) := fun a b h =>
    startOf_strictMono (by omega)
  have hrange : ∀ e ∈ quarterWords, parseTemporal (calendarQuery e.1.toList named) now =
      .ok (span (fun k => startOf (12 * y + 3 * k)) (e.2 - 1)) := by
    intro e he
    rw [parseTemporal_eq htoday, cueIn_calendarQuery (named_quarters e he) rfl hnamed]
    change quarterOf ((named.map Nat.cast).getD today.year) e.2 = _
    rw [hname, quarterOf_eq (hwords e he), if_pos (by omega), months, span, sub_add_cancel, mul_sub,
      add_sub_assoc, mul_one]
  have htiles := tiles_words (n := 4) rfl hmono hrange
  rw [calendarYear_eq]
  simpa using htiles

end

theorem consecutive_spans (htoday : Checked.civilFromDays (now / day) = .ok today)
    (cue : ℤ → Cue) {last this next : String} (hlast : (last, cue (-1)) ∈ spans)
    (hthis : (this, cue 0) ∈ spans) (hnext : (next, cue 1) ∈ spans) {f : ℤ → ℤ}
    (hrange : ∀ k, -1 ≤ k ∧ k ≤ 1 → ∀ r, (cue k).range today = .ok r → r = span f k)
    (hok : ∃ r, (cue 0).range today = .ok r) (hnow : f 0 ≤ now ∧ now < f 1) :
    Consecutive (parseTemporal last.toList now) (parseTemporal this.toList now)
      (parseTemporal next.toList now) now := by
  rw [parseTemporal_span htoday hlast, parseTemporal_span htoday hthis,
    parseTemporal_span htoday hnext]
  exact consecutive_of_cut (fun k => (cue k).range today) hrange hok hnow

theorem calendarTiles_of (htoday : Checked.civilFromDays (now / day) = .ok today)
    (hd : Storable today) (hnow : now / day = today.dayNumber - 719468)
    (hyear : today.year ≠ 9999) : CalendarTiles today now := by
  have hone := hd.one_le
  have hle := hd.le
  have hpos := hd.month_pos
  have htwelve := hd.month_le
  have hweek : ∃ r, (Cue.week 0).range today = .ok r := by
    change ∃ r, (i64 (0 * 7) >>= fun days => Checked.addDays today days >>= weekOf) = .ok r
    rw [zero_mul, Checked.i64_of (by decide), ok_bind, Checked.addDays_eq,
      addDays_eq_some.mpr ⟨hd, hd, (add_zero _).symm⟩]
    exact ⟨_, weekOf_of hd⟩
  have hmonth : ∃ r, (Cue.month 0).range today = .ok r := by
    refine ⟨_, (monthFrom_eq hd (by decide)).trans (if_pos ?_)⟩
    rw [Date.monthIndex]
    omega
  have hyears : ∃ r, (Cue.year 0).range today = .ok r := by
    change ∃ r, i32 (today.year + 0) >>= yearOf = .ok r
    rw [i32, signed_of (by omega), ok_bind, yearOf_eq (by omega), if_pos (by omega)]
    exact ⟨_, rfl⟩
  refine ⟨?_, ?_, ?_, fun words hwords named hnamed => ?_⟩
  · exact consecutive_spans htoday .week (by simp [spans]) (by simp [spans])
      (by simp [spans]) (fun k hk r => week_range hk) hweek (now_in_week hnow)
  · exact consecutive_spans htoday .month (by simp [spans]) (by simp [spans])
      (by simp [spans]) (fun k hk r => month_range hd hk) hmonth (now_in_month hd hnow)
  · exact consecutive_spans htoday .year (by simp [spans]) (by simp [spans])
      (by simp [spans]) (fun k hk r => year_range hd hk) hyears (now_in_year hd hnow)
  · simp only [List.mem_cons, List.not_mem_nil, or_false] at hwords
    rcases hwords with rfl | rfl
    · exact month_parts htoday hd hyear hnamed
    · exact quarter_parts htoday hd hyear hnamed

omit [Unicode] [Lowercase] in
/-- The year of a second. -/
theorem lastYear_iff (hd : Storable today) (hnow : now / day = today.dayNumber - 719468) :
    LastYear now ↔ today.year = 9999 := by
  obtain ⟨hge, hlt⟩ := now_in_year hd hnow
  have hle := hd.le
  rw [yearCut, add_zero] at hge
  rw [yearCut] at hlt
  rw [LastYear, calendarYear_eq, DateRange.Contains, Int.le_sub_one_iff]
  dsimp only
  constructor
  · rintro ⟨hfirst, -⟩
    by_contra hyear
    have hmono := startOf_strictMono.monotone (show 12 * (today.year + 1) ≤ 12 * 9999 by omega)
    omega
  · rintro hyear
    rw [hyear] at hge hlt
    exact ⟨hge, hlt⟩

/-- Outside of the years no query has a range. -/
theorem parseTemporal_of_not_inYears (hnow : -2 ^ 63 ≤ now) (h : ¬InYears now) (query : Text) :
    parseTemporal query now = .error () := by
  have hge : -2 ^ 63 ≤ now / day := by
    rw [day]
    omega
  have hnone : Temporal.civilFromDays (now / day) = none := by
    by_contra hsome
    obtain ⟨today, htoday⟩ := Option.ne_none_iff_exists'.mp hsome
    have hok : Checked.civilFromDays (now / day) = .ok today := by
      rw [Checked.civilFromDays_eq hge, htoday]
      rfl
    exact h (inYears_of_ok hnow hok)
  rw [parseTemporal, Checked.civilFromDays_eq hge, hnone]
  rfl

/-- **The calendar is tiled**, in every year but the last one. -/
theorem calendarTiles_iff (hnow : -2 ^ 63 ≤ now) :
    (¬InYears now → ∀ query, parseTemporal query now = .error ()) ∧
      ((∀ today, Checked.civilFromDays (now / day) = .ok today → CalendarTiles today now) ↔
        ¬LastYear now) := by
  refine ⟨parseTemporal_of_not_inYears hnow, fun h hlast => ?_, fun h today htoday => ?_⟩
  · have hyears : InYears now := by
      have hfirst : startOf (12 * 9999) = 253370764800 := by decide
      have hend : startOf (12 * 9999 + 12) = 253402300800 := by decide
      rw [LastYear, calendarYear_eq, DateRange.Contains, hfirst, hend] at hlast
      dsimp only at hlast
      rw [InYears, day]
      omega
    obtain ⟨today, hd, hnumber, htoday⟩ := exists_today hyears
    have hyear := (lastYear_iff hd hnumber).mp hlast
    obtain ⟨r, hr, -⟩ := (h today htoday).years.contains
    rw [parseTemporal_span htoday (e := ("this year", .year 0)) (by simp [spans])] at hr
    change i32 (today.year + 0) >>= yearOf = .ok r at hr
    rw [i32, signed_of (by omega), ok_bind, yearOf_eq (by omega), if_neg (by omega)] at hr
    cases hr
  · obtain ⟨today', hd, hnumber, htoday'⟩ := exists_today (inYears_of_ok hnow htoday)
    obtain rfl := Outcome.ok.inj (htoday'.symm.trans htoday)
    exact calendarTiles_of htoday hd hnumber fun hyear => h ((lastYear_iff hd hnumber).mpr hyear)

end

/-- The first second of 1970. -/
theorem epoch_tiled : (-2 ^ 63 : ℤ) ≤ 0 ∧
    ((∀ today, Checked.civilFromDays (0 / day) = .ok today →
      @CalendarTiles .asciiOnly .asciiOnly today 0) ↔ ¬LastYear 0) :=
  ⟨by decide, (@calendarTiles_iff 0 .asciiOnly .asciiOnly (by decide)).2⟩

/-- The last second of all: it has a week, but no month and no year. -/
theorem last_second_not_tiled :
    Checked.civilFromDays (253402300799 / day) = .ok ⟨9999, 12, 31⟩ ∧
      @parseTemporal .asciiOnly .asciiOnly "this week".toList 253402300799 =
        .ok ⟨253401868800, 253402473599⟩ ∧
      @parseTemporal .asciiOnly .asciiOnly "december".toList 253402300799 = .error () ∧
      ¬@CalendarTiles .asciiOnly .asciiOnly ⟨9999, 12, 31⟩ 253402300799 := by
  have hyear : @parseTemporal .asciiOnly .asciiOnly "this year".toList 253402300799 =
      .error () := by
    decide +kernel
  refine ⟨by decide +kernel, by decide +kernel, by decide +kernel, fun h => ?_⟩
  obtain ⟨-, -, ⟨⟨r, hr, -⟩, -, -⟩, -⟩ := h
  rw [hyear] at hr
  cases hr

end SynapseMemory.Temporal
