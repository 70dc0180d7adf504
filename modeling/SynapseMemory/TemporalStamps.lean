import SynapseMemory.TemporalRanges

/-!
# Timestamps in a query

A query with a timestamp that `parse_timestamp` accepts, and the range that `parse_temporal` finds
for it. In lower case the `T` of a timestamp separates, so of the timestamp only the date is read:
the first ten characters, which are a piece of the query by themselves (`dateIn_timestamp`). The
range is the day of that date.

The instant of the timestamp is another one: its time counts, and its offset. It is in the range
exactly if it is in the day that the date names (`timestamp_contained_iff`), and an offset may move
it out.
-/

namespace SynapseMemory.Temporal

open Text Outcome

/-! ## The bytes of a date -/

/-- The bytes of the characters of a date. -/
def dateBytes : List UInt8 := "0123456789-/:+".toList.map byte

/-- A character whose bytes are all below 128 is one byte. -/
theorem utf8Size_of_bytes {c : Char} (h : ∀ b ∈ String.utf8EncodeChar c, b < 128) :
    c.utf8Size = 1 := by
  have hlarge : ∀ x k : UInt8, 128 ≤ k → ¬x ||| k < 128 := by
    intro x k hk hlt
    have hle : k.toNat ≤ (x ||| k).toNat := by
      rw [UInt8.toNat_or]
      exact Nat.right_le_or
    have hk' : 128 ≤ k.toNat := UInt8.le_iff_toNat_le.mp hk
    have hlt' : (x ||| k).toNat < 128 := UInt8.lt_iff_toNat_lt.mp hlt
    omega
  have hsize := c.utf8Size_le_four
  have hpos := c.utf8Size_pos
  by_contra hne
  obtain htwo | hthree | hfour : c.utf8Size = 2 ∨ c.utf8Size = 3 ∨ c.utf8Size = 4 := by omega
  · rw [String.utf8EncodeChar_eq_cons_cons htwo] at h
    exact hlarge _ _ (by decide) (h _ List.mem_cons_self)
  · rw [String.utf8EncodeChar_eq_cons_cons_cons hthree] at h
    exact hlarge _ _ (by decide) (h _ List.mem_cons_self)
  · rw [String.utf8EncodeChar_eq_cons_cons_cons_cons hfour] at h
    exact hlarge _ _ (by decide) (h _ List.mem_cons_self)

theorem isDateChar_of_bytes {c : Char} (h : ∀ b ∈ String.utf8EncodeChar c, b ∈ dateBytes) :
    isDateChar c = true := by
  have hsmall : ∀ b ∈ dateBytes, b < 128 := by decide +kernel
  have hone := utf8Size_of_bytes fun b hb => hsmall b (h b hb)
  have hascii : c.val < 128 := by
    have hle : c.val ≤ 127 := Char.utf8Size_eq_one_iff.mp hone
    exact UInt32.lt_of_le_of_lt hle (by decide)
  have hbyte : byte c ∈ dateBytes :=
    h (byte c) (by rw [String.utf8EncodeChar_eq_singleton hone, byte]; exact List.mem_cons_self)
  exact ascii_forall (P := fun c => byte c ∈ dateBytes → isDateChar c = true) (by decide +kernel) c
    hascii hbyte

/-- A text of such bytes is one of such characters. -/
theorem dateChars_of_bytes {t : Text} (h : ∀ b ∈ asBytes t, b ∈ dateBytes) :
    ∀ c ∈ t, isDateChar c = true := fun c hc =>
  isDateChar_of_bytes fun b hb => h b (List.mem_flatMap.mpr ⟨c, hc, hb⟩)

/-- What is read as a number has digits, and a sign before them. -/
theorem dateChars_of_parseInt {lo hi n : ℤ} {t : Text} (h : parseInt lo hi t = some n) :
    ∀ c ∈ t, isDateChar c = true := by
  have hread := (Option.filter_eq_some_iff.mp h).1
  have hdigits : ∀ {t : Text} {m : ℕ}, readDigits t = some m → ∀ c ∈ t, isDateChar c = true := by
    intro t m hm c hc
    have hdigit := (Option.ite_none_right_eq_some.mp hm).1.2 c hc
    rw [isDateChar, hdigit]
    rfl
  rw [readSigned.eq_def] at hread
  split at hread
  · obtain ⟨m, hm, -⟩ := Option.map_eq_some_iff.mp hread
    exact List.forall_mem_cons.mpr ⟨rfl, hdigits hm⟩
  · obtain ⟨-, hread⟩ := Option.ite_none_right_eq_some.mp hread
    obtain ⟨m, hm, -⟩ := Option.map_eq_some_iff.mp hread
    exact List.forall_mem_cons.mpr ⟨rfl, hdigits hm⟩
  · obtain ⟨m, hm, -⟩ := Option.map_eq_some_iff.mp hread
    exact hdigits hm

theorem byte_of_dateChar {c : Char} (h : isDateChar c = true) : byte c ∈ dateBytes :=
  ascii_forall (P := fun c => isDateChar c = true → byte c ∈ dateBytes) (by decide +kernel) c
    (val_lt_of_isDateChar h) h

/-- The bytes of a slice, where they are in the string. -/
theorem byte_of_slice {value m : Text} {i j k : ℕ} (h : get? value i j = some m)
    (hm : ∀ c ∈ m, isDateChar c = true) (hi : i ≤ k) (hj : k < j) {b : UInt8}
    (hb : byteAt value k = some b) : b ∈ dateBytes := by
  obtain ⟨u, v, rfl, hu, hlen⟩ := get?_eq_some.mp h
  rw [byteAt, asBytes_append, asBytes_append,
    List.getElem?_append_right (by rw [length_asBytes]; omega), length_asBytes,
    List.getElem?_append_left (by rw [length_asBytes]; omega)] at hb
  obtain ⟨c, hc, hbc⟩ := List.mem_flatMap.mp (List.mem_of_getElem? hb)
  rw [(dateChar_byte (hm c hc)).1, List.mem_singleton] at hbc
  rw [hbc]
  exact byte_of_dateChar (hm c hc)

/-- **A date has no other characters.** -/
theorem dateChars_of_parseDate {m : Text} {d : CivilDate} (h : parseDate m = some d) :
    len m = 10 ∧ ∀ c ∈ m, isDateChar c = true := by
  obtain ⟨yearText, monthText, dayText, hyear, hmonth, hday, y, mo, dd, hy, hmo, hdd, -⟩ :=
    parseDate_ok h
  rw [parseDate] at h
  split at h
  · cases h
  rename_i hlen
  rw [not_not] at hlen
  simp only [Option.bind_eq_bind, Option.bind_eq_some_iff] at h
  obtain ⟨separator, hfour, h⟩ := h
  split at h
  · cases h
  rename_i hsep
  rw [not_or, not_not, not_not] at hsep
  have hseparator : separator ∈ dateBytes := by
    rcases hsep.1 with rfl | rfl <;> decide
  refine ⟨hlen, dateChars_of_bytes fun b hb => ?_⟩
  obtain ⟨k, hk, hget⟩ := List.getElem_of_mem hb
  rw [length_asBytes, hlen] at hk
  have hbyte : byteAt m k = some b := List.getElem?_eq_some_iff.mpr ⟨_, hget⟩
  obtain hk | rfl | ⟨hk, hk'⟩ | rfl | ⟨hk, hk'⟩ :
      k < 4 ∨ k = 4 ∨ (5 ≤ k ∧ k < 7) ∨ k = 7 ∨ (8 ≤ k ∧ k < 10) := by omega
  · exact byte_of_slice hyear (dateChars_of_parseInt hy) (Nat.zero_le k) hk hbyte
  · rw [hfour, Option.some_inj] at hbyte
    rwa [← hbyte]
  · exact byte_of_slice hmonth (dateChars_of_parseInt hmo) hk hk' hbyte
  · rw [hsep.2, Option.some_inj] at hbyte
    rwa [← hbyte]
  · exact byte_of_slice hday (dateChars_of_parseInt hdd) hk hk' hbyte

/-! ## The date of a timestamp -/

/-- The date of a timestamp: its first ten bytes, as the start of their day. -/
def dateOf (s : Text) : Option ℤ := (get? (trim s) 0 10).bind parseTimestamp

theorem parseTimestamp_date {m : Text} {d : CivilDate} {n : ℤ} (hd : parseDate m = some d)
    (hn : daysFromCivil d = some n) : parseTimestamp m = some (n * day) := by
  obtain ⟨hlen, hchars⟩ := dateChars_of_parseDate hd
  obtain ⟨hstorable, hnumber⟩ := daysFromCivil_eq_some.mp hn
  have hwhole : get? m 0 10 = some m := get?_eq_some.mpr ⟨[], [], by simp, rfl, by rw [hlen]⟩
  have hstart : checkedI64 (n * day) = some (n * day) := by
    have hinstant := checkedI64_instant hstorable 0 (le_refl 0) (by decide)
    rwa [add_zero, ← hnumber] at hinstant
  unfold parseTimestamp
  simp only [trim_of_dateChars hchars, hwhole, hd, hn, hstart, hlen, Option.bind_eq_bind,
    Option.bind_some, if_true]

/-- **An accepted timestamp** is a date and, if anything, a time that is set off from it. -/
theorem timestamp_split {s : Text} {ts : ℤ} (h : parseTimestamp s = some ts) :
    ∃ m rest start, trim s = m ++ rest ∧ dateOf s = some start ∧ stampOf m = some start ∧
      (∀ c ∈ m, isDateChar c = true) ∧ ∀ c ∈ rest.head?, isDateChar c = false := by
  unfold parseTimestamp at h
  simp only [Option.bind_eq_bind, Option.bind_eq_some_iff, checkedI64_eq_some] at h
  obtain ⟨m, hm, d, hd, n, hn, _, ⟨-, rfl⟩, h⟩ := h
  obtain ⟨hlen, hchars⟩ := dateChars_of_parseDate hd
  have hdate := parseTimestamp_date hd hn
  obtain ⟨u, rest, hs, hu, -⟩ := get?_eq_some.mp hm
  obtain rfl : u = [] :=
    List.length_eq_zero_iff.mp (Nat.le_zero.mp (hu ▸ Checked.length_le_len u))
  refine ⟨m, rest, n * day, hs, ?_, ?_, hchars, fun c hc => ?_⟩
  · rw [dateOf, hm]
    exact hdate
  · rw [stampOf, if_pos hlen.ge, hdate]
  · rw [Bool.eq_false_iff]
    intro hdatechar
    obtain ⟨t, rfl⟩ := List.head?_eq_some_iff.mp hc
    have hbyte : byteAt (trim s) 10 = some (byte c) :=
      byteAt_eq hs hlen (dateChar_byte hdatechar).1
    have hnot := (dateChar_byte hdatechar).2.1
    split at h
    next hten =>
      rw [hs, List.nil_append, len_append, hlen, len_cons] at hten
      have hpos := c.utf8Size_pos
      omega
    next =>
      rw [hbyte] at h
      simp only [Option.some_inj] at h
      rw [if_pos] at h
      · cases h
      · refine .inr ?_
        rintro (hb | hb | hb) <;> exact hnot (by simp [hb])

/-- White space is not of a date. -/
theorem not_dateChar_of_isWhitespace {c : Char} (h : isWhitespace c = true) :
    isDateChar c = false := by
  rw [Bool.eq_false_iff]
  intro hdate
  rw [(dateChar_byte hdate).2.2] at h
  cases h

/-- A string, with the white space around it. -/
theorem exists_trim (s : Text) : ∃ before after, s = before ++ (trim s ++ after) ∧
    (∀ c ∈ before, isDateChar c = false) ∧ ∀ c ∈ after, isDateChar c = false := by
  exact ⟨leading s, trailing s, trim_split s,
    fun c hc => not_dateChar_of_isWhitespace (isWhitespace_of_mem_leading hc),
    fun c hc => not_dateChar_of_isWhitespace (isWhitespace_of_mem_trailing hc)⟩

/-- The words around a timestamp do not go on with it. -/
def Apart (pre post : Text) : Prop :=
  (∀ c ∈ pre.getLast?, isDateChar c = false) ∧ ∀ c ∈ post.head?, isDateChar c = false

/-- **The date of a timestamp is a piece of the query.** -/
theorem dateIn_timestamp {pre s post : Text} {ts : ℤ} (hapart : Apart pre post)
    (h : parseTimestamp s = some ts) :
    dateIn (pre ++ (s ++ post)) = (dateIn pre).or (dateOf s) := by
  obtain ⟨m, rest, start, htrim, hdate, hstamp, hchars, hrest⟩ := timestamp_split h
  obtain ⟨before, after, hs, hbefore, hafter⟩ := exists_trim s
  have htail : ∀ c ∈ (rest ++ (after ++ post)).head?, isDateChar c = false := by
    cases rest with
    | cons c rest => exact hrest
    | nil =>
      cases after with
      | cons c after =>
        rintro _ ⟨⟩
        exact hafter c List.mem_cons_self
      | nil => exact hapart.2
  have hne : m ≠ [] := by
    rintro rfl
    cases hstamp
  have hpieces : pieces isDateChar (pre ++ (s ++ post)) =
      pieces isDateChar pre ++ m :: pieces isDateChar (rest ++ (after ++ post)) := by
    conv_lhs => rw [hs, htrim]
    simp only [List.append_assoc]
    rw [pieces_append' hapart.1, pieces_append_of_not hbefore, pieces_append htail,
      pieces_of_all hne hchars, List.singleton_append]
  rw [dateIn, hpieces, List.findSome?_append, List.findSome?_cons, hstamp, hdate, dateIn]

/-! ## The range and the instant -/

/-- The instant is one of the day that begins with this second. -/
def Names (start ts : ℤ) : Prop := start ≤ ts ∧ ts < start + day

/-- The instant is in the range. -/
def DateRange.Contains (r : DateRange) (ts : ℤ) : Prop := r.lo ≤ ts ∧ ts ≤ r.hi

/-- Outside of its years there is no today. -/
theorem inYears_of_ok {now : ℤ} (hnow : -2 ^ 63 ≤ now) {today : CivilDate}
    (h : Checked.civilFromDays (now / day) = .ok today) : InYears now := by
  have hge : -2 ^ 63 ≤ now / day := by
    rw [day]
    omega
  rw [Checked.civilFromDays_eq hge, ofOption_eq_ok, civilFromDays_eq_some] at h
  have hrange := storable_range h.1
  have hnumber := h.2
  rw [InYears]
  rw [day] at *
  omega

section

variable [Unicode] [Lowercase]

/-- **When the range of a timestamp contains its instant**: if the date that is read names its
day. -/
theorem timestamp_contained_iff {pre s post : Text} {ts now : ℤ} (hapart : Apart pre post)
    (hts : parseTimestamp s = some ts) (hnow : -2 ^ 63 ≤ now) :
    (InYears now → ∃ r, parseTemporal (pre ++ (s ++ post)) now = .ok r) ∧
      ((∀ r, parseTemporal (pre ++ (s ++ post)) now = .ok r → r.Contains ts) ↔
        (InYears now → ∀ start ∈ (dateIn pre).or (dateOf s), Names start ts)) := by
  obtain ⟨-, -, date, -, hdate, -⟩ := timestamp_split hts
  obtain ⟨start, hstart⟩ : ∃ start, (dateIn pre).or (dateOf s) = some start := by
    rw [hdate]
    cases dateIn pre with
    | none => exact ⟨date, rfl⟩
    | some start => exact ⟨start, rfl⟩
  have hcue : cueIn (pre ++ (s ++ post)) = some (.timestamp start) := by
    rw [cueIn, dateIn_timestamp hapart hts, hstart]
    rfl
  have hrange : ∀ {today}, Checked.civilFromDays (now / day) = .ok today →
      parseTemporal (pre ++ (s ++ post)) now = .ok ⟨start, start + day - 1⟩ := by
    intro today htoday
    rw [parseTemporal_eq htoday, hcue]
    exact range_timestamp today (cueIn_sound hcue)
  have hcontains : DateRange.Contains ⟨start, start + day - 1⟩ ts ↔ Names start ts := by
    rw [DateRange.Contains, Names, Int.le_sub_one_iff]
  refine ⟨fun hyears => ?_, ?_, ?_⟩
  · obtain ⟨today, -, -, htoday⟩ := exists_today hyears
    exact ⟨_, hrange htoday⟩
  · rintro h hyears _ hmem
    obtain rfl := Option.some.inj (hstart.symm.trans hmem)
    obtain ⟨today, -, -, htoday⟩ := exists_today hyears
    exact hcontains.mp (h _ (hrange htoday))
  · intro h r hr
    obtain ⟨today, htoday, -⟩ := Outcome.bind_eq_ok.mp hr
    rw [hrange htoday] at hr
    rw [← Outcome.ok.inj hr, hcontains]
    exact h (inYears_of_ok hnow htoday) start hstart

end

/-- Ten in the morning, between two words. -/
theorem morning_contained :
    let pre := "since ".toList
    let s := "2024-01-01T10:00:00Z".toList
    let post := " or so".toList
    parseTimestamp s = some 1704103200 ∧
      ((∀ r, @parseTemporal .asciiOnly .asciiOnly (pre ++ (s ++ post)) 0 = .ok r →
        r.Contains 1704103200) ↔
        (InYears 0 → ∀ start ∈ (dateIn pre).or (dateOf s), Names start 1704103200)) := by
  intro pre s post
  have hts : parseTimestamp s = some 1704103200 := by decide +kernel
  have hapart : Apart pre post := ⟨by rintro _ ⟨⟩; rfl, by rintro _ ⟨⟩; rfl⟩
  exact ⟨hts, (@timestamp_contained_iff .asciiOnly .asciiOnly pre s post _ 0 hapart hts
    (by decide)).2⟩

/-- Eleven in the evening, two hours west: the next day has begun in UTC. -/
theorem evening_not_contained :
    let s := "2024-01-01T23:00:00-02:00".toList
    parseTimestamp s = some 1704157200 ∧
      ∃ r, @parseTemporal .asciiOnly .asciiOnly ("on ".toList ++ (s ++ [])) 0 = .ok r ∧
        ¬r.Contains 1704157200 := by
  intro s
  refine ⟨by decide +kernel, ⟨1704067200, 1704153599⟩, by decide +kernel, ?_⟩
  rintro ⟨-, hle⟩
  dsimp only at hle
  omega

end SynapseMemory.Temporal
