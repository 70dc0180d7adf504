import SynapseMemory.TemporalRanges

/-!
# Phrases of the calendar

Queries that name a part of the calendar, and their cues: `last week`, `this month`, `next year` and
so on, and the name of a month or a quarter, alone or with a year after it.

They are in ASCII, so no table matters (`cueIn_ascii`). The cues of the phrases without a year are
computed. A year is any of two hundred: its digits are kept apart from the words before them, which
is all that the search for a cue asks of them (`cueIn_calendarQuery`).
-/

namespace SynapseMemory.Temporal

open Text

/-! ## Queries in ASCII -/

/-- Every character is an ASCII one. -/
def Ascii (t : Text) : Prop := ∀ c ∈ t, c.val < 128

instance (t : Text) : Decidable (Ascii t) := List.decidableBAll _ t

/-- ASCII letters are lowered one by one. -/
theorem lowercaseFrom_ascii [Lowercase] {t : Text} (ht : Ascii t) (before : Text) :
    lowercaseFrom before t = toAsciiLowercase t := by
  induction t generalizing before with
  | nil => rfl
  | cons c t ih =>
    obtain ⟨hc, ht⟩ := List.forall_mem_cons.mp ht
    rw [lowercaseFrom, Lowercase.ascii before t c hc, ih ht]
    rfl

theorem dropWhile_congr {p q : Char → Bool} {t : Text} (h : ∀ c ∈ t, p c = q c) :
    t.dropWhile p = t.dropWhile q := by
  induction t with
  | nil => rfl
  | cons c t ih =>
    obtain ⟨hc, ht⟩ := List.forall_mem_cons.mp h
    rw [List.dropWhile_cons, List.dropWhile_cons, hc, ih ht]

theorem trimMatches_congr {p q : Char → Bool} {t : Text} (h : ∀ c ∈ t, p c = q c) :
    trimMatches p t = trimMatches q t := by
  rw [trimMatches, trimMatches, dropWhile_congr h, List.rdropWhile, List.rdropWhile]
  refine congrArg List.reverse (dropWhile_congr fun c hc => h c ?_)
  exact (List.dropWhile_sublist q).subset (List.mem_reverse.mp hc)

section

variable [Unicode]

/-- An ASCII word is cleaned without a table of letters. -/
theorem cleanWord_ascii {w : Text} (hw : Ascii w) : cleanWord w = @cleanWord .asciiOnly w :=
  trimMatches_congr fun c hc => by rw [Unicode.ascii c (hw c hc), @Unicode.ascii .asciiOnly c
    (hw c hc)]

variable {words : List Text} (h : ∀ w ∈ words, Ascii w)

include h

theorem map_cleanWord_ascii (index : ℕ) :
    words[index]?.map cleanWord = words[index]?.map (@cleanWord .asciiOnly) := by
  cases hw : words[index]? with
  | none => rfl
  | some w => exact congrArg some (cleanWord_ascii (h w (List.mem_of_getElem? hw)))

theorem bind_cleanWord_ascii {β : Type} (index : ℕ) (f : Text → Option β) :
    (words[index]?.bind fun w => f (cleanWord w)) =
      words[index]?.bind fun w => f (@cleanWord .asciiOnly w) := by
  cases hw : words[index]? with
  | none => rfl
  | some w => exact congrArg f (cleanWord_ascii (h w (List.mem_of_getElem? hw)))

/-- The counts of ASCII words are found without it, too. -/
theorem countAt_ascii : countAt words = @countAt .asciiOnly words := by
  funext index
  unfold countAt
  rw [bind_cleanWord_ascii h, map_cleanWord_ascii h]

/-- So are the months. -/
theorem monthAt_ascii : monthAt words = @monthAt .asciiOnly words := by
  funext index
  unfold monthAt
  cases hw : words[index]? with
  | none => rfl
  | some w =>
    simp only [Option.bind_eq_bind, Option.bind_some,
      cleanWord_ascii (h w (List.mem_of_getElem? hw))]

end

/-- The words of an ASCII text are ASCII. -/
theorem ascii_of_mem_splitWhitespace {t w : Text} (ht : Ascii t) (hw : w ∈ splitWhitespace t) :
    Ascii w := by
  have hpieces : splitWhitespace t = pieces (fun c => !isWhitespace c) t := by
    rw [splitWhitespace, pieces]
    simp only [Bool.not_not]
  rw [hpieces] at hw
  exact fun c hc => ht c (mem_pieces hw c hc).1

theorem wordCue_ascii [Unicode] {query : Text} (h : Ascii query) :
    wordCue query = @wordCue .asciiOnly query := by
  have hwords : ∀ w ∈ splitWhitespace query, Ascii w := fun w => ascii_of_mem_splitWhitespace h
  have hcount := countAt_ascii hwords
  have hmonth := monthAt_ascii hwords
  unfold wordCue
  simp only [wordIn, hcount, hmonth]

theorem normalizedQuery_ascii [Lowercase] {query : Text} (h : Ascii query) :
    normalizedQuery query = replacePhrases (toAsciiLowercase query) := by
  rw [normalizedQuery, toLowercase, lowercaseFrom_ascii h]

/-- A query of words in ASCII that is in its normal form, and its cue. -/
def HasCue (query : Text) (cue : Cue) : Prop :=
  Ascii query ∧ replacePhrases (toAsciiLowercase query) = query ∧ dateIn query = none ∧
    @wordCue .asciiOnly query = some cue

instance (query : Text) (cue : Cue) : Decidable (HasCue query cue) :=
  inferInstanceAs (Decidable (_ ∧ _ ∧ _ ∧ _))

/-- **The cue of such a query** does not depend on the tables. -/
theorem HasCue.cueIn_eq [Unicode] [Lowercase] {query : Text} {cue : Cue} (h : HasCue query cue) :
    cueIn query = some cue := by
  obtain ⟨hascii, hnormal, hdate, hcue⟩ := h
  rw [cueIn, normalizedQuery_ascii hascii, hnormal, hdate, wordCue_ascii hascii, hcue]
  rfl

/-! ## Last, this and next -/

/-- The phrases without a year, and their cues. -/
def spans : List (String × Cue) := [
  ("last week", .week (-1)), ("this week", .week 0), ("next week", .week 1),
  ("last month", .month (-1)), ("this month", .month 0), ("next month", .month 1),
  ("last year", .year (-1)), ("this year", .year 0), ("next year", .year 1)]

theorem hasCue_spans : ∀ e ∈ spans, HasCue e.1.toList e.2 := by
  decide +kernel

/-! ## Digits after words -/

/-- What has nothing of the end of a string is before it. -/
theorem infix_of_append {pat u ds : Text} (h : pat <:+: u ++ ds) (hds : ∀ c ∈ ds, c ∉ pat) :
    pat <:+: u := by
  obtain ⟨a, b, h⟩ := h
  rcases List.append_eq_append_iff.mp h with ⟨rest, rfl, -⟩ | ⟨rest, hu, rfl⟩
  · exact ⟨a, rest, rfl⟩
  · rcases List.eq_nil_or_concat rest with rfl | ⟨rest, c, rfl⟩
    · rw [List.append_nil] at hu
      exact ⟨a, [], by rw [hu, List.append_nil]⟩
    · rw [List.concat_eq_append, ← List.append_assoc] at hu
      rcases List.eq_nil_or_concat pat with rfl | ⟨pat, d, rfl⟩
      · exact List.nil_infix
      · rw [List.concat_eq_append, ← List.append_assoc] at hu
        obtain ⟨-, hlast⟩ := List.append_inj' hu rfl
        refine absurd ?_ (hds c (by simp))
        simp [List.singleton_inj.mp hlast]

theorem replaceStr_of_not_infix {t pat by_ : Text} (h : ¬pat <:+: t) : replaceStr t pat by_ =
    t := by
  rw [replaceStr]
  induction t with
  | nil => rfl
  | cons c t ih =>
    have hprefix : ¬pat <+: c :: t := fun hp => h hp.isInfix
    have htail : ¬pat <:+: t := fun ht => h (List.infix_cons ht)
    rw [replaceFrom, if_neg (List.isPrefixOf_iff_prefix.not.mpr hprefix), ih htail]

theorem replacePhrases_of_not_infix {t : Text} (h : ∀ e ∈ phrases, ¬e.1.toList <:+: t) :
    replacePhrases t = t := by
  rw [replacePhrases]
  generalize phrases = es at h ⊢
  induction es with
  | nil => rfl
  | cons e es ih =>
    obtain ⟨he, hes⟩ := List.forall_mem_cons.mp h
    rw [List.foldl_cons, replaceStr_of_not_infix he, ih hes]

theorem phraseIn_of_not_infix {table : List (String × Cue)} {query : Text}
    (h : ∀ e ∈ table, ¬e.1.toList <:+: query) : phraseIn table query = none := by
  rw [phraseIn, List.find?_eq_none.mpr fun e he => by simpa [containsStr] using h e he]
  rfl

theorem trimMatches_eq_self {p : Char → Bool} {t : Text} (h : ∀ c ∈ t, p c = false) :
    trimMatches p t = t := by
  have hdrop : t.dropWhile p = t := by
    cases t with
    | nil => rfl
    | cons c t => exact List.dropWhile_cons_of_neg (by rw [h c List.mem_cons_self]; decide)
  rw [trimMatches, hdrop, List.rdropWhile_eq_self_iff]
  intro hne
  rw [h _ (List.getLast_mem hne)]
  decide

/-! ## The name of a month or a quarter, and a year -/

/-- What is looked for in a query besides dates and words. -/
def patterns : List Text :=
  (phrases.map Prod.fst ++ (namedDay ++ namedWeekOrMonth ++ namedYear).map Prod.fst).map
    String.toList

theorem patterns_wordy : ∀ pat ∈ patterns, Wordy pat := by
  decide +kernel

theorem not_isDigit_of_wordy {t : Text} (h : Wordy t) : ∀ c ∈ t, c.isDigit = false := fun c hc => by
  have htoken := h.2 c hc
  simp only [isTokenChar, Bool.or_eq_false_iff] at htoken
  tauto

/-- The cue with another year. -/
def Cue.inYear (named : Option ℤ) : Cue → Cue
  | .quarter q _ => .quarter q named
  | .monthName m _ => .monthName m named
  | cue => cue

/-- A word that has no cue but of a month or a quarter. -/
def Named (name : Text) (cue : Cue) : Prop :=
  HasCue name cue ∧ toAsciiLowercase name = name ∧
    (∀ pat ∈ patterns, ¬pat <:+: name ++ [' ']) ∧ splitWhitespace name = [name] ∧
      (quarterAt [name] 0).or (@monthAt .asciiOnly [name] 0) = some cue

instance (name : Text) (cue : Cue) : Decidable (Named name cue) :=
  inferInstanceAs (Decidable (_ ∧ _ ∧ _ ∧ _ ∧ _))

theorem wordIn_pair (cueAt : List Text → ℕ → Option Cue) (a b : Text) :
    wordIn cueAt [a, b] = (cueAt [a, b] 0).or (cueAt [a, b] 1) := by
  change [0, 1].findSome? (cueAt [a, b]) = _
  rw [List.findSome?_cons, List.findSome?_singleton]
  cases cueAt [a, b] 0 <;> rfl

theorem quarterAt_pair (a b : Text) :
    quarterAt [a, b] 0 = (quarterAt [a] 0).map (Cue.inYear (yearAfter [a, b] 0)) := by
  unfold quarterAt
  simp only [List.getElem?_cons_zero, Option.bind_eq_bind, Option.bind_some]
  split
  · rw [Option.map_bind]
    rfl
  · rfl

theorem monthAt_pair [Unicode] (a b : Text) :
    monthAt [a, b] 0 = (monthAt [a] 0).map (Cue.inYear (yearAfter [a, b] 0)) := by
  unfold monthAt
  simp only [List.getElem?_cons_zero, Option.bind_eq_bind, Option.bind_some]
  rw [Option.map_bind]
  rfl

section

variable {ds : Text} (hds : Decimal ds)

include hds

theorem trim_digits : trimMatches (fun c => !c.isDigit) ds = ds :=
  trimMatches_eq_self fun c hc => by rw [hds.2 c hc]; rfl

theorem trim_alphanum : trimMatches (fun c => !c.isAlphanum) ds = ds :=
  trimMatches_eq_self fun c hc => by rw [Char.isAlphanum, hds.2 c hc, Bool.or_true]; rfl

/-- A number is no unit. -/
theorem unitDays_digits : unitDays ds = none := by
  have hall : ∀ e ∈ unitNames, ∀ n ∈ e.1, ¬Decimal n.toList := by decide +kernel
  rw [unitDays, entryOf, List.find?_eq_none.mpr]
  · rfl
  · intro e he
    simp only [List.any_eq_true, beq_iff_eq, not_exists, not_and]
    rintro n hn rfl
    exact hall e he n hn hds

theorem countAt_digits (name : Text) :
    wordIn (@countAt .asciiOnly) [name, ds] = none := by
  have hclean : @cleanWord .asciiOnly ds = ds := trim_alphanum hds
  rw [wordIn_pair]
  unfold countAt
  simp [hclean, unitDays_digits hds]

theorem quarterAt_digits (name : Text) : quarterAt [name, ds] 1 = none := by
  unfold quarterAt
  simp only [List.getElem?_cons_succ, List.getElem?_cons_zero, Option.bind_eq_bind,
    Option.bind_some,
    trim_alphanum hds]
  split
  · exact absurd (hds.2 'q' List.mem_cons_self) (by decide)
  · rfl

end

theorem splitWhitespace_pair {name ds : Text} (hname : splitWhitespace name = [name])
    (hds : Decimal ds) : splitWhitespace (name ++ ' ' :: ds) = [name, ds] := by
  have hpieces : ∀ t, splitWhitespace t = pieces (fun c => !isWhitespace c) t := fun t => by
    rw [splitWhitespace, pieces]
    simp only [Bool.not_not]
  have hall : ∀ c ∈ ds, (!isWhitespace c) = true := fun c hc => by
    rw [isWhitespace_of_isDigit (hds.2 c hc)]
    rfl
  rw [hpieces, pieces_append_cons (by rfl), ← hpieces, hname, pieces_of_all hds.1 hall]
  rfl

theorem yearAfter_pad (name : Text) {y : ℕ} (hy : 1900 ≤ y ∧ y < 2100) :
    yearAfter [name, pad 4 y] 0 = some (y : ℤ) := by
  have hread : parseInt (-2 ^ 31) (2 ^ 31 - 1) (trimMatches (fun c => !c.isDigit) (pad 4 y)) =
      some (y : ℤ) := by
    rw [trim_digits (decimal_pad 4 y), parseInt_pad 4 (by omega) (by omega)]
  rw [yearAfter]
  simp only [zero_add, List.getElem?_cons_succ, List.getElem?_cons_zero, Option.bind_some, hread]
  rw [Option.filter_some, if_pos (decide_eq_true (by omega))]

theorem isDateChar_of_isDigit {c : Char} (h : c.isDigit = true) : isDateChar c = true := by
  rw [isDateChar, h]
  rfl

section

variable {name ds : Text} {cue : Cue} (h : Named name cue) (hds : Decimal ds)

include h hds

theorem Named.ascii_append : Ascii (name ++ ' ' :: ds) :=
  List.forall_mem_append.mpr ⟨h.1.1, List.forall_mem_cons.mpr ⟨by decide, fun c hc =>
    val_lt_of_isDateChar (isDateChar_of_isDigit (hds.2 c hc))⟩⟩

/-- The query is in lower case, and has no phrase in it. -/
theorem Named.normal_append : replacePhrases (toAsciiLowercase (name ++ ' ' :: ds)) =
      name ++ ' ' :: ds ∧ ∀ pat ∈ patterns, ¬pat <:+: name ++ ' ' :: ds := by
  obtain ⟨-, hlower, hpatterns, -, -⟩ := h
  have hnot : ∀ pat ∈ patterns, ¬pat <:+: name ++ ' ' :: ds := by
    intro pat hpat hinfix
    rw [List.append_cons] at hinfix
    refine hpatterns pat hpat (infix_of_append hinfix fun c hc hmem => ?_)
    have hnone := not_isDigit_of_wordy (patterns_wordy pat hpat) c hmem
    rw [hds.2 c hc] at hnone
    cases hnone
  have hdigits : ds.map Char.toLower = ds :=
    List.map_congr_left (fun c hc => (toLower_ascii (val_lt_of_isDateChar
      (isDateChar_of_isDigit (hds.2 c hc)))).1 (isDateChar_of_isDigit (hds.2 c hc))) |>.trans
      (List.map_id ds)
  have hquery : toAsciiLowercase (name ++ ' ' :: ds) = name ++ ' ' :: ds := by
    rw [toAsciiLowercase, List.map_append, ← toAsciiLowercase, hlower, List.map_cons, hdigits]
    rfl
  refine ⟨?_, hnot⟩
  rw [hquery, replacePhrases_of_not_infix fun e he => hnot _ ?_]
  exact List.mem_map_of_mem (List.mem_append_left _ (List.mem_map_of_mem he))

theorem Named.dateIn_append (hlen : len ds < 10) : dateIn (name ++ ' ' :: ds) = none := by
  have hdate := h.1.2.2.1
  have hall : ∀ c ∈ ds, isDateChar c = true := fun c hc => isDateChar_of_isDigit (hds.2 c hc)
  have hstamp : stampOf ds = none := if_neg (Nat.not_le.mpr hlen)
  rw [dateIn] at hdate ⊢
  rw [pieces_append_cons (by rfl), List.findSome?_append, hdate, pieces_of_all hds.1 hall,
    List.findSome?_singleton, hstamp]
  rfl

theorem Named.wordCue_append :
    @wordCue .asciiOnly (name ++ ' ' :: ds) = some (cue.inYear (yearAfter [name, ds] 0)) := by
  have hnot := (h.normal_append hds).2
  obtain ⟨-, -, -, hsplit, hcue⟩ := h
  have hphrase : ∀ table ⊆ namedDay ++ namedWeekOrMonth ++ namedYear,
      phraseIn table (name ++ ' ' :: ds) = none := by
    intro table htable
    refine phraseIn_of_not_infix fun e he => hnot _ ?_
    exact List.mem_map_of_mem (List.mem_append_right _ (List.mem_map_of_mem (htable he)))
  unfold wordCue
  dsimp only
  rw [splitWhitespace_pair hsplit hds, hphrase namedDay (by simp),
    hphrase namedWeekOrMonth (by simp), hphrase namedYear (by simp), countAt_digits hds,
    wordIn_pair, wordIn_pair, quarterAt_digits hds, quarterAt_pair, @monthAt_pair .asciiOnly]
  simp only [Option.none_or, Option.or_none]
  rw [Option.or_eq_some_iff] at hcue
  rcases hcue with hcue | ⟨hquarter, hmonth⟩
  · rw [hcue]
    rfl
  · rw [hquarter, hmonth]
    rfl

end

/-- A name, and a year of four digits if there is one. -/
def calendarQuery (name : Text) : Option ℕ → Text
  | none => name
  | some y => name ++ ' ' :: pad 4 y

/-- **The cue of a name**, and of a year if it is one of this time. -/
theorem cueIn_calendarQuery [Unicode] [Lowercase] {name : Text} {cue : Cue} (h : Named name cue)
    (hcue : cue.inYear none = cue) {named : Option ℕ} (hnamed : ∀ y ∈ named, 1900 ≤ y ∧ y < 2100) :
    cueIn (calendarQuery name named) = some (cue.inYear (named.map Nat.cast)) := by
  cases named with
  | none => exact h.1.cueIn_eq.trans (congrArg some hcue.symm)
  | some y =>
    have hds := decimal_pad 4 y
    have hy := hnamed y rfl
    have hlen : len (pad 4 y) < 10 := by
      rw [len_pad (by decide) (by omega)]
      decide
    refine HasCue.cueIn_eq ⟨h.ascii_append hds, (h.normal_append hds).1,
      h.dateIn_append hds hlen, ?_⟩
    rw [calendarQuery, h.wordCue_append hds, yearAfter_pad name hy]
    rfl

/-- The names of the months. -/
def monthWords : List (String × ℕ) := [
  ("january", 1), ("february", 2), ("march", 3), ("april", 4), ("may", 5), ("june", 6), ("july", 7),
  ("august", 8), ("september", 9), ("october", 10), ("november", 11), ("december", 12)]

/-- The names of the quarters. -/
def quarterWords : List (String × ℕ) := [("q1", 1), ("q2", 2), ("q3", 3), ("q4", 4)]

theorem named_months : ∀ e ∈ monthWords, Named e.1.toList (.monthName e.2 none) := by
  decide +kernel

theorem named_quarters : ∀ e ∈ quarterWords, Named e.1.toList (.quarter e.2 none) := by
  decide +kernel

end SynapseMemory.Temporal
