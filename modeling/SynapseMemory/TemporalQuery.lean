import SynapseMemory.CheckedCalendar
import SynapseMemory.Pieces

/-!
# What a query says about time

The model of the first half of `parse_temporal`: the query in lower case with the German phrases
replaced (`normalized_query`), and the cue in it, which is looked for kind by kind: a date, a named
day, a number of days, a named week, month or year, a quarter, the name of a month.

In lower case there are no `T` and `Z` left, so a date is looked for among the pieces of digits,
`-`, `/`, `:` and `+`. These are the pieces of the query as it was written: neither the lower case
nor the phrases have any of these characters (`pieces_normalizedQuery`). What is accepted of them is
a date of ten characters, which stands for the first second of its day (`parseTimestamp_piece`).
-/

namespace SynapseMemory.Temporal

open Text

/-! ## Strings -/

/-- The characters of a date in the query. -/
def isTokenChar (c : Char) : Bool :=
  c.isDigit || c == '-' || c == '/' || c == 'T' || c == ':' || c == '+' || c == 'Z'

/-- The characters of a date in lower case. -/
def isDateChar (c : Char) : Bool := c.isDigit || c == '-' || c == '/' || c == ':' || c == '+'

theorem isTokenChar_of_le {c : Char} (h : 128 ≤ c.val) : isTokenChar c = false := by
  have hle : 128 ≤ c.toNat := UInt32.le_iff_toNat_le.mp h
  have hdigit : c.isDigit = false := by
    rw [Bool.eq_false_iff]
    intro hd
    have hle' : c.toNat ≤ 57 := (Char.isDigit_iff_toNat.mp hd).2
    omega
  have hne : ∀ x : Char, x.toNat < 128 → (c == x) = false := by
    rintro x hx
    rw [beq_eq_false_iff_ne]
    rintro rfl
    omega
  simp [isTokenChar, hdigit, hne '-' (by decide), hne '/' (by decide), hne 'T' (by decide),
    hne ':' (by decide), hne '+' (by decide), hne 'Z' (by decide)]

theorem isTokenChar_of_isDateChar {c : Char} (h : isDateChar c = true) : isTokenChar c = true := by
  simp only [isDateChar, isTokenChar, Bool.or_eq_true] at h ⊢
  tauto

/-- A character of a date has no case, and a character of another kind no date character for its
lower case. -/
theorem toLower_ascii {c : Char} (h : c.val < 128) :
    (isDateChar c = true → c.toLower = c) ∧
      (isDateChar c = false → isTokenChar c.toLower = false) :=
  ascii_forall (P := fun c => (isDateChar c = true → c.toLower = c) ∧
    (isDateChar c = false → isTokenChar c.toLower = false)) (by decide +kernel) c h

/-- The lower case of a character between two strings. -/
class Lowercase where
  lower : Text → Text → Char → Text
  ascii : ∀ before after c, c.val < 128 → lower before after c = [c.toLower]
  other : ∀ before after c, 128 ≤ c.val →
    lower before after c ≠ [] ∧ ∀ x ∈ lower before after c, isTokenChar x = false

/-- Nothing beyond ASCII has a lower case of its own. -/
@[reducible] def Lowercase.asciiOnly : Lowercase where
  lower _ _ c := if c.val < 128 then [c.toLower] else [c]
  ascii _ _ _ h := if_pos h
  other _ _ c h := by
    rw [if_neg (UInt32.not_lt.mpr h)]
    refine ⟨List.cons_ne_nil _ _, fun x hx => ?_⟩
    rw [List.mem_singleton.mp hx, isTokenChar_of_le h]

/-- The lower case of a text, where a character may depend on those around it. -/
def lowercaseFrom [Lowercase] (before : Text) : Text → Text
  | [] => []
  | c :: after => Lowercase.lower before after c ++ lowercaseFrom (before ++ [c]) after

/-- `str::to_lowercase` -/
def toLowercase [Lowercase] (t : Text) : Text := lowercaseFrom [] t

/-- The number is what is left of an occurrence that was replaced. -/
def replaceFrom (pat by_ : Text) : ℕ → Text → Text
  | _, [] => []
  | k + 1, _ :: t => replaceFrom pat by_ k t
  | 0, c :: t =>
    if pat.isPrefixOf (c :: t) then by_ ++ replaceFrom pat by_ (pat.length - 1) t
    else c :: replaceFrom pat by_ 0 t

/-- `str::replace` -/
def replaceStr (t pat by_ : Text) : Text := replaceFrom pat by_ 0 t

/-- `trim_matches` -/
def trimMatches (p : Char → Bool) (t : Text) : Text := (t.dropWhile p).rdropWhile p

/-! ## The query -/

/-- The phrases that are replaced, in this order. -/
def phrases : List (String × String) := [
  ("gestern", "yesterday"),
  ("heute", "today"),
  ("morgen", "tomorrow"),
  ("letzte woche", "last week"),
  ("letzten woche", "last week"),
  ("diese woche", "this week"),
  ("dieser woche", "this week"),
  ("nächste woche", "next week"),
  ("naechste woche", "next week"),
  ("letzten monat", "last month"),
  ("letzter monat", "last month"),
  ("diesen monat", "this month"),
  ("dieser monat", "this month"),
  ("nächsten monat", "next month"),
  ("naechsten monat", "next month"),
  ("letztes jahr", "last year"),
  ("dieses jahr", "this year"),
  ("nächstes jahr", "next year"),
  ("naechstes jahr", "next year")]

/-- The phrases of a text are replaced, one after the other. -/
def replacePhrases (t : Text) : Text :=
  phrases.foldl (fun t e => replaceStr t e.1.toList e.2.toList) t

/-- `normalized_query` -/
def normalizedQuery [Lowercase] (query : Text) : Text := replacePhrases (toLowercase query)

/-- The tokens that may be timestamps. -/
def tokens (query : Text) : List Text := query.splitOnP fun c => !isTokenChar c

/-- `clean_word` -/
def cleanWord [Unicode] (word : Text) : Text :=
  trimMatches (fun c => !Unicode.isAlphanumeric c) word

/-! ## Tables -/

/-- The units, and their days. -/
def unitNames : List (List String × ℤ) := [
  (["day", "days", "tag", "tage", "tagen"], 1),
  (["week", "weeks", "woche", "wochen"], 7),
  (["month", "months", "monat", "monate", "monaten"], 30),
  (["year", "years", "jahr", "jahre", "jahren"], 365)]

/-- The names of the months. -/
def monthNames : List (List String × ℕ) := [
  (["january", "jan", "januar"], 1),
  (["february", "feb", "februar"], 2),
  (["march", "mar", "märz", "maerz"], 3),
  (["april", "apr"], 4),
  (["may", "mai"], 5),
  (["june", "jun", "juni"], 6),
  (["july", "jul", "juli"], 7),
  (["august", "aug"], 8),
  (["september", "sep", "sept"], 9),
  (["october", "oct", "oktober", "okt"], 10),
  (["november", "nov"], 11),
  (["december", "dec", "dezember", "dez"], 12)]

/-- The entry of a table that has the name. -/
def entryOf {α : Type} (table : List (List String × α)) (name : Text) : Option α :=
  (table.find? fun e => e.1.any fun n => n.toList == name).map Prod.snd

/-- `month_num` -/
def monthNum (name : Text) : Option ℕ := entryOf monthNames name

/-- `unit_days` -/
def unitDays (unit : Text) : Option ℤ := entryOf unitNames unit

/-! ## The cue -/

/-- A number of days before or after today. -/
structure Count where
  back : Bool
  count : ℤ
  days : ℤ
  deriving DecidableEq

/-- What a query says about the time. -/
inductive Cue where
  | timestamp (ts : ℤ)
  | day (offset : ℤ)
  | count (c : Count)
  | week (offset : ℤ)
  | month (offset : ℤ)
  | year (offset : ℤ)
  | quarter (quarter : ℕ) (year : Option ℤ)
  | monthName (month : ℕ) (year : Option ℤ)
  deriving DecidableEq

/-- The first of these phrases that the query has. -/
def phraseIn (table : List (String × Cue)) (query : Text) : Option Cue :=
  (table.find? fun e => containsStr query e.1.toList).map Prod.snd

/-- The names of days. -/
def namedDay : List (String × Cue) :=
  [("yesterday", .day (-1)), ("today", .day 0), ("tomorrow", .day 1)]

/-- The names of weeks and months. -/
def namedWeekOrMonth : List (String × Cue) := [
  ("last week", .week (-1)), ("this week", .week 0), ("next week", .week 1),
  ("last month", .month (-1)), ("this month", .month 0), ("next month", .month 1)]

/-- The names of years. -/
def namedYear : List (String × Cue) :=
  [("last year", .year (-1)), ("this year", .year 0), ("next year", .year 1)]

/-- The first of the words, by its index, with a cue. -/
def wordIn (cueAt : List Text → ℕ → Option Cue) (words : List Text) : Option Cue :=
  (List.range words.length).findSome? (cueAt words)

/-- A number and a unit, with what they are counted from. -/
def countAt [Unicode] (words : List Text) (index : ℕ) : Option Cue := do
  let count ← parseInt (-2 ^ 63) (2 ^ 63 - 1) (trimMatches (fun c => !c.isDigit) (← words[index]?))
  let unit := words[index + 1]?.bind fun w => unitDays (cleanWord w)
  let before := if index = 0 then none else words[index - 1]?
  let days ← unit
  if words[index + 2]?.map cleanWord = some "ago".toList then some (.count ⟨true, count, days⟩)
  else if before = some "in".toList then some (.count ⟨false, count, days⟩)
  else if before = some "vor".toList then some (.count ⟨true, count, days⟩)
  else none

/-- The year after a word. -/
def yearAfter (words : List Text) (index : ℕ) : Option ℤ :=
  (words[index + 1]?.bind fun w =>
    parseInt (-2 ^ 31) (2 ^ 31 - 1) (trimMatches (fun c => !c.isDigit) w)).filter fun y =>
      1900 ≤ y ∧ y < 2100

/-- A quarter, and the year after it. -/
def quarterAt (words : List Text) (index : ℕ) : Option Cue := do
  match trimMatches (fun c => !c.isAlphanum) (← words[index]?) with
  | 'q' :: value =>
    let quarter ← (parseInt 0 (2 ^ 32 - 1) value).filter fun q => 1 ≤ q ∧ q ≤ 4
    some (.quarter quarter.toNat (yearAfter words index))
  | _ => none

/-- The name of a month, and the year after it. -/
def monthAt [Unicode] (words : List Text) (index : ℕ) : Option Cue := do
  let month ← monthNum (cleanWord (← words[index]?))
  some (.monthName month (yearAfter words index))

/-- The cue of a query without a date. -/
def wordCue [Unicode] (query : Text) : Option Cue :=
  let words := splitWhitespace query
  (phraseIn namedDay query).or <| (wordIn countAt words).or <|
    (phraseIn namedWeekOrMonth query).or <| (phraseIn namedYear query).or <|
      (wordIn quarterAt words).or (wordIn monthAt words)

open Outcome in
/-- The first token that is a timestamp. -/
def firstTimestamp : List Text → Outcome Unit (Option ℤ)
  | [] => .ok none
  | token :: rest =>
    if 10 ≤ len token then
      match Checked.parseTimestamp token with
      | .ok ts => .ok (some ts)
      | .error _ => firstTimestamp rest
      | .panic => .panic
    else firstTimestamp rest

/-- What the query says: a timestamp first, then the words. -/
def cueOf [Unicode] (query : Text) : Outcome Unit (Option Cue) := do
  match ← firstTimestamp (tokens query) with
  | some ts => .ok (some (.timestamp ts))
  | none => .ok (wordCue query)

/-! ## The pieces of a query -/

theorem isDateChar_of_le {c : Char} (h : 128 ≤ c.val) : isDateChar c = false := by
  rw [Bool.eq_false_iff]
  intro hdate
  have htoken := isTokenChar_of_isDateChar hdate
  rw [isTokenChar_of_le h] at htoken
  cases htoken

/-- Without a `T` and a `Z`. -/
def Lowered (t : Text) : Prop := ∀ c ∈ t, isTokenChar c = isDateChar c

/-- A string that may be replaced, or be put in the place of one. -/
def Wordy (t : Text) : Prop := t ≠ [] ∧ ∀ c ∈ t, isTokenChar c = false

theorem isDateChar_of_not_token {c : Char} (h : isTokenChar c = false) : isDateChar c = false := by
  rw [Bool.eq_false_iff]
  intro hdate
  rw [isTokenChar_of_isDateChar hdate] at h
  cases h

theorem Wordy.not_date {t : Text} (h : Wordy t) : ∀ c ∈ t, isDateChar c = false :=
  fun c hc => isDateChar_of_not_token (h.2 c hc)

/-- The lower case of a character is the character, if it is one of a date, and a word otherwise. -/
theorem lower_cases [Lowercase] (before after : Text) (c : Char) :
    (isDateChar c = true ∧ Lowercase.lower before after c = [c]) ∨
      (isDateChar c = false ∧ Wordy (Lowercase.lower before after c)) := by
  by_cases hc : c.val < 128
  · obtain ⟨hdate, hother⟩ := toLower_ascii hc
    rw [Lowercase.ascii before after c hc]
    cases hkind : isDateChar c with
    | true => exact .inl ⟨rfl, by rw [hdate hkind]⟩
    | false =>
      refine .inr ⟨rfl, List.cons_ne_nil _ _, fun x hx => ?_⟩
      rw [List.mem_singleton.mp hx, hother hkind]
  · have hle : 128 ≤ c.val := UInt32.not_lt.mp hc
    exact .inr ⟨isDateChar_of_le hle, Lowercase.other before after c hle⟩

theorem lowercaseFrom_spec [Lowercase] (before t : Text) :
    Blurred isDateChar t (lowercaseFrom before t) ∧ Lowered (lowercaseFrom before t) := by
  induction t generalizing before with
  | nil => exact ⟨.nil, nofun⟩
  | cons c t ih =>
    obtain ⟨hblur, hlow⟩ := ih (before ++ [c])
    rw [lowercaseFrom]
    rcases lower_cases before t c with ⟨hc, hlower⟩ | ⟨hc, hwordy⟩
    · rw [hlower]
      refine ⟨.keep hc hblur, List.forall_mem_cons.mpr ⟨?_, hlow⟩⟩
      rw [hc, isTokenChar_of_isDateChar hc]
    · refine ⟨.blur (x := [c]) (List.cons_ne_nil _ _) (by simpa using hc) hwordy.1 hwordy.not_date
        hblur, List.forall_mem_append.mpr ⟨fun x hx => ?_, hlow⟩⟩
      rw [hwordy.2 x hx, hwordy.not_date x hx]

theorem replaceFrom_append (pat by_ u t : Text) :
    replaceFrom pat by_ u.length (u ++ t) = replaceFrom pat by_ 0 t := by
  induction u with
  | nil => rfl
  | cons c u ih => exact ih

/-- An occurrence at the front is replaced. -/
theorem replaceFrom_prefix {pat by_ : Text} (hpat : pat ≠ []) (t : Text) :
    replaceFrom pat by_ 0 (pat ++ t) = by_ ++ replaceFrom pat by_ 0 t := by
  obtain ⟨c, u, rfl⟩ := List.exists_cons_of_ne_nil hpat
  have hoccurs : (c :: u).isPrefixOf (c :: (u ++ t)) = true :=
    List.isPrefixOf_iff_prefix.mpr ⟨t, rfl⟩
  rw [List.cons_append, replaceFrom, if_pos hoccurs, List.length_cons, Nat.add_sub_cancel,
    replaceFrom_append]

theorem replaceStr_spec {pat by_ : Text} (hpat : Wordy pat) (hby : Wordy by_) (t : Text) :
    Blurred isDateChar t (replaceStr t pat by_) ∧ (Lowered t → Lowered (replaceStr t pat by_)) := by
  rw [replaceStr]
  induction hlen : t.length using Nat.strong_induction_on generalizing t with
  | _ n ih =>
    cases t with
    | nil => exact ⟨.nil, id⟩
    | cons c t =>
      by_cases hoccurs : pat <+: c :: t
      · obtain ⟨u, hu⟩ := hoccurs
        have hpos := List.length_pos_of_ne_nil hpat.1
        have hlt : u.length < n := by
          rw [← hlen, ← hu, List.length_append]
          omega
        obtain ⟨hblur, hlow⟩ := ih u.length hlt u rfl
        rw [← hu, replaceFrom_prefix hpat.1]
        refine ⟨.blur hpat.1 hpat.not_date hby.1 hby.not_date hblur, fun hlowered => ?_⟩
        refine List.forall_mem_append.mpr ⟨fun x hx => ?_, hlow ?_⟩
        · rw [hby.2 x hx, hby.not_date x hx]
        · exact (List.forall_mem_append.mp hlowered).2
      · have hlt : t.length < n := by
          rw [← hlen]
          exact Nat.lt_succ_self _
        obtain ⟨hblur, hlow⟩ := ih t.length hlt t rfl
        rw [replaceFrom, if_neg (List.isPrefixOf_iff_prefix.not.mpr hoccurs)]
        refine ⟨?_, fun hlowered => ?_⟩
        · cases hc : isDateChar c with
          | true => exact .keep hc hblur
          | false =>
            have hsingle : ∀ a ∈ [c], isDateChar a = false := by simpa using hc
            exact .blur (List.cons_ne_nil c []) hsingle (List.cons_ne_nil c []) hsingle hblur
        · obtain ⟨hc, ht⟩ := List.forall_mem_cons.mp hlowered
          exact List.forall_mem_cons.mpr ⟨hc, hlow ht⟩

instance (t : Text) : Decidable (Wordy t) :=
  haveI : Decidable (∀ c ∈ t, isTokenChar c = false) := List.decidableBAll _ t
  inferInstanceAs (Decidable (_ ∧ _))

theorem phrases_wordy : ∀ e ∈ phrases, Wordy e.1.toList ∧ Wordy e.2.toList := by
  decide +kernel

theorem replacePhrases_spec {t : Text} (ht : Lowered t) :
    pieces isDateChar (replacePhrases t) = pieces isDateChar t ∧ Lowered (replacePhrases t) := by
  have hfold : ∀ (es : List (String × String)) (t : Text), es ⊆ phrases → Lowered t →
      pieces isDateChar (es.foldl (fun t e => replaceStr t e.1.toList e.2.toList) t) =
        pieces isDateChar t ∧
      Lowered (es.foldl (fun t e => replaceStr t e.1.toList e.2.toList) t) := by
    intro es
    induction es with
    | nil => exact fun t _ ht => ⟨rfl, ht⟩
    | cons e es ih =>
      intro t hes ht
      obtain ⟨he, hes⟩ := List.cons_subset.mp hes
      obtain ⟨hpat, hby⟩ := phrases_wordy e he
      obtain ⟨hblur, hlow⟩ := replaceStr_spec hpat hby t
      obtain ⟨hpieces, hlowered⟩ := ih _ hes (hlow ht)
      exact ⟨hpieces.trans hblur.pieces_eq.symm, hlowered⟩
  exact hfold phrases t (List.Subset.refl _) ht

/-- **The query keeps its pieces.** -/
theorem pieces_normalizedQuery [Lowercase] (query : Text) :
    pieces isTokenChar (normalizedQuery query) = pieces isDateChar query := by
  obtain ⟨hblur, hlow⟩ := lowercaseFrom_spec [] query
  obtain ⟨hpieces, hlowered⟩ := replacePhrases_spec hlow
  rw [normalizedQuery, toLowercase, pieces_congr hlowered, hpieces, ← hblur.pieces_eq]

/-! ## What is read from a piece -/

theorem val_lt_of_isDateChar {c : Char} (h : isDateChar c = true) : c.val < 128 := by
  by_contra hc
  rw [isDateChar_of_le (UInt32.not_lt.mp hc)] at h
  cases h

/-- A character of a date is one byte, and none that comes before a time. -/
theorem dateChar_byte {c : Char} (h : isDateChar c = true) :
    String.utf8EncodeChar c = [byte c] ∧ byte c ∉ [byte 'T', byte 't', byte ' '] ∧
      isWhitespace c = false :=
  ascii_forall (P := fun c => isDateChar c = true → String.utf8EncodeChar c = [byte c] ∧
    byte c ∉ [byte 'T', byte 't', byte ' '] ∧ isWhitespace c = false) (by decide +kernel) c
    (val_lt_of_isDateChar h) h

theorem byteAt_of_dateChars {w : Text} (hw : ∀ c ∈ w, isDateChar c = true) {i : ℕ} {b : UInt8}
    (h : byteAt w i = some b) : b ∉ [byte 'T', byte 't', byte ' '] := by
  obtain ⟨c, hc, hb⟩ := List.mem_flatMap.mp (List.mem_of_getElem? h)
  obtain ⟨hone, hbyte, -⟩ := dateChar_byte (hw c hc)
  rw [hone, List.mem_singleton] at hb
  rwa [hb]

theorem trim_of_dateChars {w : Text} (hw : ∀ c ∈ w, isDateChar c = true) : trim w = w :=
  trim_eq_self (fun c hc => (dateChar_byte (hw c (List.mem_of_mem_head? hc))).2.2)
    fun c hc => (dateChar_byte (hw c (List.mem_of_getLast? hc))).2.2

/-- A slice of the whole string. -/
theorem get?_len {w m : Text} {n : ℕ} (hlen : len w = n) (h : get? w 0 n = some m) : m = w := by
  obtain ⟨a, b, rfl, ha, hm⟩ := get?_eq_some.mp h
  have hnil : ∀ t : Text, len t = 0 → t = [] := fun t ht =>
    List.length_eq_zero_iff.mp (Nat.le_zero.mp (ht ▸ Checked.length_le_len t))
  rw [len_append, len_append] at hlen
  rw [hnil a ha, hnil b (by omega), List.append_nil, List.nil_append]

/-- **A piece that is accepted is a date**, and stands for the start of its day. -/
theorem parseTimestamp_piece {w : Text} {ts : ℤ} (hw : ∀ c ∈ w, isDateChar c = true)
    (h : parseTimestamp w = some ts) :
    ∃ d n, parseDate w = some d ∧ daysFromCivil d = some n ∧ ts = n * day := by
  unfold parseTimestamp at h
  rw [trim_of_dateChars hw] at h
  simp only [Option.bind_eq_bind, Option.bind_eq_some_iff, checkedI64_eq_some] at h
  obtain ⟨m, hm, d, hd, n, hn, _, ⟨-, rfl⟩, h⟩ := h
  split at h
  next hlen =>
    obtain rfl := get?_len hlen hm
    exact ⟨d, n, hd, hn, (Option.some.inj h).symm⟩
  next =>
    split at h
    next => cases h
    next hbyte =>
      -- a time would have to begin at the eleventh byte
      rw [not_or, not_not] at hbyte
      have hnone : ∀ b, byteAt w 10 = some b → b ∉ [byte 'T', byte 't', byte ' '] :=
        fun b => byteAt_of_dateChars hw
      rcases hbyte.2 with hb | hb | hb <;> exact absurd (hnone _ hb) (by simp)

/-- What a token is read as. -/
def stampOf (token : Text) : Option ℤ := if 10 ≤ len token then parseTimestamp token else none

theorem firstTimestamp_eq (ts : List Text) : firstTimestamp ts = .ok (ts.findSome? stampOf) := by
  induction ts with
  | nil => rfl
  | cons token ts ih =>
    rw [firstTimestamp, List.findSome?_cons, stampOf]
    split
    · rw [Checked.parseTimestamp_eq]
      cases parseTimestamp token with
      | none => exact ih
      | some ts => rfl
    · exact ih

/-- The empty tokens are no timestamps. -/
theorem findSome?_pieces (p : Char → Bool) (t : Text) :
    (t.splitOnP fun c => !p c).findSome? stampOf = (pieces p t).findSome? stampOf := by
  rw [pieces]
  induction t.splitOnP fun c => !p c with
  | nil => rfl
  | cons w ws ih =>
    cases w with
    | nil => exact ih
    | cons c w =>
      rw [List.filter_cons_of_pos (by rfl), List.findSome?_cons, List.findSome?_cons, ih]

/-- The date in a query: the first piece that is one, as the start of its day. -/
def dateIn (query : Text) : Option ℤ := (pieces isDateChar query).findSome? stampOf

/-- **The cue of a query** is its date, or that of its words. -/
theorem cueOf_normalizedQuery [Unicode] [Lowercase] (query : Text) :
    cueOf (normalizedQuery query) =
      .ok (((dateIn query).map Cue.timestamp).or (wordCue (normalizedQuery query))) := by
  rw [cueOf, firstTimestamp_eq, tokens, findSome?_pieces, pieces_normalizedQuery, ← dateIn]
  generalize wordCue (normalizedQuery query) = cue
  cases dateIn query <;> rfl

/-- A date in the query is the start of a day. -/
theorem dateIn_eq_some {query : Text} {ts : ℤ} (h : dateIn query = some ts) :
    ∃ d, Storable d ∧ ts = (d.dayNumber - 719468) * day := by
  obtain ⟨w, hw, hts⟩ := List.exists_of_findSome?_eq_some h
  obtain ⟨d, n, -, hn, rfl⟩ := parseTimestamp_piece (fun c hc => (mem_pieces hw c hc).2)
    (Option.ite_none_right_eq_some.mp hts).2
  obtain ⟨hd, rfl⟩ := daysFromCivil_eq_some.mp hn
  exact ⟨d, hd, rfl⟩

end SynapseMemory.Temporal
