import SynapseMemory.Pack
import SynapseMemory.Runs

/-!
# The token estimate as a count

The character loop of `estimate_tokens` counts four things: characters, words, runs of punctuation
and CJK characters. The first and the last are counted one by one, the others are maximal runs of
characters of a class. So the counts of two texts together are the sums of their counts where no
word and no run of punctuation goes on from one into the other (`tally_append`), and a part of a
text counts no more than the text (`tally_le_of_isInfix`). The estimate is a monotone function of
the counts.

From this, what of a text remains when only some of its lines are kept counts no more than the text
(`tally_joinLines_le`).
-/

namespace SynapseMemory.Pack

open Runs

/-- What the estimator counts. -/
inductive Count where
  | chars
  | words
  | punctRuns
  | cjk
  deriving DecidableEq

/-- A number for each of them. Numbers add up and compare count by count. -/
abbrev Counts : Type := Count → ℕ

/-- The count that a component is estimated from. -/
def counts (chars words punctRuns cjk : ℕ) : Counts
  | .chars => chars
  | .words => words
  | .punctRuns => punctRuns
  | .cjk => cjk

/-- The estimate for a text with these counts. -/
def tokensOf (n : Counts) : ℕ :=
  max ((n .words * 13 + 9) / 10 + n .punctRuns + n .cjk * 2) ((n .chars + 2) / 3)

/-- More characters are not fewer tokens. -/
theorem tokensOf_mono : Monotone tokensOf := by
  intro n m h
  have hwords : n .words ≤ m .words := h .words
  have hpunct : n .punctRuns ≤ m .punctRuns := h .punctRuns
  have hcjk : n .cjk ≤ m .cjk := h .cjk
  have hchars : n .chars ≤ m .chars := h .chars
  exact max_le_max (by omega) (by omega)

/-- The tokens of two parts together are at most those of each. -/
theorem tokensOf_add_le (n m : Counts) : tokensOf (n + m) ≤ tokensOf n + tokensOf m := by
  simp only [tokensOf, Pi.add_apply]
  refine max_le ?_ ?_
  · refine le_trans ?_ (Nat.add_le_add (le_max_left _ _) (le_max_left _ _))
    omega
  · refine le_trans ?_ (Nat.add_le_add (le_max_right _ _) (le_max_right _ _))
    omega

/-- The same of many parts. -/
theorem tokensOf_sum_le {α : Type} (l : List α) (f : α → Counts) :
    tokensOf (l.map f).sum ≤ (l.map fun a => tokensOf (f a)).sum := by
  induction l with
  | nil => exact Nat.le_of_eq (show tokensOf 0 = 0 from rfl)
  | cons a rest ih =>
    rw [List.map_cons, List.sum_cons, List.map_cons, List.sum_cons]
    exact (tokensOf_add_le _ _).trans (Nat.add_le_add_left ih _)

section Tally

variable [Unicode]

/-- A character of a word. -/
def isWordChar (c : Char) : Bool :=
  !isCjk c && !Text.isWhitespace c && (Unicode.isAlphanumeric c || c == '_')

/-- A character that is neither of a word nor CJK nor white space. -/
def isPunctChar (c : Char) : Bool :=
  !isCjk c && !Text.isWhitespace c && !(Unicode.isAlphanumeric c || c == '_')

/-- The counts of a text. -/
def tally (text : Text) : Counts :=
  counts text.length (runs isWordChar text) (runs isPunctChar text) (text.countP isCjk)

/-- What one turn of the loop does to the flags. -/
theorem TokenScan.step_flags (s : TokenScan) (c : Char) :
    (s.step c).inWord = isWordChar c ∧ (s.step c).inPunct = isPunctChar c := by
  unfold TokenScan.step isWordChar isPunctChar
  cases isCjk c <;> cases Text.isWhitespace c <;>
    cases (Unicode.isAlphanumeric c || c == '_') <;> exact ⟨rfl, rfl⟩

/-- A character, and the counts that it adds to. -/
theorem TokenScan.step_counts (s : TokenScan) (c : Char) :
    (s.step c).chars = s.chars + 1 ∧
      (s.step c).words = s.words + (if isWordChar c && !s.inWord then 1 else 0) ∧
      (s.step c).punctRuns = s.punctRuns + (if isPunctChar c && !s.inPunct then 1 else 0) ∧
      (s.step c).cjk = s.cjk + (if isCjk c then 1 else 0) := by
  unfold TokenScan.step isWordChar isPunctChar
  cases isCjk c <;> cases Text.isWhitespace c <;>
    cases (Unicode.isAlphanumeric c || c == '_') <;> cases s.inWord <;> cases s.inPunct <;>
    exact ⟨rfl, rfl, rfl, rfl⟩

/-- The loop from any state. -/
theorem foldl_step (text : Text) (s : TokenScan) :
    (text.foldl TokenScan.step s).chars = s.chars + text.length ∧
      (text.foldl TokenScan.step s).words = s.words + runsFrom isWordChar s.inWord text ∧
      (text.foldl TokenScan.step s).punctRuns =
        s.punctRuns + runsFrom isPunctChar s.inPunct text ∧
      (text.foldl TokenScan.step s).cjk = s.cjk + text.countP isCjk := by
  induction text generalizing s with
  | nil => exact ⟨rfl, rfl, rfl, rfl⟩
  | cons c rest ih =>
    obtain ⟨hchars, hwords, hpunct, hcjk⟩ := ih (s.step c)
    obtain ⟨hchars', hwords', hpunct', hcjk'⟩ := s.step_counts c
    obtain ⟨hinWord, hinPunct⟩ := s.step_flags c
    rw [List.foldl_cons, hchars, hwords, hpunct, hcjk, hchars', hwords', hpunct', hcjk', hinWord,
      hinPunct, runsFrom, runsFrom, List.countP_cons, List.length_cons]
    refine ⟨by omega, Nat.add_assoc _ _ _, Nat.add_assoc _ _ _, by omega⟩

/-- **The estimate is a function of the counts.** -/
theorem estimateTokens_eq (text : Text) : estimateTokens text = tokensOf (tally text) := by
  obtain ⟨hchars, hwords, hpunct, hcjk⟩ := foldl_step text {}
  rw [estimateTokens]
  split
  next hempty =>
    rw [List.isEmpty_iff.mp hempty]
    simp [tokensOf, tally, counts, runs, runsFrom]
  next hne =>
    have hpos : 0 < text.length := List.length_pos_of_ne_nil fun h => hne (by rw [h]; rfl)
    simp only [hchars, hwords, hpunct, hcjk, Nat.zero_add, tokensOf, tally, counts, runs]
    rw [max_eq_left]
    exact le_max_of_le_right (by omega)

/-! ## Texts put together -/

/-- No word and no run of punctuation goes on from one text into the next. -/
def Apart (s t : Text) : Prop := Seam isWordChar s t ∧ Seam isPunctChar s t

/-- Two parts that are apart have the counts of each. -/
theorem tally_append {s t : Text} (h : Apart s t) : tally (s ++ t) = tally s + tally t := by
  funext k
  cases k with
  | chars => exact List.length_append
  | words => exact runs_append h.1
  | punctRuns => exact runs_append h.2
  | cjk => exact List.countP_append

theorem not_word_of_whitespace {c : Char} (h : Text.isWhitespace c = true) :
    isWordChar c = false := by
  rw [isWordChar, h, Bool.not_true, Bool.and_false, Bool.false_and]

theorem not_punct_of_whitespace {c : Char} (h : Text.isWhitespace c = true) :
    isPunctChar c = false := by
  rw [isPunctChar, h, Bool.not_true, Bool.and_false, Bool.false_and]

/-- White space keeps what is before it apart from what follows. -/
theorem apart_of_head {s t : Text} (h : ∀ c ∈ t.head?, Text.isWhitespace c = true) : Apart s t :=
  ⟨fun _ _ c hc _ => not_word_of_whitespace (h c hc),
    fun _ _ c hc _ => not_punct_of_whitespace (h c hc)⟩

/-- A part that ends in white space is apart from what follows. -/
theorem apart_of_getLast {s t : Text} (h : ∀ c ∈ s.getLast?, Text.isWhitespace c = true) :
    Apart s t := by
  refine ⟨fun c hc _ _ hword => ?_, fun c hc _ _ hpunct => ?_⟩
  · rw [not_word_of_whitespace (h c hc)] at hword
    cases hword
  · rw [not_punct_of_whitespace (h c hc)] at hpunct
    cases hpunct

/-- A part of a text counts no more than the text. -/
theorem tally_le_of_isInfix {s t : Text} (h : s <:+: t) : tally s ≤ tally t := by
  intro k
  cases k with
  | chars => exact h.length_le
  | words => exact runs_le_of_isInfix h
  | punctRuns => exact runs_le_of_isInfix h
  | cjk => exact h.sublist.countP_le

/-! ## Lines -/

omit [Unicode] in
theorem trim_isInfix (t : Text) : Text.trim t <:+: t :=
  (List.rdropWhile_prefix _ _).isInfix.trans (List.dropWhile_suffix _).isInfix

omit [Unicode] in
theorem stripCr_isInfix (line : Text) : Text.stripCr line <:+: line := by
  rw [Text.stripCr]
  split
  · exact (List.dropLast_prefix line).isInfix
  · exact List.infix_refl line

/-- The counts of a line and the newline that ends it. -/
def lineTally (line : Text) : Counts := tally line + counts 1 0 0 0

theorem tally_newline : tally ['\n'] = counts 1 0 0 0 := by
  funext k
  cases k <;> rfl

/-- The counts of some lines, joined. -/
theorem tally_joinLines {ls : List Text} (hne : ls ≠ []) :
    tally (Text.joinLines ls) + counts 1 0 0 0 = (ls.map lineTally).sum := by
  induction ls with
  | nil => exact absurd rfl hne
  | cons l rest ih =>
    rw [List.map_cons, List.sum_cons]
    by_cases hrest : rest = []
    · have hjoin : Text.joinLines [l] = l := by simp [Text.joinLines]
      rw [hrest, hjoin]
      exact (add_zero (lineTally l)).symm
    · have hjoin : Text.joinLines (l :: rest) = l ++ (['\n'] ++ Text.joinLines rest) := by
        rw [Text.joinLines, List.intercalate_cons_of_ne_nil hrest, List.append_assoc,
          Text.joinLines]
      rw [← ih hrest, hjoin, tally_append, tally_append, tally_newline, lineTally, add_assoc,
        add_assoc, add_assoc]
      · exact apart_of_getLast fun c hc => by
          obtain rfl := Option.some.inj hc
          rfl
      · exact apart_of_head fun c hc => by
          obtain rfl := Option.some.inj hc
          rfl

/-- The lines of a text count no more than the text: they have neither the carriage returns nor the
empty end. -/
theorem sum_lineTally_lines_le (text : Text) :
    ((Text.lines text).map lineTally).sum ≤ tally text + counts 1 0 0 0 := by
  have hne : text.splitOnP (· == '\n') ≠ [] := List.splitOnP_ne_nil _ _
  have htext : tally text + counts 1 0 0 0 =
      ((text.splitOnP (· == '\n')).map lineTally).sum := by
    rw [← tally_joinLines hne]
    exact congrArg (tally · + counts 1 0 0 0) (List.intercalate_splitOn '\n').symm
  rw [htext, Text.lines]
  generalize text.splitOnP (· == '\n') = pieces at hne
  obtain ⟨init, last, rfl⟩ := (List.eq_nil_or_concat' pieces).resolve_left hne
  rw [List.dropLast_concat, List.getLast?_concat, List.map_append, List.map_append, List.sum_append,
    List.sum_append]
  refine add_le_add ?_ ?_
  · rw [List.map_map]
    exact List.sum_le_sum fun l _ => add_le_add_left (tally_le_of_isInfix (stripCr_isInfix l)) _
  · refine List.Sublist.sum_le_sum ?_ fun _ _ => zero_le
    exact List.filter_sublist.map _

theorem sum_lineTally_le {kept ls : List Text} (h : kept.Sublist ls) :
    (kept.map lineTally).sum ≤ (ls.map lineTally).sum :=
  (h.map lineTally).sum_le_sum fun _ _ => zero_le

/-- A part of some lines counts no more than the lines. -/
theorem tally_joinLines_le {kept ls : List Text} (hne : kept ≠ []) (h : kept.Sublist ls) :
    tally (Text.joinLines kept) ≤ tally (Text.joinLines ls) := by
  have hls : ls ≠ [] := fun hnil => hne (List.sublist_nil.mp (hnil ▸ h))
  have hsum := sum_lineTally_le h
  rw [← tally_joinLines hne, ← tally_joinLines hls] at hsum
  exact le_of_add_le_add_right hsum

/-- Some of the lines of a text count no more than the text. -/
theorem tally_joinLines_le_text {kept : List Text} {text : Text} (hne : kept ≠ [])
    (h : kept.Sublist (Text.lines text)) : tally (Text.joinLines kept) ≤ tally text := by
  have hsum := (sum_lineTally_le h).trans (sum_lineTally_lines_le text)
  rw [← tally_joinLines hne] at hsum
  exact le_of_add_le_add_right hsum

theorem estimateTokens_le {s t : Text} (h : tally s ≤ tally t) :
    estimateTokens s ≤ estimateTokens t := by
  rw [estimateTokens_eq, estimateTokens_eq]
  exact tokensOf_mono h

end Tally

end SynapseMemory.Pack
