import SynapseMemory.Fts5
import SynapseMemory.Search
import SynapseMemory.TextFields

/-!
# The full-text query for what a user typed

A query of letters, digits, underscores and white space is passed on as it is, and the tokens of any
other are quoted and joined by `OR`. What is quoted is always a query that FTS5 understands. What is
passed on is one if its operators have operands (`OperatorsBetween`): the words `AND`, `OR` and
`NOT` are operators to FTS5, wherever they stand. And it has no form feed, which is white space to
the check but not to FTS5.
-/

namespace SynapseMemory.Search

open Text

/-! ## What is quoted -/

/-- The characters of the tokens. -/
theorem scanTokens_all {tokens : List Text} {token rest : Text}
    (htokens : ∀ t ∈ tokens, ∀ c ∈ t, isTokenChar c = true)
    (htoken : ∀ c ∈ token, isTokenChar c = true) :
    ∀ t ∈ scanTokens tokens token rest, ∀ c ∈ t, isTokenChar c = true := by
  have hmore : ∀ t ∈ tokens ++ [token], ∀ c ∈ t, isTokenChar c = true :=
    List.forall_mem_append.mpr ⟨htokens, List.forall_mem_singleton.mpr htoken⟩
  induction rest generalizing tokens token with
  | nil =>
    rw [scanTokens]
    split
    · exact hmore
    · exact htokens
  | cons c rest ih =>
    rw [scanTokens]
    split_ifs with hc
    · have hnext : ∀ c' ∈ token ++ [c], isTokenChar c' = true :=
        List.forall_mem_append.mpr ⟨htoken, List.forall_mem_singleton.mpr hc⟩
      refine ih htokens hnext ?_
      exact List.forall_mem_append.mpr ⟨htokens, List.forall_mem_singleton.mpr hnext⟩
    · exact hmore
    · refine ih hmore (List.forall_mem_nil _) ?_
      exact List.forall_mem_append.mpr ⟨hmore, by simp⟩
    · refine ih htokens (List.forall_mem_nil _) ?_
      exact List.forall_mem_append.mpr ⟨htokens, by simp⟩

theorem quote_not_mem {t : Text} (h : ∀ c ∈ t, isTokenChar c = true) : Fts5.quote ∉ t := by
  intro hmem
  have hquote := h _ hmem
  revert hquote
  decide

/-- **What is quoted is in the grammar.** -/
theorem inGrammar_of_quoted {q m : Text}
    (hother : ∃ c ∈ trim q, isTokenChar c = false ∧ isAsciiWhitespace c = false)
    (h : fts5MatchQuery q = some m) : Fts5.InGrammar m := by
  obtain ⟨c, hc, htoken, hspace⟩ := hother
  have hnone : ¬(trim q).isEmpty = true := by
    intro hempty
    rw [List.isEmpty_iff.mp hempty] at hc
    cases hc
  have hall : ¬((trim q).all fun c => isTokenChar c || isAsciiWhitespace c) = true := by
    intro hall
    have hpass := List.all_eq_true.mp hall c hc
    rw [htoken, hspace] at hpass
    cases hpass
  rw [fts5MatchQuery, if_neg hnone, if_neg hall] at h
  simp only at h
  split at h
  next => cases h
  next hne =>
    cases h
    refine Fts5.inGrammar_quoted (by simpa using hne) fun t ht => quote_not_mem ?_
    exact scanTokens_all (List.forall_mem_nil _) (List.forall_mem_nil _) t ht

/-! ## What is passed on -/

/-- The words of a text. -/
def words (t : Text) : List Text := pieces isTokenChar t

/-- A word that is an operator to FTS5. -/
def isOperatorName (w : Text) : Bool :=
  w = ['A', 'N', 'D'] || w = ['O', 'R'] || w = ['N', 'O', 'T']

/-- No operator is at an end, and no two are next to each other. -/
structure OperatorsBetween (ws : List Text) : Prop where
  head : ∀ w ∈ ws.head?, isOperatorName w = false
  last : ∀ w ∈ ws.getLast?, isOperatorName w = false
  chain : ws.IsChain fun v w => isOperatorName v = false ∨ isOperatorName w = false

theorem isOperator_word (w : Text) : (Fts5.word w).isOperator = isOperatorName w := by
  rw [Fts5.word, isOperatorName]
  split_ifs with hand hor hnot
  all_goals simp [Fts5.Token.isOperator, *]

/-- Words make a plain list. -/
theorem plain_words (ws : List Text) : Fts5.Plain (ws.map Fts5.word) := by
  intro t ht
  obtain ⟨w, -, rfl⟩ := List.mem_map.mp ht
  rw [Fts5.word]
  split_ifs
  · exact .inr rfl
  · exact .inr rfl
  · exact .inr rfl
  · exact .inl rfl

/-- Which words are operands. -/
theorem operands_words_iff {ws : List Text} (hne : ws ≠ []) :
    Fts5.Operands (ws.map Fts5.word) ↔ OperatorsBetween ws := by
  constructor
  · rintro ⟨-, hhead, hlast, hchain⟩
    refine ⟨fun w hw => ?_, fun w hw => ?_, ?_⟩
    · rw [← isOperator_word]
      exact hhead _ (by simpa using ⟨w, hw, rfl⟩)
    · rw [← isOperator_word]
      exact hlast _ (by simpa using ⟨w, hw, rfl⟩)
    · simpa [List.isChain_map, isOperator_word] using hchain
  · rintro ⟨hhead, hlast, hchain⟩
    refine ⟨by simpa using hne, fun t ht => ?_, fun t ht => ?_, ?_⟩
    · rw [List.head?_map] at ht
      obtain ⟨w, hw, rfl⟩ := Option.mem_map.mp ht
      rw [isOperator_word]
      exact hhead w hw
    · rw [List.getLast?_map] at ht
      obtain ⟨w, hw, rfl⟩ := Option.mem_map.mp ht
      rw [isOperator_word]
      exact hlast w hw
    · simpa [List.isChain_map, isOperator_word] using hchain

/-- The characters that are passed on. -/
def Passes (t : Text) : Prop := ∀ c ∈ t, isTokenChar c = true ∨ isAsciiWhitespace c = true

/-- `U+000C` -/
def formFeed : Char := Char.ofNat 12

theorem isBareword_of_isTokenChar {c : Char} (h : isTokenChar c = true) :
    Fts5.isBareword c = true := by
  rw [isTokenChar, Bool.or_eq_true] at h
  simp only [Fts5.isBareword, Bool.or_eq_true, decide_eq_true_eq]
  rcases h with h | h
  · exact .inl (.inl (.inl h))
  · exact .inl (.inl (.inr (by simpa using h)))

theorem isAsciiWhitespace_iff {c : Char} :
    isAsciiWhitespace c = true ↔ Fts5.isSpace c = true ∨ c = formFeed := by
  simp only [isAsciiWhitespace, Fts5.isSpace, Bool.or_eq_true, beq_iff_eq, decide_eq_true_eq,
    formFeed]
  tauto

/-- The words of a query without a form feed are its barewords. -/
theorem words_eq {t : Text} (h : Passes t) (hfeed : formFeed ∉ t) :
    words t = pieces Fts5.isBareword t := by
  refine pieces_congr fun c hc => ?_
  rcases h c hc with htoken | hspace
  · rw [htoken, isBareword_of_isTokenChar htoken]
  · rcases isAsciiWhitespace_iff.mp hspace with hspace | rfl
    · have hbare := Fts5.isBareword_of_space hspace
      rw [hbare]
      by_contra htoken
      rw [isBareword_of_isTokenChar (eq_true_of_ne_false htoken)] at hbare
      cases hbare
    · exact absurd hc hfeed

/-- **What is passed on** is in the grammar if its operators are between words. -/
theorem inGrammar_iff_of_passes {t : Text} (h : Passes t) (hword : ∃ c ∈ t, isTokenChar c = true) :
    Fts5.InGrammar t ↔ formFeed ∉ t ∧ OperatorsBetween (words t) := by
  by_cases hfeed : formFeed ∈ t
  · refine iff_of_false ?_ fun h => h.1 hfeed
    rintro ⟨ts, hts, -⟩
    have hquote : ∀ c ∈ t, c ≠ Fts5.quote := by
      rintro c hc rfl
      have hpass := h _ hc
      revert hpass
      decide
    rw [Fts5.lex_stray hquote ⟨formFeed, hfeed, rfl⟩] at hts
    cases hts
  · have hchars : ∀ c ∈ t, Fts5.isBareword c = true ∨ Fts5.isSpace c = true := by
      intro c hc
      refine (h c hc).imp isBareword_of_isTokenChar fun hspace => ?_
      refine (isAsciiWhitespace_iff.mp hspace).resolve_right ?_
      rintro rfl
      exact hfeed hc
    have hne : words t ≠ [] := by
      obtain ⟨c, hc, htoken⟩ := hword
      exact pieces_ne_nil hc htoken
    have hlex := Fts5.lex_words hchars
    rw [← words_eq h hfeed] at hlex
    rw [and_iff_right hfeed, ← operands_words_iff hne, ← Fts5.expr_iff_operands (plain_words _)]
    constructor
    · rintro ⟨ts, hts, hexpr⟩
      obtain rfl := Option.some.inj (hlex.symm.trans hts)
      exact hexpr
    · exact fun hexpr => ⟨_, hlex, hexpr⟩

/-! ## Every query -/

theorem isWhitespace_of_ascii {c : Char} (h : isAsciiWhitespace c = true) :
    isWhitespace c = true := by
  simp only [isAsciiWhitespace, Bool.or_eq_true, beq_iff_eq] at h
  rcases h with (((rfl | rfl) | rfl) | rfl) | rfl
  all_goals decide

/-- What is left after trimming has a character that is not white space. -/
theorem exists_not_white {q : Text} (h : trim q ≠ []) : ∃ c ∈ trim q, isWhitespace c = false := by
  by_contra hnone
  refine h (trim_eq_nil.mpr fun c hc => ?_)
  rw [trim_split q, List.mem_append, List.mem_append] at hc
  rcases hc with hc | hc | hc
  · exact isWhitespace_of_mem_leading hc
  · by_contra hblack
    exact hnone ⟨c, hc, Bool.eq_false_iff.mpr hblack⟩
  · exact isWhitespace_of_mem_trailing hc

/-- **The query is one that FTS5 understands** if and only if something in it is quoted, or it has
no form feed and its operators are between words. -/
theorem fts5MatchQuery_inGrammar_iff (q : Text) :
    (∀ m, fts5MatchQuery q = some m → Fts5.InGrammar m) ↔
      (∃ c ∈ trim q, isTokenChar c = false ∧ isAsciiWhitespace c = false) ∨
        (formFeed ∉ trim q ∧ OperatorsBetween (words (trim q))) := by
  by_cases hother : ∃ c ∈ trim q, isTokenChar c = false ∧ isAsciiWhitespace c = false
  · exact iff_of_true (fun m hm => inGrammar_of_quoted hother hm) (.inl hother)
  · rw [or_iff_right hother]
    have hpasses : Passes (trim q) := by
      intro c hc
      by_contra hnot
      obtain ⟨htoken, hspace⟩ := not_or.mp hnot
      exact hother ⟨c, hc, eq_false_of_ne_true htoken, eq_false_of_ne_true hspace⟩
    rcases eq_or_ne (trim q) [] with hempty | hne
    · refine iff_of_true (fun m hm => ?_) ?_
      · rw [fts5MatchQuery, hempty] at hm
        cases hm
      · rw [hempty]
        exact ⟨List.not_mem_nil, nofun, nofun, List.IsChain.nil⟩
    · have hword : ∃ c ∈ trim q, isTokenChar c = true := by
        obtain ⟨c, hc, hblack⟩ := exists_not_white hne
        refine ⟨c, hc, (hpasses c hc).resolve_right fun hspace => ?_⟩
        rw [isWhitespace_of_ascii hspace] at hblack
        cases hblack
      have hquery : fts5MatchQuery q = some (trim q) := by
        have hall : ((trim q).all fun c => isTokenChar c || isAsciiWhitespace c) = true :=
          List.all_eq_true.mpr fun c hc => (Bool.or_eq_true _ _).mpr (hpasses c hc)
        rw [fts5MatchQuery, if_neg (by simpa using hne), if_pos hall]
      rw [hquery, ← inGrammar_iff_of_passes hpasses hword]
      simp

/-- An operator without an operand is passed on. -/
theorem lone_operator : fts5MatchQuery "rust AND".toList = some "rust AND".toList ∧
    ¬Fts5.InGrammar "rust AND".toList := by
  refine ⟨by decide, ?_⟩
  rintro ⟨ts, hts, hexpr⟩
  obtain rfl : ["rust".toList, "AND".toList].map Fts5.word = ts := Option.some.inj hts
  have hlast := ((Fts5.expr_iff_operands (plain_words _)).mp hexpr).last .and rfl
  cases hlast

end SynapseMemory.Search
