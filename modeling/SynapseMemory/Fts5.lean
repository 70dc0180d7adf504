import SynapseMemory.Pieces

/-!
# The syntax of full-text queries

The tokens of an FTS5 query and its grammar. A query is in the grammar if its tokens are derived
from `Expr`: phrases of strings, next to each other or with an operator between, with what else the
syntax has (prefixes, `NEAR`, column filters, parentheses).

A query of words alone has few tokens: a word is a string or one of the operators. Then all depends
on where the operators stand (`expr_iff_operands`): none at the ends, and no two next to each other.
-/

namespace Fts5

/-! ## Tokens -/

/-- The tokens of a query. -/
inductive Token where
  /-- a bareword, or a string in quotes -/
  | string (quoted : Bool) (w : List Char)
  | and
  | or
  | not
  | lp
  | rp
  | lcp
  | rcp
  | colon
  | comma
  | plus
  | star
  | minus
  | caret
  deriving DecidableEq

/-- White space between tokens. -/
def isSpace (c : Char) : Bool := c = ' ' || c = '\t' || c = '\n' || c = '\r'

/-- Letters, digits, the underscore, the substitute character and what is not ASCII. -/
def isBareword (c : Char) : Bool :=
  c.isAlphanum || c = '_' || c = Char.ofNat 26 || 128 ≤ c.val

/-- The double quote. -/
def quote : Char := Char.ofNat 34

/-- A bareword, if it is not the name of an operator. -/
def word (w : List Char) : Token :=
  if w = ['A', 'N', 'D'] then .and
  else if w = ['O', 'R'] then .or
  else if w = ['N', 'O', 'T'] then .not
  else .string false w

/-- The tokens of a single character. -/
def symbol : Char → Option Token
  | '(' => some .lp
  | ')' => some .rp
  | '{' => some .lcp
  | '}' => some .rcp
  | ':' => some .colon
  | ',' => some .comma
  | '+' => some .plus
  | '*' => some .star
  | '-' => some .minus
  | '^' => some .caret
  | _ => none

/-- What has been read of a token. -/
inductive Lexing where
  | ground
  | bare (w : List Char)
  | quoted (w : List Char)
  /-- after a quote that may be the first of two -/
  | closed (w : List Char)

/-- The token that a character is, and what it begins. -/
def start (c : Char) : Option (List Token × Lexing) :=
  if isSpace c then some ([], .ground)
  else if c = quote then some ([], .quoted [])
  else if isBareword c then some ([], .bare [c])
  else (symbol c).map fun t => ([t], .ground)

/-- The tokens of a query from a state on, or `none` at a syntax error. -/
def lexFrom : Lexing → List Char → Option (List Token)
  | .ground, [] => some []
  | .bare w, [] => some [word w]
  | .quoted _, [] => none
  | .closed w, [] => some [.string true w]
  | .ground, c :: t => (start c).bind fun p => (lexFrom p.2 t).map (p.1 ++ ·)
  | .bare w, c :: t =>
    if isBareword c then lexFrom (.bare (w ++ [c])) t
    else (start c).bind fun p => (lexFrom p.2 t).map (word w :: p.1 ++ ·)
  | .quoted w, c :: t =>
    if c = quote then lexFrom (.closed w) t else lexFrom (.quoted (w ++ [c])) t
  | .closed w, c :: t =>
    if c = quote then lexFrom (.quoted (w ++ [quote])) t
    else (start c).bind fun p => (lexFrom p.2 t).map (.string true w :: p.1 ++ ·)

/-- The tokens of a query, if each character is of one. -/
def lex (q : List Char) : Option (List Token) := lexFrom .ground q

/-! ## The grammar -/

/-- A phrase may end in a star. -/
inductive Starred : List Token → Prop where
  | bare : Starred []
  | star : Starred [.star]

/-- A phrase: strings with a plus between them. -/
inductive Phrase : List Token → Prop where
  | string {s : List Token} (quoted : Bool) (w : List Char) (hs : Starred s) :
      Phrase (.string quoted w :: s)
  | plus {p s : List Token} (quoted : Bool) (w : List Char) (hp : Phrase p) (hs : Starred s) :
      Phrase (p ++ .plus :: .string quoted w :: s)

/-- The phrases of a `NEAR`. -/
inductive Phrases : List Token → Prop where
  | one {p : List Token} (hp : Phrase p) : Phrases p
  | more {ps p : List Token} (hps : Phrases ps) (hp : Phrase p) : Phrases (ps ++ p)

/-- The distance of a `NEAR`. -/
inductive Distance : List Token → Prop where
  | default : Distance []
  | given {w : List Char} (hw : ∀ c ∈ w, c.isDigit = true) :
      Distance [.comma, .string false w]

/-- A phrase, a phrase at the beginning of a column, or a `NEAR`. -/
inductive NearSet : List Token → Prop where
  | phrase {p : List Token} (hp : Phrase p) : NearSet p
  | initial {p : List Token} (hp : Phrase p) : NearSet (.caret :: p)
  | near {ps d : List Token} (hps : Phrases ps) (hd : Distance d) :
      NearSet (.string false ['N', 'E', 'A', 'R'] :: .lp :: (ps ++ d ++ [.rp]))

/-- A filter of columns. -/
inductive Columns : List Token → Prop where
  | one (quoted : Bool) (w : List Char) : Columns [.string quoted w]
  | group (names : List (Bool × List Char)) (hne : names ≠ []) :
      Columns (.lcp :: (names.map (fun n => .string n.1 n.2) ++ [.rcp]))
  | except {c : List Token} (hc : Columns c) : Columns (.minus :: c)

/-- A set of phrases, with or without a filter. -/
inductive Filtered : List Token → Prop where
  | all {n : List Token} (hn : NearSet n) : Filtered n
  | columns {c n : List Token} (hc : Columns c) (hn : NearSet n) : Filtered (c ++ .colon :: n)

/-- Next to each other is as good as `AND`. -/
inductive ExprList : List Token → Prop where
  | one {n : List Token} (hn : Filtered n) : ExprList n
  | more {l n : List Token} (hl : ExprList l) (hn : Filtered n) : ExprList (l ++ n)

/-- The expressions, with or without parentheses and operators. -/
inductive Expr : List Token → Prop where
  | list {l : List Token} (hl : ExprList l) : Expr l
  | paren {e : List Token} (he : Expr e) : Expr (.lp :: (e ++ [.rp]))
  | columns {c e : List Token} (hc : Columns c) (he : Expr e) :
      Expr (c ++ .colon :: .lp :: (e ++ [.rp]))
  | and {a b : List Token} (ha : Expr a) (hb : Expr b) : Expr (a ++ .and :: b)
  | or {a b : List Token} (ha : Expr a) (hb : Expr b) : Expr (a ++ .or :: b)
  | not {a b : List Token} (ha : Expr a) (hb : Expr b) : Expr (a ++ .not :: b)

/-- A query that is no syntax error. -/
def InGrammar (q : List Char) : Prop := ∃ ts, lex q = some ts ∧ Expr ts

/-! ## Queries of words -/

theorem start_of_space {c : Char} (h : isSpace c = true) : start c = some ([], .ground) := by
  rw [start, if_pos h]

theorem isBareword_of_space {c : Char} (h : isSpace c = true) : isBareword c = false := by
  simp only [isSpace, Bool.or_eq_true, decide_eq_true_eq] at h
  rcases h with ((rfl | rfl) | rfl) | rfl
  all_goals decide

/-- A bareword begins with one of its characters. -/
theorem start_of_bareword {c : Char} (h : isBareword c = true) :
    start c = some ([], .bare [c]) := by
  have hspace : ¬isSpace c = true := fun hspace => by
    rw [isBareword_of_space hspace] at h
    cases h
  have hquote : c ≠ quote := by
    rintro rfl
    revert h
    decide
  rw [start, if_neg hspace, if_neg hquote, if_pos h]

/-- A text of words and white space has its words as tokens. -/
theorem lexFrom_words {t : List Char} (h : ∀ c ∈ t, isBareword c = true ∨ isSpace c = true) :
    lexFrom .ground t = some ((pieces isBareword t).map word) ∧
      ∀ w : List Char, w ≠ [] → (∀ c ∈ w, isBareword c = true) →
        lexFrom (.bare w) t = some ((pieces isBareword (w ++ t)).map word) := by
  induction t with
  | nil =>
    refine ⟨rfl, fun w hne hw => ?_⟩
    rw [List.append_nil, pieces_of_all hne hw]
    rfl
  | cons c t ih =>
    obtain ⟨hc, ht⟩ := List.forall_mem_cons.mp h
    obtain ⟨hground, hbare⟩ := ih ht
    rcases hc with hc | hc
    · refine ⟨?_, fun w hne hw => ?_⟩
      · have hone := hbare [c] (List.cons_ne_nil _ _) (List.forall_mem_singleton.mpr hc)
        rw [lexFrom, start_of_bareword hc, Option.bind_some, hone]
        rfl
      · have hmore := hbare (w ++ [c]) (by simp)
          (List.forall_mem_append.mpr ⟨hw, List.forall_mem_singleton.mpr hc⟩)
        rw [lexFrom, if_pos hc, hmore, List.append_assoc, List.singleton_append]
    · have hnot := isBareword_of_space hc
      refine ⟨?_, fun w hne hw => ?_⟩
      · rw [lexFrom, start_of_space hc, Option.bind_some, hground, pieces_cons_of_not hnot]
        rfl
      · rw [lexFrom, if_neg (by rw [hnot]; decide), start_of_space hc, Option.bind_some, hground,
          pieces_append_cons hnot, pieces_of_all hne hw]
        rfl

/-- **The tokens of words.** -/
theorem lex_words {t : List Char} (h : ∀ c ∈ t, isBareword c = true ∨ isSpace c = true) :
    lex t = some ((pieces isBareword t).map word) :=
  (lexFrom_words h).1

/-- A character of no token. -/
def Stray (c : Char) : Prop := start c = none

/-- A lookup that fails has no image. -/
theorem bind_map_eq_none {α β γ : Type} {o : Option α} {f : α → Option β} (g : α → β → γ)
    (h : o.bind f = none) : (o.bind fun a => (f a).map (g a)) = none := by
  cases o with
  | none => rfl
  | some a => rw [Option.bind_some, show f a = none from h, Option.map_none]

/-- A character that no token begins with is a syntax error. -/
theorem lexFrom_stray {t : List Char} (hquote : ∀ c ∈ t, c ≠ quote) (h : ∃ c ∈ t, Stray c) :
    lexFrom .ground t = none ∧ ∀ w, lexFrom (.bare w) t = none := by
  induction t with
  | nil =>
    obtain ⟨c, hc, -⟩ := h
    cases hc
  | cons c t ih =>
    obtain ⟨hc, ht⟩ := List.forall_mem_cons.mp hquote
    obtain ⟨d, hd, hstray⟩ := h
    rcases List.mem_cons.mp hd with rfl | hd
    · have hnot : ¬isBareword d = true := by
        intro hbare
        rw [Stray, start_of_bareword hbare] at hstray
        cases hstray
      refine ⟨by rw [lexFrom, hstray, Option.bind_none], fun w => ?_⟩
      rw [lexFrom, if_neg hnot, hstray, Option.bind_none]
    · obtain ⟨hground, hbare⟩ := ih ht ⟨d, hd, hstray⟩
      -- what the first character begins is not ended
      have hstart : ((start c).bind fun p => lexFrom p.2 t) = none := by
        rw [start]
        split_ifs
        · exact hground
        · exact hbare [c]
        · cases symbol c with
          | none => rfl
          | some s => exact hground
      refine ⟨by rw [lexFrom, bind_map_eq_none _ hstart], fun w => ?_⟩
      rw [lexFrom]
      split
      · exact hbare _
      · exact bind_map_eq_none _ hstart

/-- A stray character is a syntax error, if nothing is quoted. -/
theorem lex_stray {t : List Char} (hquote : ∀ c ∈ t, c ≠ quote) (h : ∃ c ∈ t, Stray c) :
    lex t = none :=
  (lexFrom_stray hquote h).1

/-! ## Where the operators stand -/

/-- The token is one of the three operators. -/
def Token.isOperator : Token → Bool
  | .and | .or | .not => true
  | _ => false

/-- The token is a string. -/
def Token.isString : Token → Bool
  | .string _ _ => true
  | _ => false

/-- Strings and operators. -/
def Plain (ts : List Token) : Prop := ∀ t ∈ ts, t.isString = true ∨ t.isOperator = true

/-- Each operator has something on both sides. -/
structure Operands (ts : List Token) : Prop where
  nonempty : ts ≠ []
  head : ∀ t ∈ ts.head?, t.isOperator = false
  last : ∀ t ∈ ts.getLast?, t.isOperator = false
  chain : ts.IsChain fun a b => a.isOperator = false ∨ b.isOperator = false

theorem Plain.left {a b : List Token} (h : Plain (a ++ b)) : Plain a :=
  fun t ht => h t (List.mem_append_left b ht)

theorem Plain.right {a b : List Token} (h : Plain (a ++ b)) : Plain b :=
  fun t ht => h t (List.mem_append_right a ht)

theorem Plain.tail {t : Token} {ts : List Token} (h : Plain (t :: ts)) : Plain ts :=
  fun u hu => h u (List.mem_cons_of_mem t hu)

theorem Token.isOperator_of_isString {t : Token} (h : t.isString = true) :
    t.isOperator = false := by
  cases t <;> first | rfl | cases h

/-- The syntax of phrases has no operators. -/
structure Strings (ts : List Token) : Prop where
  nonempty : ts ≠ []
  all : ∀ t ∈ ts, t.isString = true

theorem Strings.append {a b : List Token} (ha : Strings a) (hb : Strings b) : Strings (a ++ b) :=
  ⟨List.append_ne_nil_of_left_ne_nil ha.nonempty b, List.forall_mem_append.mpr ⟨ha.all, hb.all⟩⟩

/-- A plain phrase has strings only. -/
theorem Phrase.strings {p : List Token} (h : Phrase p) (hplain : Plain p) : Strings p := by
  cases h with
  | string quoted w hs =>
    cases hs with
    | bare => exact ⟨List.cons_ne_nil _ _, by simp [Token.isString]⟩
    | star => simpa [Token.isString, Token.isOperator] using hplain .star (by simp)
  | plus quoted w hp hs => simpa [Token.isString, Token.isOperator] using hplain .plus (by simp)

/-- So has a plain `NEAR`. -/
theorem NearSet.strings {n : List Token} (h : NearSet n) (hplain : Plain n) : Strings n := by
  cases h with
  | phrase hp => exact hp.strings hplain
  | initial hp => simpa [Token.isString, Token.isOperator] using hplain .caret (by simp)
  | near hps hd => simpa [Token.isString, Token.isOperator] using hplain .lp (by simp)

theorem Filtered.strings {n : List Token} (h : Filtered n) (hplain : Plain n) : Strings n := by
  cases h with
  | all hn => exact hn.strings hplain
  | columns hc hn => simpa [Token.isString, Token.isOperator] using hplain .colon (by simp)

theorem ExprList.strings {l : List Token} (h : ExprList l) (hplain : Plain l) : Strings l := by
  induction h with
  | one hn => exact hn.strings hplain
  | more hl hn ih => exact (ih hplain.left).append (hn.strings hplain.right)

/-- Strings are operands. -/
theorem Strings.operands {ts : List Token} (h : Strings ts) : Operands ts where
  nonempty := h.nonempty
  head t ht := Token.isOperator_of_isString (h.all t (List.mem_of_mem_head? ht))
  last t ht := Token.isOperator_of_isString (h.all t (List.mem_of_mem_getLast? ht))
  chain := by
    refine List.Pairwise.isChain ?_
    exact List.pairwise_of_forall_mem_list fun a ha _ _ =>
      .inl (Token.isOperator_of_isString (h.all a ha))

/-- An operator between operands. -/
theorem Operands.binary {a b : List Token} {op : Token} (ha : Operands a) (hb : Operands b) :
    Operands (a ++ op :: b) := by
  refine ⟨by simp, fun t ht => ?_, fun t ht => ?_, ?_⟩
  · rw [List.head?_append_of_ne_nil _ ha.nonempty] at ht
    exact ha.head t ht
  · rw [List.getLast?_append_of_ne_nil _ (List.cons_ne_nil _ _), ← List.singleton_append,
      List.getLast?_append_of_ne_nil _ hb.nonempty] at ht
    exact hb.last t ht
  · refine List.isChain_append.mpr ⟨ha.chain, List.isChain_cons.mpr ⟨fun t ht => ?_, hb.chain⟩, ?_⟩
    · exact .inr (hb.head t ht)
    · exact fun t ht u _ => .inl (ha.last t ht)

/-- A plain expression has operands, and operators between them. -/
theorem Expr.operands {e : List Token} (h : Expr e) (hplain : Plain e) : Operands e := by
  induction h with
  | list hl => exact (hl.strings hplain).operands
  | paren he ih => simpa [Token.isString, Token.isOperator] using hplain .lp (by simp)
  | columns hc he ih => simpa [Token.isString, Token.isOperator] using hplain .colon (by simp)
  | and ha hb iha ihb => exact (iha hplain.left).binary (ihb hplain.right.tail)
  | or ha hb iha ihb => exact (iha hplain.left).binary (ihb hplain.right.tail)
  | not ha hb iha ihb => exact (iha hplain.left).binary (ihb hplain.right.tail)

/-- A string has a text. -/
theorem Token.exists_of_isString {t : Token} (h : t.isString = true) :
    ∃ quoted w, t = .string quoted w := by
  cases t with
  | string quoted w => exact ⟨quoted, w, rfl⟩
  | _ => cases h

/-- Strings next to each other. -/
theorem exprList_of_strings {ts : List Token} (h : Strings ts) : ExprList ts := by
  obtain ⟨hne, hall⟩ := h
  induction ts using List.reverseRecOn with
  | nil => exact absurd rfl hne
  | append_singleton ts t ih =>
    obtain ⟨hts, ht⟩ := List.forall_mem_append.mp hall
    obtain ⟨quoted, w, rfl⟩ := Token.exists_of_isString (ht t (List.mem_singleton_self t))
    have hone : Filtered [.string quoted w] := .all (.phrase (.string quoted w .bare))
    rcases eq_or_ne ts [] with rfl | hne
    · exact .one hone
    · exact .more (ih hne hts) hone

/-- Expressions with an operator between them. -/
theorem Expr.binary {a b : List Token} {op : Token} (hop : op.isOperator = true) (ha : Expr a)
    (hb : Expr b) : Expr (a ++ op :: b) := by
  cases op with
  | and => exact .and ha hb
  | or => exact .or ha hb
  | not => exact .not ha hb
  | _ => cases hop

/-- What is behind an operator. -/
theorem Operands.right {a b : List Token} {op : Token} (hop : op.isOperator = true)
    (h : Operands (a ++ op :: b)) : Operands b := by
  have hne : b ≠ [] := by
    rintro rfl
    have hlast := h.last op (by simp)
    rw [hop] at hlast
    cases hlast
  obtain ⟨hhead, hchain⟩ := List.isChain_cons.mp h.chain.right_of_append
  refine ⟨hne, fun t ht => (hhead t ht).resolve_left ?_, fun t ht => h.last t ?_, hchain⟩
  · rw [hop]
    decide
  · rw [List.getLast?_append_of_ne_nil _ (List.cons_ne_nil _ _), ← List.singleton_append,
      List.getLast?_append_of_ne_nil _ hne]
    exact ht

/-- The induction is on what is behind the strings that were read. -/
theorem expr_append {read ts : List Token} (hread : ∀ t ∈ read, t.isString = true)
    (hplain : Plain ts) (h : Operands (read ++ ts)) : Expr (read ++ ts) := by
  induction ts generalizing read with
  | nil =>
    rw [List.append_nil] at h ⊢
    exact .list (exprList_of_strings ⟨h.nonempty, hread⟩)
  | cons t ts ih =>
    rcases hplain t List.mem_cons_self with hstring | hop
    · rw [← List.singleton_append, ← List.append_assoc] at h ⊢
      refine ih (List.forall_mem_append.mpr ⟨hread, ?_⟩) hplain.tail h
      exact List.forall_mem_singleton.mpr hstring
    · have hne : read ≠ [] := by
        rintro rfl
        have hhead := h.head t rfl
        rw [hop] at hhead
        cases hhead
      have hbehind : Expr ts := ih (List.forall_mem_nil _) hplain.tail (h.right hop)
      exact Expr.binary hop (.list (exprList_of_strings ⟨hne, hread⟩)) hbehind

/-- **A query of strings and operators** is in the grammar if each operator has its operands. -/
theorem expr_iff_operands {ts : List Token} (hplain : Plain ts) : Expr ts ↔ Operands ts :=
  ⟨fun h => h.operands hplain, expr_append (List.forall_mem_nil _) hplain⟩

/-! ## Quoted strings -/

/-- A string in quotes. -/
def quoted (w : List Char) : List Char := quote :: (w ++ [quote])

/-- A quoted string is read up to its quote. -/
theorem lexFrom_quoted {w : List Char} (hw : quote ∉ w) (read rest : List Char) :
    lexFrom (.quoted read) (w ++ quote :: rest) = lexFrom (.closed (read ++ w)) rest := by
  induction w generalizing read with
  | nil => rw [List.nil_append, lexFrom, if_pos rfl, List.append_nil]
  | cons c w ih =>
    obtain ⟨hc, hw⟩ := not_or.mp (List.mem_cons.not.mp hw)
    rw [List.cons_append, lexFrom, if_neg (Ne.symm hc), ih hw, List.append_assoc,
      List.singleton_append]

/-- What is quoted is read as one string. -/
theorem lexFrom_quoted_append {w : List Char} (hw : quote ∉ w) (rest : List Char) :
    lexFrom .ground (quoted w ++ rest) = lexFrom (.closed w) rest := by
  have hread := lexFrom_quoted hw [] rest
  have hstart : start quote = some ([], .quoted []) := rfl
  rw [quoted, List.cons_append, List.append_assoc, List.singleton_append, lexFrom, hstart,
    Option.bind_some, hread, List.nil_append]
  exact Option.map_id'

/-- A string in quotes, and another query behind an `OR`. -/
theorem lexFrom_or {w : List Char} (hw : quote ∉ w) (rest : List Char) :
    lexFrom .ground (quoted w ++ ([' ', 'O', 'R', ' '] ++ rest)) =
      (lexFrom .ground rest).map fun ts => [.string true w] ++ .or :: ts := by
  have hspace : start ' ' = some ([], .ground) := start_of_space rfl
  have hword : start 'O' = some ([], .bare ['O']) := start_of_bareword rfl
  have hmore : isBareword 'R' = true := rfl
  have hnot : ¬isBareword ' ' = true := by decide
  change lexFrom .ground (quoted w ++ ' ' :: 'O' :: 'R' :: ' ' :: rest) = _
  rw [lexFrom_quoted_append hw, lexFrom, if_neg (by decide), hspace, Option.bind_some, lexFrom,
    hword, Option.bind_some, lexFrom, if_pos hmore, lexFrom, if_neg hnot, hspace, Option.bind_some,
    Option.map_map, Option.map_map]
  rfl

/-- **Quoted strings with `OR` between** are in the grammar, whatever they are. -/
theorem inGrammar_quoted {ws : List (List Char)} (hne : ws ≠ []) (hws : ∀ w ∈ ws, quote ∉ w) :
    InGrammar ([' ', 'O', 'R', ' '].intercalate (ws.map quoted)) := by
  induction ws with
  | nil => exact absurd rfl hne
  | cons w ws ih =>
    obtain ⟨hw, hws⟩ := List.forall_mem_cons.mp hws
    have hone : Expr [.string true w] := .list (.one (.all (.phrase (.string true w .bare))))
    rcases eq_or_ne ws [] with rfl | hmore
    · refine ⟨[.string true w], ?_, hone⟩
      have hlex := lexFrom_quoted_append hw []
      rw [List.append_nil] at hlex
      rw [List.map_singleton, List.intercalate_singleton, lex, hlex, lexFrom]
    · obtain ⟨ts, hts, hexpr⟩ := ih hmore hws
      refine ⟨[.string true w] ++ .or :: ts, ?_, .or hone hexpr⟩
      rw [List.map_cons, List.intercalate_cons_of_ne_nil (by simpa using hmore),
        List.append_assoc, lex, lexFrom_or hw, ← lex, hts]
      rfl

end Fts5
