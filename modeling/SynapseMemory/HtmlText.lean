import SynapseMemory.TextFields

/-!
# The text of a page

`html_to_text` goes through a page by offset. A comment and a tag are a blank, the content of a
script or style element is skipped up to its end tag, and everything else is copied. Whether a tag
opens such an element is read off the next 24 bytes of the page. There is no such slice in the last
bytes of the page, nor where it would end within a character: the tag is one like any other then,
and the content is copied.

What is inside an element is said of the page itself. From a place in running text the next one is
after a comment, an element or a tag, or after one character (`next`), and an element goes on to its
end tag or to the end of the page. The scanner is in running text as long as it reads the page as it
is meant (`ReadAsMeant`): each turn takes it from one such place to another, or into an element that
it skips (`InStep.turn`).
-/

namespace SynapseMemory.Html

open Text

/-! ## The code -/

/-- What is pushed: a character of the page and where it is from, or the blank for a tag. -/
inductive Piece where
  | copied (offset : ℕ) (c : Char)
  | blank
  deriving DecidableEq, Repr

/-- The character of a piece. -/
def Piece.char : Piece → Char
  | .copied _ c => c
  | .blank => ' '

/-- `collapse_ws` -/
def collapseWs (raw : Text) : Text := [' '].intercalate (splitWhitespace raw)

/-- `lower_ascii_slice` -/
def lowerAsciiSlice (raw : Text) (start length : ℕ) : Text :=
  toAsciiLowercase ((get? raw start (start + length)).getD [])

/-- The end tag that a tag has the scanner look for. -/
def skipUntil (lowerTag : Text) : Option Text :=
  if "<script".toList.isPrefixOf lowerTag then some "</script>".toList
  else if "<style".toList.isPrefixOf lowerTag then some "</style>".toList
  else none

/-- What a turn of the loop comes to. -/
structure Turn where
  i : ℕ
  pushed : List Piece
  skipUntil : Option Text

/-- A turn of the loop, or `break`. -/
def turn (html : Text) (i : ℕ) (rest : Text) : Option Text → Option Turn
  | some endTag =>
    (findStr endTag (toAsciiLowercase rest)).map fun stop => ⟨i + (stop + len endTag), [], none⟩
  | none =>
    if "<!--".toList.isPrefixOf rest then
      (findStr "-->".toList rest).map fun stop => ⟨i + (stop + 3), [.blank], none⟩
    else if "<".toList.isPrefixOf rest then
      let lowerTag := lowerAsciiSlice html i 24
      (findChar (· == '>') rest).map fun stop => ⟨i + (stop + 1), [.blank], skipUntil lowerTag⟩
    else
      match rest with
      | c :: _ => some ⟨i + c.utf8Size, [.copied i c], none⟩
      | [] => none

/-- What is gathered, and whether the scanner came to an offset within a character. -/
structure Scan where
  out : List Piece
  cut : Bool
  deriving DecidableEq, Repr

/-- The loop of `html_to_text`, from a byte on. -/
def scanFrom (html : Text) : ℕ → ℕ → List Piece → Option Text → Option Scan
  | 0, _, _, _ => none
  | fuel + 1, i, out, skip =>
    if i < len html then
      match getFrom? html i with
      | none => some ⟨out, true⟩
      | some rest =>
        match turn html i rest skip with
        | none => some ⟨out, false⟩
        | some t => scanFrom html fuel t.i (out ++ t.pushed) t.skipUntil
    else some ⟨out, false⟩

/-- The loop from the beginning of the text. -/
def scan (html : Text) (fuel : ℕ) : Option Scan := scanFrom html fuel 0 [] none

/-- What is gathered, with the character references in it decoded if they can be. -/
def finish (decodeHtml : Text → Option Text) (out : List Piece) : Text :=
  let raw := out.map Piece.char
  collapseWs ((decodeHtml raw).getD raw)

/-- `html_to_text` -/
def htmlToText (decodeHtml : Text → Option Text) (html : Text) (fuel : ℕ) : Option Text :=
  (scan html fuel).map fun s => finish decodeHtml s.out

/-! ## The elements of a page -/

/-- What comes after a pattern where it occurs first, in the case that it is looked for in. -/
def after (fold : Char → Char) (pat : Text) : Text → Option Text
  | [] => if pat.isEmpty then some [] else none
  | c :: t =>
    if pat.isPrefixOf ((c :: t).map fold) then some ((c :: t).drop pat.length)
    else after fold pat t

/-- An element whose content is no text. -/
inductive Element where
  | script
  | style
  deriving DecidableEq, Repr

/-- The beginning of the opening tag. -/
def Element.opening : Element → Text
  | .script => "<script".toList
  | .style => "<style".toList

/-- The beginning of the closing tag. -/
def Element.closing : Element → Text
  | .script => "</script".toList
  | .style => "</style".toList

/-- The end tag as it is mostly written. -/
def Element.endTag (e : Element) : Text := e.closing ++ ['>']

/-- A tag starts here: the name in any case, and what can come after a name. -/
def tagAt (name t : Text) : Bool :=
  name.isPrefixOf (toAsciiLowercase t) &&
    (t[name.length]?).any fun c => c.isWhitespace || c == Char.ofNat 12 || c == '/' || c == '>'

/-- The element that is opened here. -/
def elementAt (t : Text) : Option Element :=
  if tagAt Element.script.opening t then some .script
  else if tagAt Element.style.opening t then some .style
  else none

/-- What comes after the end tag of an element. -/
def contentEnd (e : Element) : Text → Option Text
  | [] => none
  | c :: t => if tagAt e.closing (c :: t) then after id ['>'] (c :: t) else contentEnd e t

/-- There is a tag here, and not just the character that tags start with. -/
def isTag : Text → Bool
  | '<' :: c :: _ => c.isAlpha || c == '/' || c == '!' || c == '?'
  | _ => false

/-- The place in running text that comes next. -/
def next (t : Text) : Option Text :=
  if "<!--".toList.isPrefixOf t then after id "-->".toList t
  else
    match elementAt t with
    | some e => (after id ['>'] t).bind (contentEnd e)
    | none => if isTag t then after id ['>'] t else t.tail?

/-- What is ahead is running text. -/
def Running (html rest : Text) : Prop :=
  Relation.ReflTransGen (fun t u => next t = some u) html rest

/-- What is ahead is inside an element: from the opening tag to the end tag, or to the end. -/
def Inside (html rest : Text) : Prop :=
  ∃ d, Running html d ∧ (elementAt d).isSome ∧ rest <:+ d ∧ rest ≠ [] ∧
    ∀ u, next d = some u → u.length < rest.length

/-- The text at an offset is inside a script or a style. -/
def InsideAt (html : Text) (offset : ℕ) : Prop :=
  ∃ rest, getFrom? html offset = some rest ∧ Inside html rest

/-- The page is read as it is meant. -/
structure ReadAsMeant (html : Text) : Prop where
  /-- an opening tag has a slice, or there is nothing in the element -/
  opening : ∀ d e, Running html d → elementAt d = some e → (get? d 0 24).isSome ∨
    ∀ body, after id ['>'] d = some body → tagAt e.closing body = true
  /-- what is skipped ends in running text -/
  closing : ∀ d e body rest, Running html d → elementAt d = some e →
    after id ['>'] d = some body → after Char.toLower e.endTag body = some rest → Running html rest
  /-- the same where only the name of the tag starts like that -/
  name : ∀ d endTag body rest, Running html d → elementAt d = none →
    skipUntil (lowerAsciiSlice d 0 24) = some endTag → after id ['>'] d = some body →
    after Char.toLower endTag body = some rest → Running html rest
  /-- what is passed over after a `<` that starts no tag ends in running text -/
  stray : ∀ d body, Running html d → d.head? = some '<' → isTag d = false →
    after id ['>'] d = some body → Running html body

/-! ## Patterns and slices -/

/-- Finding a character is finding a text of one. -/
theorem findChar_eq_findStr (x : Char) (t : Text) : findChar (· == x) t = findStr [x] t := by
  induction t with
  | nil => rfl
  | cons c t ih =>
    have hhead : [x].isPrefixOf (c :: t) = (c == x) := by
      rw [BEq.comm]
      simp [List.isPrefixOf]
    rw [findChar, findStr, hhead, ih]

theorem len_map {fold : Char → Char} (hfold : ∀ c, (fold c).utf8Size = c.utf8Size) (t : Text) :
    len (t.map fold) = len t := by
  simp [len, Function.comp_def, hfold]

/-- What comes after a pattern is the end of the text. -/
theorem after_suffix {fold : Char → Char} {pat t u : Text} (h : after fold pat t = some u) :
    u <:+ t := by
  induction t with
  | nil =>
    rw [after, Option.ite_none_right_eq_some, Option.some_inj] at h
    exact h.2 ▸ List.suffix_rfl
  | cons c t ih =>
    rw [after] at h
    split at h
    next => exact Option.some_inj.mp h ▸ List.drop_suffix _ _
    next => exact (ih h).trans (List.suffix_cons c t)

/-- It is shorter than the text. -/
theorem after_lt {fold : Char → Char} {pat t u : Text} (hpat : pat ≠ [])
    (h : after fold pat t = some u) : u.length < t.length := by
  induction t with
  | nil => simp [after, hpat] at h
  | cons c t ih =>
    rw [after] at h
    split at h
    next =>
      have hpos := List.length_pos_of_ne_nil hpat
      rw [← Option.some_inj.mp h, List.length_drop, List.length_cons]
      omega
    next => exact (ih h).trans (Nat.lt_succ_self _)

/-- An occurrence that is found is the first one. -/
theorem after_of_findStr {fold : Char → Char} (hfold : ∀ c, (fold c).utf8Size = c.utf8Size)
    {pat t : Text} {n : ℕ} (h : findStr pat (t.map fold) = some n) :
    ∃ a u, t = a ++ u ∧ len a = n + len pat ∧ after fold pat t = some u := by
  induction t generalizing n with
  | nil =>
    rw [List.map_nil, findStr, Option.ite_none_right_eq_some, Option.some_inj] at h
    obtain ⟨hempty, rfl⟩ := h
    exact ⟨[], [], rfl, by simp [List.isEmpty_iff.mp hempty, len], by simp [after, hempty]⟩
  | cons c t ih =>
    rw [List.map_cons, findStr] at h
    rw [after, List.map_cons]
    split at h
    next hprefix =>
      refine ⟨(c :: t).take pat.length, _, (List.take_append_drop _ _).symm, ?_, if_pos hprefix⟩
      have htake : ((c :: t).take pat.length).map fold = pat := by
        rw [List.map_take]
        exact (List.prefix_iff_eq_take.mp (List.isPrefixOf_iff_prefix.mp hprefix)).symm
      rw [← len_map hfold, htake, ← Option.some_inj.mp h, Nat.zero_add]
    next hprefix =>
      obtain ⟨m, hm, rfl⟩ := Option.map_eq_some_iff.mp h
      obtain ⟨a, u, rfl, hlen, hu⟩ := ih hm
      exact ⟨c :: a, u, rfl, by rw [len_cons, hlen, hfold, Nat.add_assoc],
        by rw [if_neg hprefix, hu]⟩

/-- The first occurrence is found. -/
theorem findStr_of_after {fold : Char → Char} (hfold : ∀ c, (fold c).utf8Size = c.utf8Size)
    {pat t u : Text} (h : after fold pat t = some u) :
    ∃ a n, t = a ++ u ∧ len a = n + len pat ∧ findStr pat (t.map fold) = some n := by
  have hfound : (findStr pat (t.map fold)).isSome := by
    clear hfold
    induction t with
    | nil => simpa [after, findStr, Option.isSome_ite] using congrArg Option.isSome h
    | cons c t ih =>
      rw [after, List.map_cons] at h
      rw [List.map_cons, findStr]
      split at h
      next hprefix => rw [if_pos hprefix]; rfl
      next hprefix =>
        rw [if_neg hprefix, Option.isSome_map]
        exact ih h
  obtain ⟨n, hn⟩ := Option.isSome_iff_exists.mp hfound
  obtain ⟨a, u', ht, hlen, hu⟩ := after_of_findStr hfold hn
  obtain rfl := Option.some_inj.mp (hu.symm.trans h)
  exact ⟨a, n, ht, hlen, hn⟩

theorem getFrom?_append (p t : Text) : getFrom? (p ++ t) (len p) = some t :=
  getFrom?_eq_some.mpr ⟨p, rfl, rfl⟩

/-- A slice that starts at a place is one of what is ahead. -/
theorem lowerAsciiSlice_append (p t : Text) (n : ℕ) :
    lowerAsciiSlice (p ++ t) (len p) n = lowerAsciiSlice t 0 n := by
  have hzero : getFrom? t 0 = some t := getFrom?_append [] t
  have hslice : get? (p ++ t) (len p) (len p + n) = get? t 0 (0 + n) := by
    simp [get?, getFrom?_append, hzero]
  rw [lowerAsciiSlice, hslice, lowerAsciiSlice]

/-- The slice is a beginning of the text in lower case. -/
theorem lowerAsciiSlice_starts (t : Text) (n : ℕ) :
    lowerAsciiSlice t 0 n <+: toAsciiLowercase t := by
  rw [lowerAsciiSlice]
  cases hslice : get? t 0 (0 + n) with
  | none => exact List.nil_prefix
  | some m =>
    obtain ⟨a, b, ht, hzero, -⟩ := get?_eq_some.mp hslice
    have ha : a = [] := by
      cases a with
      | nil => rfl
      | cons c a =>
        have hpos := c.utf8Size_pos
        rw [len_cons] at hzero
        omega
    rw [ht, ha]
    exact (List.prefix_append m b).map Char.toLower

/-! ## Tags -/

/-- Only letters have another lower case. -/
theorem eq_of_toLower_eq {c x : Char} (hx : x.isAlpha = false) (h : c.toLower = x) : c = x := by
  have hcases : c.toLower = c ∨ c.toLower.isAlpha = true := by
    by_cases hc : c.val < 128
    · exact ascii_forall (P := fun c => c.toLower = c ∨ c.toLower.isAlpha = true)
        (by decide +kernel) c hc
    · exact .inl (toLower_of_le (UInt32.not_lt.mp hc))
  rcases hcases with heq | halpha
  · exact heq.symm.trans h
  · rw [h, hx] at halpha
    cases halpha

theorem exists_cons_of_prefix {x : Char} {pat t : Text} (hx : x.isAlpha = false)
    (h : x :: pat <+: toAsciiLowercase t) : ∃ u, t = x :: u ∧ pat <+: toAsciiLowercase u := by
  cases t with
  | nil => simp [toAsciiLowercase] at h
  | cons c u =>
    rw [toAsciiLowercase, List.map_cons, List.cons_prefix_cons] at h
    exact ⟨u, by rw [eq_of_toLower_eq hx h.1.symm], h.2⟩

theorem tagAt_starts {name t : Text} (h : tagAt name t = true) : name <+: toAsciiLowercase t := by
  rw [tagAt, Bool.and_eq_true] at h
  exact List.isPrefixOf_iff_prefix.mp h.1

/-- A closing tag begins with two characters that are no letters. -/
theorem tagAt_closing {e : Element} {t : Text} (h : tagAt e.closing t = true) :
    ∃ u, t = '<' :: '/' :: u := by
  have hstart : ['<', '/'] <+: toAsciiLowercase t :=
    List.IsPrefix.trans (by cases e <;> decide) (tagAt_starts h)
  obtain ⟨u, rfl, hslash⟩ := exists_cons_of_prefix (by decide) hstart
  obtain ⟨v, rfl, -⟩ := exists_cons_of_prefix (by decide) hslash
  exact ⟨v, rfl⟩

/-- An element begins with its opening tag. -/
theorem elementAt_starts {d : Text} {e : Element} (h : elementAt d = some e) :
    e.opening <+: toAsciiLowercase d := by
  rw [elementAt] at h
  split at h
  next htag => exact Option.some_inj.mp h ▸ tagAt_starts htag
  next =>
    obtain ⟨htag, hstyle⟩ := Option.ite_none_right_eq_some.mp h
    exact Option.some_inj.mp hstyle ▸ tagAt_starts htag

theorem Element.opening_start (e : Element) : ['<', 's'] <+: e.opening := by
  cases e <;> decide

theorem head_of_elementAt {d : Text} {e : Element} (h : elementAt d = some e) :
    ∃ t, d = '<' :: t ∧ ['s'] <+: toAsciiLowercase t :=
  exists_cons_of_prefix (by decide) (e.opening_start.trans (elementAt_starts h))

theorem comment_start {d : Text} (h : "<!--".toList <+: d) : ∃ t, d = '<' :: '!' :: t := by
  have hstart : ['<', '!'] <+: "<!--".toList := by decide
  obtain ⟨t, rfl⟩ := hstart.trans h
  exact ⟨t, rfl⟩

/-- No element is a comment. -/
theorem not_comment_of_elementAt {d : Text} {e : Element} (h : elementAt d = some e) :
    ¬"<!--".toList <+: d := by
  intro hcomment
  obtain ⟨t, rfl⟩ := comment_start hcomment
  obtain ⟨u, heq, hs⟩ := head_of_elementAt h
  obtain rfl := (List.cons.inj heq).2
  revert hs
  simp [toAsciiLowercase]

/-- What is looked for is the end tag of an element. -/
theorem skipUntil_eq_some {lowerTag endTag : Text} (h : skipUntil lowerTag = some endTag) :
    ∃ e : Element, endTag = e.endTag ∧ e.opening <+: lowerTag := by
  rw [skipUntil] at h
  split at h
  next hscript =>
    exact ⟨.script, (Option.some_inj.mp h).symm, List.isPrefixOf_iff_prefix.mp hscript⟩
  next =>
    obtain ⟨hstyle, htag⟩ := Option.ite_none_right_eq_some.mp h
    exact ⟨.style, (Option.some_inj.mp htag).symm, List.isPrefixOf_iff_prefix.mp hstyle⟩

theorem skipUntil_ne_nil (lowerTag : Text) : skipUntil lowerTag ≠ some [] := by
  intro hnil
  obtain ⟨e, he, -⟩ := skipUntil_eq_some hnil
  cases e <;> cases he

/-- The end that is looked for after an opening tag. -/
theorem skipUntil_of_opening {lowerTag : Text} {e : Element} (h : e.opening <+: lowerTag) :
    skipUntil lowerTag = some e.endTag := by
  rw [skipUntil]
  cases e with
  | script => exact if_pos (List.isPrefixOf_iff_prefix.mpr h)
  | style =>
    have hother : ¬"<script".toList <+: lowerTag := fun hscript =>
      absurd (List.prefix_or_prefix_of_prefix hscript h) (by decide)
    rw [if_neg (mt List.isPrefixOf_iff_prefix.mp hother)]
    exact if_pos (List.isPrefixOf_iff_prefix.mpr h)

/-- **An opening tag with a slice is seen.** -/
theorem skipUntil_of_elementAt {d : Text} {e : Element} (h : elementAt d = some e)
    (hslice : (get? d 0 24).isSome) : skipUntil (lowerAsciiSlice d 0 24) = some e.endTag := by
  refine skipUntil_of_opening ?_
  have hshort : len (lowerAsciiSlice d 0 24) = 24 := by
    obtain ⟨m, hm⟩ := Option.isSome_iff_exists.mp hslice
    obtain ⟨a, b, -, -, hlen⟩ := get?_eq_some.mp hm
    rw [lowerAsciiSlice, Nat.zero_add, hm, Option.getD_some, len_toAsciiLowercase]
    omega
  rcases List.prefix_or_prefix_of_prefix (elementAt_starts h) (lowerAsciiSlice_starts d 24) with
    hpre | hpre
  · exact hpre
  · -- the slice has 24 bytes, which the name of a tag has not
    obtain ⟨rest, hrest⟩ := hpre
    have hlen := congrArg len hrest
    rw [len_append, hshort] at hlen
    have : len e.opening ≤ 8 := by cases e <;> decide
    omega

/-- An end tag opens nothing. -/
theorem skipUntil_of_slash {t : Text} (n : ℕ) :
    skipUntil (lowerAsciiSlice ('<' :: '/' :: t) 0 n) = none := by
  refine Option.eq_none_iff_forall_not_mem.mpr fun endTag hend => ?_
  obtain ⟨e, -, hopen⟩ := skipUntil_eq_some hend
  have hstart := e.opening_start.trans (hopen.trans (lowerAsciiSlice_starts _ n))
  revert hstart
  simp [toAsciiLowercase]

/-- The content ends inside the text. -/
theorem contentEnd_suffix {e : Element} {t u : Text} (h : contentEnd e t = some u) : u <:+ t := by
  induction t with
  | nil => cases h
  | cons c t ih =>
    rw [contentEnd] at h
    split at h
    next => exact after_suffix h
    next => exact (ih h).trans (List.suffix_cons c t)

/-! ## Running text -/

/-- What is read next is the end of the text. -/
theorem next_suffix {t u : Text} (h : next t = some u) : u <:+ t := by
  rw [next] at h
  split at h
  next => exact after_suffix h
  next =>
    split at h
    next e _ =>
      obtain ⟨body, hbody, hend⟩ := Option.bind_eq_some_iff.mp h
      exact (contentEnd_suffix hend).trans (after_suffix hbody)
    next =>
      split at h
      next => exact after_suffix h
      next =>
        cases t with
        | nil => cases h
        | cons c t => exact Option.some_inj.mp h ▸ List.suffix_cons c t

theorem Running.suffix {html rest : Text} (h : Running html rest) : rest <:+ html := by
  induction h with
  | refl => exact List.suffix_rfl
  | tail _ hnext ih => exact (next_suffix hnext).trans ih

theorem elementAt_of_ne {c : Char} (hc : c ≠ '<') (t : Text) : elementAt (c :: t) = none := by
  refine Option.eq_none_iff_forall_not_mem.mpr fun e he => ?_
  obtain ⟨u, heq, -⟩ := head_of_elementAt he
  exact hc (List.cons.inj heq).1

/-- A character that starts no tag. -/
theorem next_of_ne {c : Char} (hc : c ≠ '<') (t : Text) : next (c :: t) = some t := by
  have hcomment : ¬"<!--".toList.isPrefixOf (c :: t) = true := by
    rw [List.isPrefixOf_iff_prefix]
    intro hpre
    obtain ⟨u, heq⟩ := comment_start hpre
    exact hc (List.cons.inj heq).1
  have htag : ¬isTag (c :: t) = true := by
    simp [isTag, hc]
  rw [next, if_neg hcomment, elementAt_of_ne hc]
  exact if_neg htag

/-- **A character of running text is in no element.** -/
theorem Running.not_inside {html t : Text} {c : Char} (h : Running html (c :: t)) (hc : c ≠ '<') :
    ¬Inside html (c :: t) := by
  rintro ⟨d, hd, helement, hsuffix, -, hend⟩
  have hne : d ≠ c :: t := by
    rintro rfl
    rw [elementAt_of_ne hc] at helement
    cases helement
  have hunique : Relator.RightUnique fun t u => next t = some u := fun _ _ _ h₁ h₂ =>
    Option.some_inj.mp (h₁.symm.trans h₂)
  -- the two places are on the one way through the page
  rcases Relation.ReflTransGen.total_of_right_unique hunique hd h with hpast | hahead
  · obtain heq | ⟨u, hu, hrest⟩ := hpast.cases_head
    · exact hne heq
    · exact absurd (Running.suffix hrest).length_le (Nat.not_le.mpr (hend u hu))
  · exact hne (List.IsSuffix.eq_of_length_le (Running.suffix hahead) hsuffix.length_le)

/-! ## A turn -/

/-- What a turn does, said of what is ahead before it and after it. -/
inductive Reads (i : ℕ) (rest : Text) : Option Text → List Piece → Option Text → Text → Prop
  | skipped {endTag u : Text} :
    after Char.toLower endTag rest = some u → Reads i rest (some endTag) [] none u
  | comment {u : Text} :
    "<!--".toList <+: rest → after id "-->".toList rest = some u → Reads i rest none [.blank] none u
  | tag {u : Text} :
    rest.head? = some '<' → ¬"<!--".toList <+: rest → after id ['>'] rest = some u →
    Reads i rest none [.blank] (skipUntil (lowerAsciiSlice rest 0 24)) u
  | char {c : Char} {u : Text} :
    rest = c :: u → c ≠ '<' → Reads i rest none [.copied i c] none u

/-- What is read makes the rest shorter. -/
theorem Reads.lt {i : ℕ} {rest u : Text} {skip skip' : Option Text} {pushed : List Piece}
    (h : Reads i rest skip pushed skip' u) (hskip : skip ≠ some []) : u.length < rest.length := by
  cases h with
  | skipped hu => exact after_lt (fun hnil => hskip (congrArg some hnil)) hu
  | comment _ hu => exact after_lt (by decide) hu
  | tag _ _ hu => exact after_lt (by decide) hu
  | char hrest => simp [hrest]

theorem Reads.skip_ne_nil {i : ℕ} {rest u : Text} {skip skip' : Option Text} {pushed : List Piece}
    (h : Reads i rest skip pushed skip' u) : skip' ≠ some [] := by
  cases h with
  | tag => exact skipUntil_ne_nil _
  | _ => exact nofun

theorem findStr_id {pat t : Text} {n : ℕ} (h : findStr pat t = some n) :
    ∃ a u, t = a ++ u ∧ len a = n + len pat ∧ after id pat t = some u :=
  after_of_findStr (fun _ => rfl) (by simpa using h)

/-- **A turn is one of four.** -/
theorem reads_of_turn {p rest : Text} {skip : Option Text} {t : Turn}
    (h : turn (p ++ rest) (len p) rest skip = some t) :
    ∃ a u, rest = a ++ u ∧ t.i = len (p ++ a) ∧ Reads (len p) rest skip t.pushed t.skipUntil u := by
  cases skip with
  | some endTag =>
    obtain ⟨n, hn, rfl⟩ := Option.map_eq_some_iff.mp h
    obtain ⟨a, u, hrest, hlen, hu⟩ := after_of_findStr utf8Size_toLower hn
    exact ⟨a, u, hrest, by rw [len_append, hlen], .skipped hu⟩
  | none =>
    rw [turn.eq_def] at h
    dsimp only at h
    split at h
    next hcomment =>
      obtain ⟨n, hn, rfl⟩ := Option.map_eq_some_iff.mp h
      obtain ⟨a, u, hrest, hlen, hu⟩ := findStr_id hn
      exact ⟨a, u, hrest, by rw [len_append, hlen]; rfl,
        .comment (List.isPrefixOf_iff_prefix.mp hcomment) hu⟩
    next hcomment =>
      split at h
      next htag =>
        obtain ⟨n, hn, rfl⟩ := Option.map_eq_some_iff.mp h
        rw [findChar_eq_findStr] at hn
        obtain ⟨a, u, hrest, hlen, hu⟩ := findStr_id hn
        obtain ⟨v, hv⟩ := List.isPrefixOf_iff_prefix.mp htag
        refine ⟨a, u, hrest, by rw [len_append, hlen]; rfl, ?_⟩
        dsimp only
        rw [lowerAsciiSlice_append]
        exact .tag (hv ▸ rfl) (mt List.isPrefixOf_iff_prefix.mpr hcomment) hu
      next htag =>
        cases rest with
        | nil => cases h
        | cons c u =>
          obtain rfl := Option.some_inj.mp h
          refine ⟨[c], u, rfl, by simp [len], .char rfl ?_⟩
          rintro rfl
          exact htag (List.isPrefixOf_iff_prefix.mpr ⟨u, rfl⟩)

/-! ## A run -/

/-- The scanner is where the page goes on: in running text, before the end tag of an element with
nothing in it, or in what is skipped. -/
def InStep (html : Text) : Option Text → Text → Prop
  | none, rest => Running html rest ∨
    (∃ t, rest = '<' :: '/' :: t) ∧ ∀ u, after id ['>'] rest = some u → Running html u
  | some endTag, rest => ∀ u, after Char.toLower endTag rest = some u → Running html u

/-- Nothing is copied that is inside an element. -/
def Clean (html : Text) (out : List Piece) : Prop :=
  ∀ offset c, .copied offset c ∈ out → ¬InsideAt html offset

theorem Running.next {html t u : Text} (h : Running html t) (hu : next t = some u) :
    Running html u :=
  Relation.ReflTransGen.tail h hu

/-- At an opening tag the scanner goes on to the end tag, or to what is skipped. -/
theorem InStep.opening {html d u : Text} {e : Element} (hmeant : ReadAsMeant html)
    (h : Running html d) (he : elementAt d = some e) (hu : after id ['>'] d = some u) :
    InStep html (skipUntil (lowerAsciiSlice d 0 24)) u := by
  by_cases hslice : (get? d 0 24).isSome
  · rw [skipUntil_of_elementAt he hslice]
    exact fun v hv => hmeant.closing d e u v h he hu hv
  · have hempty : lowerAsciiSlice d 0 24 = [] := by
      rw [lowerAsciiSlice, Nat.zero_add, Option.not_isSome_iff_eq_none.mp hslice]
      rfl
    have hclosing := (hmeant.opening d e h he).resolve_left hslice u hu
    have hcomment := mt List.isPrefixOf_iff_prefix.mp (not_comment_of_elementAt he)
    rw [hempty]
    refine .inr ⟨tagAt_closing hclosing, fun v hv => h.next ?_⟩
    -- the end tag of the element is right here
    obtain ⟨t, rfl⟩ := tagAt_closing hclosing
    rw [Html.next, if_neg hcomment, he]
    dsimp only
    rw [hu, Option.bind_some, contentEnd, if_pos hclosing, hv]

/-- The same at a `<` that opens no element. -/
theorem InStep.other {html d u : Text} (hmeant : ReadAsMeant html) (h : Running html d)
    (hhead : d.head? = some '<') (hcomment : ¬"<!--".toList <+: d) (hnone : elementAt d = none)
    (hu : after id ['>'] d = some u) : InStep html (skipUntil (lowerAsciiSlice d 0 24)) u := by
  cases hskip : skipUntil (lowerAsciiSlice d 0 24) with
  | some endTag => exact fun v hv => hmeant.name d endTag u v h hnone hskip hu hv
  | none =>
    refine .inl ?_
    by_cases htag : isTag d = true
    · refine h.next ?_
      rw [Html.next, if_neg (mt List.isPrefixOf_iff_prefix.mp hcomment), hnone]
      exact (if_pos htag).trans hu
    · exact hmeant.stray d u h hhead (Bool.eq_false_iff.mpr htag) hu

/-- **A turn keeps the scanner in step.** -/
theorem InStep.turn {html rest u : Text} {i : ℕ} {skip skip' : Option Text} {pushed : List Piece}
    (hmeant : ReadAsMeant html) (h : InStep html skip rest)
    (hreads : Reads i rest skip pushed skip' u) : InStep html skip' u := by
  cases hreads with
  | skipped hu => exact .inl (h u hu)
  | comment hcomment hu =>
    rcases h with hrun | ⟨⟨t, rfl⟩, -⟩
    · refine .inl (hrun.next ?_)
      rw [Html.next, if_pos (List.isPrefixOf_iff_prefix.mpr hcomment), hu]
    · obtain ⟨v, hv⟩ := comment_start hcomment
      cases hv
  | tag hhead hcomment hu =>
    rcases h with hrun | ⟨⟨t, rfl⟩, hend⟩
    · cases helement : elementAt rest with
      | some e => exact .opening hmeant hrun helement hu
      | none => exact .other hmeant hrun hhead hcomment helement hu
    · rw [skipUntil_of_slash]
      exact .inl (hend u hu)
  | char hrest hc =>
    subst hrest
    rcases h with hrun | ⟨⟨t, heq⟩, -⟩
    · exact .inl (hrun.next (next_of_ne hc u))
    · exact absurd (List.cons.inj heq).1 hc

/-- **What a turn copies is in no element.** -/
theorem InStep.clean {html rest u : Text} {i : ℕ} {skip skip' : Option Text} {pushed : List Piece}
    (h : InStep html skip rest) (hat : getFrom? html i = some rest)
    (hreads : Reads i rest skip pushed skip' u) : Clean html pushed := by
  cases hreads with
  | char hrest hc =>
    subst hrest
    rintro offset x hx ⟨rest, hrest, hinside⟩
    obtain ⟨rfl, rfl⟩ := Piece.copied.inj (List.mem_singleton.mp hx)
    obtain rfl := Option.some_inj.mp (hat.symm.trans hrest)
    rcases h with hrun | ⟨⟨t, heq⟩, -⟩
    · exact hrun.not_inside hc hinside
    · exact hc (List.cons.inj heq).1
  | _ => simp [Clean]

theorem Clean.append {html : Text} {out pushed : List Piece} (h : Clean html out)
    (hpushed : Clean html pushed) : Clean html (out ++ pushed) := fun offset c hmem =>
  (List.mem_append.mp hmem).elim (h offset c) (hpushed offset c)

/-- A turn of the loop. -/
theorem scanFrom_succ {p rest : Text} (hrest : rest ≠ []) (fuel : ℕ) (out : List Piece)
    (skip : Option Text) :
    scanFrom (p ++ rest) (fuel + 1) (len p) out skip =
      match turn (p ++ rest) (len p) rest skip with
      | none => some ⟨out, false⟩
      | some t => scanFrom (p ++ rest) fuel t.i (out ++ t.pushed) t.skipUntil := by
  have hlt : len p < len (p ++ rest) := by
    obtain ⟨c, rest, rfl⟩ := List.exists_cons_of_ne_nil hrest
    have := c.utf8Size_pos
    rw [len_append, len_cons]
    omega
  rw [scanFrom, if_pos hlt, getFrom?_append]

/-- **A run.** It comes to an end, at the border of a character, and adds to what it was given.
Where the page is read as it is meant nothing that it adds is inside an element. -/
theorem scanFrom_run {html p rest : Text} (hhtml : html = p ++ rest) (out : List Piece)
    {skip : Option Text} (hskip : skip ≠ some []) :
    ∃ more, (∀ fuel, rest.length < fuel →
        scanFrom html fuel (len p) out skip = some ⟨out ++ more, false⟩) ∧
      (ReadAsMeant html → InStep html skip rest → Clean html more) := by
  induction hn : rest.length using Nat.strong_induction_on generalizing p rest out skip with
  | h n ih =>
    subst hn
    by_cases hnil : rest = []
    · subst hnil
      refine ⟨[], fun fuel hfuel => ?_, fun _ _ => by simp [Clean]⟩
      obtain ⟨fuel, rfl⟩ := Nat.exists_eq_add_one_of_ne_zero (Nat.ne_of_gt hfuel)
      rw [scanFrom, hhtml, List.append_nil, if_neg (Nat.lt_irrefl _), List.append_nil]
    · subst hhtml
      cases hturn : turn (p ++ rest) (len p) rest skip with
      | none =>
        refine ⟨[], fun fuel hfuel => ?_, fun _ _ => by simp [Clean]⟩
        obtain ⟨fuel, rfl⟩ := Nat.exists_eq_add_one_of_ne_zero (Nat.ne_zero_of_lt hfuel)
        rw [scanFrom_succ hnil, hturn, List.append_nil]
      | some t =>
        obtain ⟨a, u, rfl, hi, hreads⟩ := reads_of_turn hturn
        obtain ⟨more, hmore, hclean⟩ := ih u.length (hreads.lt hskip)
          (List.append_assoc p a u).symm (out ++ t.pushed) hreads.skip_ne_nil rfl
        refine ⟨t.pushed ++ more, fun fuel hfuel => ?_, fun hmeant hstep => ?_⟩
        · obtain ⟨fuel, rfl⟩ := Nat.exists_eq_add_one_of_ne_zero (Nat.ne_zero_of_lt hfuel)
          have hlt := hreads.lt hskip
          rw [scanFrom_succ hnil, hturn]
          dsimp only
          rw [hi, hmore fuel (by omega), List.append_assoc]
        · exact (hstep.clean (getFrom?_append p _) hreads).append
            (hclean hmeant (hstep.turn hmeant hreads))

/-! ## An element that is missed -/

/-- What the scanner takes as it is meant: a character, a comment, or a tag that opens nothing. -/
def Plain (t u : Text) : Prop :=
  next t = some u ∧ elementAt t = none ∧ skipUntil (lowerAsciiSlice t 0 24) = none ∧
    (t.head? = some '<' → isTag t = true)

/-- The first element of the page has an opening tag with no slice, and starts with a character. -/
def Missed (html : Text) : Prop :=
  ∃ d e c t, Relation.ReflTransGen Plain html d ∧ elementAt d = some e ∧ get? d 0 24 = none ∧
    after id ['>'] d = some (c :: t) ∧ c ≠ '<'

theorem Reads.plain {i : ℕ} {rest u : Text} (hskip : skipUntil (lowerAsciiSlice rest 0 24) = none)
    (hhead : rest.head? = some '<') (hcomment : ¬"<!--".toList <+: rest)
    (hu : after id ['>'] rest = some u) : Reads i rest none [.blank] none u := by
  have hreads : Reads i rest none [.blank] _ u := .tag hhead hcomment hu
  rwa [hskip] at hreads

/-- A plain part is read. -/
theorem Plain.reads {t u : Text} (h : Plain t u) (i : ℕ) :
    ∃ pushed, Reads i t none pushed none u := by
  obtain ⟨hnext, hnone, hskip, htag⟩ := h
  cases t with
  | nil =>
    have hnil : next [] = none := by decide
    rw [hnil] at hnext
    cases hnext
  | cons c v =>
    by_cases hc : c = '<'
    · subst hc
      rw [next] at hnext
      split at hnext
      next hcomment => exact ⟨_, .comment (List.isPrefixOf_iff_prefix.mp hcomment) hnext⟩
      next hcomment =>
        rw [hnone] at hnext
        dsimp only at hnext
        rw [if_pos (htag rfl)] at hnext
        exact ⟨_, .plain hskip rfl (mt List.isPrefixOf_iff_prefix.mpr hcomment) hnext⟩
    · rw [next_of_ne hc] at hnext
      exact ⟨_, .char (congrArg (c :: ·) (Option.some_inj.mp hnext)) hc⟩

/-- A turn of the loop does what was read. -/
theorem turn_of_reads {p rest u : Text} {skip skip' : Option Text} {pushed : List Piece}
    (h : Reads (len p) rest skip pushed skip' u) :
    ∃ a, rest = a ++ u ∧
      turn (p ++ rest) (len p) rest skip = some ⟨len (p ++ a), pushed, skip'⟩ := by
  have hid : ∀ {pat u : Text}, after id pat rest = some u →
      ∃ a n, rest = a ++ u ∧ len a = n + len pat ∧ findStr pat rest = some n := fun hu => by
    simpa using findStr_of_after (fun _ => rfl) hu
  cases h with
  | @skipped endTag _ hu =>
    obtain ⟨a, n, hrest, hlen, hn⟩ := findStr_of_after utf8Size_toLower hu
    refine ⟨a, hrest, ?_⟩
    rw [turn, toAsciiLowercase, hn, len_append, hlen]
    rfl
  | comment hcomment hu =>
    obtain ⟨a, n, hrest, hlen, hn⟩ := hid hu
    refine ⟨a, hrest, ?_⟩
    rw [turn.eq_def]
    dsimp only
    rw [if_pos (List.isPrefixOf_iff_prefix.mpr hcomment), hn, len_append, hlen]
    rfl
  | tag hhead hcomment hu =>
    obtain ⟨a, n, hrest, hlen, hn⟩ := hid hu
    refine ⟨a, hrest, ?_⟩
    obtain ⟨v, hv⟩ := List.head?_eq_some_iff.mp hhead
    have htag : "<".toList <+: rest := hv ▸ ⟨v, rfl⟩
    rw [turn.eq_def]
    dsimp only
    rw [if_neg (mt List.isPrefixOf_iff_prefix.mp hcomment),
      if_pos (List.isPrefixOf_iff_prefix.mpr htag), findChar_eq_findStr, hn,
      lowerAsciiSlice_append, len_append, hlen]
    rfl
  | @char c _ hrest hc =>
    subst hrest
    have hcomment : ¬"<!--".toList <+: c :: u := fun hpre => by
      obtain ⟨v, heq⟩ := comment_start hpre
      exact hc (List.cons.inj heq).1
    have htag : ¬"<".toList <+: c :: u := by
      rintro ⟨v, heq⟩
      exact hc (List.cons.inj heq).1.symm
    refine ⟨[c], rfl, ?_⟩
    rw [turn.eq_def]
    dsimp only
    rw [if_neg (mt List.isPrefixOf_iff_prefix.mp hcomment),
      if_neg (mt List.isPrefixOf_iff_prefix.mp htag), len_append]
    simp [len]

/-- The loop from one turn to the next. -/
theorem scanFrom_reads {html p rest u : Text} {skip skip' : Option Text} {pushed : List Piece}
    {fuel : ℕ} (hhtml : html = p ++ rest) (hreads : Reads (len p) rest skip pushed skip' u)
    (hskip : skip ≠ some []) (out : List Piece) (hfuel : rest.length < fuel) :
    ∃ p' fuel', html = p' ++ u ∧ u.length < fuel' ∧ scanFrom html fuel (len p) out skip =
      scanFrom html fuel' (len p') (out ++ pushed) skip' := by
  obtain ⟨a, rfl, hturn⟩ := turn_of_reads hreads
  obtain ⟨fuel, rfl⟩ := Nat.exists_eq_add_one_of_ne_zero (Nat.ne_zero_of_lt hfuel)
  have hlt := hreads.lt hskip
  have hne : a ++ u ≠ [] := List.ne_nil_of_length_pos (Nat.zero_lt_of_lt hlt)
  refine ⟨p ++ a, fuel, by rw [hhtml, List.append_assoc], by omega, ?_⟩
  rw [hhtml, scanFrom_succ hne, hturn]

/-- The loop comes to where plain parts end. -/
theorem scan_plain {html d : Text} (h : Relation.ReflTransGen Plain html d) {fuel : ℕ}
    (hfuel : html.length < fuel) :
    ∃ p fuel' out, html = p ++ d ∧ d.length < fuel' ∧
      scan html fuel = scanFrom html fuel' (len p) out none := by
  induction h with
  | refl => exact ⟨[], fuel, [], rfl, hfuel, rfl⟩
  | tail _ hplain ih =>
    obtain ⟨p, fuel', out, hhtml, hlt, hscan⟩ := ih
    obtain ⟨pushed, hreads⟩ := hplain.reads (len p)
    obtain ⟨p', fuel'', hhtml', hlt', hturn⟩ := scanFrom_reads hhtml hreads nofun out hlt
    exact ⟨p', fuel'', out ++ pushed, hhtml', hlt', hscan.trans hturn⟩

/-- The first character of what is in an element. -/
theorem inside_of_missed {html d t : Text} {e : Element} {c : Char} (h : Running html d)
    (he : elementAt d = some e) (hbody : after id ['>'] d = some (c :: t)) (hc : c ≠ '<') :
    Inside html (c :: t) := by
  refine ⟨d, h, by rw [he]; rfl, after_suffix hbody, List.cons_ne_nil c t, fun u hu => ?_⟩
  have hclosing : ¬tagAt e.closing (c :: t) = true := fun htag => by
    obtain ⟨v, heq⟩ := tagAt_closing htag
    exact hc (List.cons.inj heq).1
  rw [next, if_neg (mt List.isPrefixOf_iff_prefix.mp (not_comment_of_elementAt he)), he] at hu
  dsimp only at hu
  rw [hbody, Option.bind_some, contentEnd, if_neg hclosing] at hu
  exact Nat.lt_succ_of_le (contentEnd_suffix hu).length_le

/-- **What is in the element that is missed is copied.** -/
theorem Missed.not_clean {html : Text} (h : Missed html) {out : List Piece}
    (hout : ∀ fuel, html.length < fuel → scan html fuel = some ⟨out, false⟩) : ¬Clean html out := by
  obtain ⟨d, e, c, t, hplain, he, hslice, hbody, hc⟩ := h
  obtain ⟨v, hv, -⟩ := head_of_elementAt he
  have hskip : skipUntil (lowerAsciiSlice d 0 24) = none := by
    rw [lowerAsciiSlice, Nat.zero_add, hslice]
    rfl
  obtain ⟨p, fuel, gathered, hhtml, hfuel, hscan⟩ := scan_plain hplain (Nat.lt_succ_self _)
  have htag : Reads (len p) d none [.blank] none (c :: t) :=
    .plain hskip (hv ▸ rfl) (not_comment_of_elementAt he) hbody
  obtain ⟨p', fuel', hhtml', hfuel', htagged⟩ := scanFrom_reads hhtml htag nofun gathered hfuel
  have hchar : Reads (len p') (c :: t) none [.copied (len p') c] none t := .char rfl hc
  obtain ⟨p'', fuel'', hhtml'', hfuel'', hcopied⟩ :=
    scanFrom_reads hhtml' hchar nofun (gathered ++ [.blank]) hfuel'
  obtain ⟨more, hmore, -⟩ :=
    scanFrom_run hhtml'' (gathered ++ [.blank] ++ [.copied (len p') c]) hchar.skip_ne_nil
  have hrun := hout _ (Nat.lt_succ_self _)
  rw [hscan, htagged, hcopied, hmore fuel'' hfuel'', Option.some_inj, Scan.mk.injEq] at hrun
  have hrunning : Running html d :=
    Relation.ReflTransGen.mono (fun _ _ hstep => hstep.1) _ _ hplain
  intro hclean
  refine hclean (len p') c ?_ ⟨c :: t, ?_, inside_of_missed hrunning he hbody hc⟩
  · rw [← hrun.1]
    simp
  · rw [hhtml', getFrom?_append]

/-! ## The text -/

/-- **The text of a page.** The scanner comes to the end of every page and never to an offset within
a character. What it gathers has nothing of an element in it where the page is read as it is meant,
and has where the first element is missed. -/
theorem htmlToText_clean (decodeHtml : Text → Option Text) (html : Text) :
    ∃ out, (∀ fuel, html.length < fuel → scan html fuel = some ⟨out, false⟩ ∧
        htmlToText decodeHtml html fuel = some (finish decodeHtml out)) ∧
      (ReadAsMeant html → Clean html out) ∧ (Missed html → ¬Clean html out) := by
  have hskip : (none : Option Text) ≠ some [] := nofun
  obtain ⟨out, hrun, hclean⟩ := scanFrom_run (p := []) rfl [] hskip
  have hscan : ∀ fuel, html.length < fuel → scan html fuel = some ⟨out, false⟩ := hrun
  refine ⟨out, fun fuel hfuel => ⟨hscan fuel hfuel, ?_⟩,
    fun hmeant => hclean hmeant (.inl .refl), fun hmissed => hmissed.not_clean hscan⟩
  rw [htmlToText, hscan fuel hfuel]
  rfl

/-- A page with an element and text after it. -/
def scriptPage : Text := "<script>f()</script>text".toList

/-- What the reader comes to on a page with a script. -/
theorem running_scriptPage {d : Text} (h : Running scriptPage d) :
    d = scriptPage ∨ d <:+ "text".toList := by
  induction h with
  | refl => exact .inl rfl
  | @tail t u _ hnext ih =>
    rcases ih with rfl | hsuffix
    · have htext : next scriptPage = some "text".toList := by decide
      exact .inr (Option.some_inj.mp (hnext.symm.trans htext) ▸ List.suffix_rfl)
    · exact .inr ((next_suffix hnext).trans hsuffix)

/-- That page is read as it is meant. -/
theorem readAsMeant_scriptPage : ReadAsMeant scriptPage := by
  have htext : ∀ {d : Text}, d <:+ "text".toList → '<' ∉ d := fun hsuffix hmem =>
    absurd (hsuffix.subset hmem) (by decide)
  have helement : ∀ {d e}, Running scriptPage d → elementAt d = some e → d = scriptPage :=
    fun hd he => (running_scriptPage hd).resolve_right fun hsuffix => by
      obtain ⟨t, rfl, -⟩ := head_of_elementAt he
      exact htext hsuffix List.mem_cons_self
  refine ⟨fun d e hd he => .inl ?_, fun d e body rest hd he hbody hrest => ?_,
    fun d endTag body rest hd hnone hskip _ _ => ?_, fun d body hd hhead htag _ => ?_⟩
  · rw [helement hd he]
    decide
  · obtain rfl := helement hd he
    obtain rfl : e = .script := Option.some_inj.mp (he.symm.trans (by decide))
    obtain rfl : body = "f()</script>text".toList :=
      Option.some_inj.mp (hbody.symm.trans (by decide))
    obtain rfl : rest = "text".toList := Option.some_inj.mp (hrest.symm.trans (by decide))
    exact Running.next .refl (by decide)
  · rcases running_scriptPage hd with rfl | hsuffix
    · exact absurd hnone (by decide)
    · obtain ⟨e, -, hopen⟩ := skipUntil_eq_some hskip
      obtain ⟨t, rfl, -⟩ := exists_cons_of_prefix (by decide)
        (e.opening_start.trans (hopen.trans (lowerAsciiSlice_starts d 24)))
      exact absurd List.mem_cons_self (htext hsuffix)
  · rcases running_scriptPage hd with rfl | hsuffix
    · exact absurd htag (by decide)
    · exact absurd (List.mem_of_head? hhead) (htext hsuffix)

theorem htmlToText_clean_scriptPage :
    ∃ out, scan scriptPage 30 = some ⟨out, false⟩ ∧ Clean scriptPage out := by
  obtain ⟨out, hrun, hclean, -⟩ := htmlToText_clean (fun _ => none) scriptPage
  exact ⟨out, (hrun 30 (by decide)).1, hclean readAsMeant_scriptPage⟩

/-- There is no slice in the last bytes of a page. -/
theorem htmlToText_leaks :
    ¬∀ (decodeHtml : Text → Option Text) (html : Text),
      ∃ out, (∀ fuel, html.length < fuel → scan html fuel = some ⟨out, false⟩ ∧
        htmlToText decodeHtml html fuel = some (finish decodeHtml out)) ∧ Clean html out := by
  intro hall
  obtain ⟨out, hrun, hclean⟩ := hall (fun _ => none) "<script>x".toList
  have hscan : scan "<script>x".toList 10 = some ⟨[.blank, .copied 8 'x'], false⟩ := by decide
  have hout := (hrun 10 (by decide)).1
  rw [hscan, Option.some_inj, Scan.mk.injEq] at hout
  have hend : next "<script>x".toList = none := by decide
  refine hclean 8 'x' (hout.1 ▸ by decide)
    ⟨['x'], by decide, _, .refl, by decide, ?_, by decide, ?_⟩
  · exact ⟨"<script>".toList, by decide⟩
  · intro u hu
    rw [hend] at hu
    cases hu

end SynapseMemory.Html
