import SynapseMemory.Outcome
import SynapseMemory.TemporalQuery
import SynapseMemory.TextFields

/-!
# Parts of a query

`decompose` cuts a query at a connective, in two. The connective is looked for in the query in lower
case, and the query is cut at the offset that it has there. Where the lower case of what is before
it has another number of bytes this is another offset: the cut is a panic if it is within a
character or beyond the end, and it is in the wrong place if not.

Where the two numbers are the same the parts are what is before and after the connective
(`decompose_safe`). It is found where it is written, in either case: no character beyond ASCII has a
lower case that a connective could be made of (`findStr_lowercaseFrom`).
-/

namespace SynapseMemory.Decompose

open Text Temporal

/-! ## The code -/

variable {ε : Type}

/-- The words that a query is split at, tried in this order. -/
def cues : List Text :=
  [" after ", " before ", " and then ", " while ", " vs ", " versus "].map String.toList

/-- `&text[..stop]` -/
def sliceTo (t : Text) (stop : ℕ) : Outcome ε Text :=
  match splitAt? t stop with
  | some p => .ok p.1
  | none => .panic

/-- `&text[start..]` -/
def sliceFrom (t : Text) (start : ℕ) : Outcome ε Text :=
  match splitAt? t start with
  | some p => .ok p.2
  | none => .panic

/-- The query is split at the first of the cues that it has. -/
def decomposeAt (query lower : Text) : List Text → Outcome ε (List Text)
  | [] => .ok [query]
  | cue :: rest =>
    match findStr cue lower with
    | none => decomposeAt query lower rest
    | some pos => do
      let cl := len cue
      let a ← sliceTo query pos
      let b ← sliceFrom query (pos + cl)
      if trim a ≠ [] ∧ trim b ≠ [] then .ok [trim a, trim b] else decomposeAt query lower rest

/-- `decompose` -/
def decompose [Lowercase] (query : Text) : Outcome ε (List Text) :=
  decomposeAt query (toLowercase query) cues

/-! ## What it is to do -/

/-- The text is one of the cues, but for the case of its letters. -/
def isConnective (k : Text) : Prop := toAsciiLowercase k ∈ cues

/-- Nothing, or a connective at the end; white space may follow. -/
def EndsAtBorder (l : Text) : Prop :=
  ∃ l' w, l = l' ++ w ∧ trim w = [] ∧ (l' = [] ∨ ∃ l'' k, l' = l'' ++ k ∧ isConnective k)

/-- Nothing, or a connective at the front; white space may be before it. -/
def StartsAtBorder (r : Text) : Prop :=
  ∃ w r', r = w ++ r' ∧ trim w = [] ∧ (r' = [] ∨ ∃ k r'', r' = k ++ r'' ∧ isConnective k)

/-- A part of the query between connectives, trimmed. -/
def IsPart (query s : Text) : Prop :=
  trim s = s ∧ ∃ l r, query = l ++ (s ++ r) ∧ EndsAtBorder l ∧ StartsAtBorder r

/-- The query is decomposed, and into parts of it. -/
def Safe [Lowercase] (query : Text) : Prop :=
  ∃ subs, (decompose query : Outcome Unit (List Text)) = .ok subs ∧ ∀ s ∈ subs, IsPart query s

/-! ## Where a connective is found -/

/-- What the Unicode tables say of lower case beyond ASCII: it has no blank, and it is not made of
ASCII characters, but for the `k` of the Kelvin sign. -/
class UnicodeLowercase extends Lowercase where
  blank : ∀ before after c, 128 ≤ c.val → ' ' ∉ lower before after c
  foreign : ∀ before after c, 128 ≤ c.val →
    ∃ x ∈ lower before after c, 128 ≤ x.val ∨ x = 'k'

/-- Of the characters beyond ASCII only `Ⱥ` has a lower case of its own, which is a byte longer. -/
@[reducible] def UnicodeLowercase.stroke : UnicodeLowercase where
  lower _ _ c := if c.val < 128 then [c.toLower] else if c = 'Ⱥ' then ['ⱥ'] else [c]
  ascii _ _ _ h := if_pos h
  other _ _ c h := by
    rw [if_neg (UInt32.not_lt.mpr h)]
    split
    next =>
      have hstroke : isTokenChar 'ⱥ' = false := isTokenChar_of_le (by decide)
      simpa using hstroke
    next => simpa using isTokenChar_of_le h
  blank _ _ c h := by
    rw [if_neg (UInt32.not_lt.mpr h)]
    split
    next => decide
    next =>
      rw [List.mem_singleton]
      rintro rfl
      revert h
      decide
  foreign _ _ c h := by
    rw [if_neg (UInt32.not_lt.mpr h)]
    split
    next => exact ⟨_, List.mem_singleton_self _, .inl (by decide)⟩
    next => exact ⟨c, List.mem_singleton_self _, .inl h⟩

/-- The lower case of a part of a string. -/
def lowercaseIn [Lowercase] (before : Text) : Text → Text → Text
  | [], _ => []
  | c :: t, after =>
    Lowercase.lower before (t ++ after) c ++ lowercaseIn (before ++ [c]) t after

/-- A connective at the front of what is left. -/
structure CueSuffix (cue : Text) : Prop where
  last : ∀ x ∈ cue.getLast?, x = ' '
  ascii : ∀ x ∈ cue, x.val < 128 ∧ x ≠ 'k'

/-- A suffix of a cue loses its first character. -/
theorem CueSuffix.tail {x : Char} {cue : Text} (h : CueSuffix (x :: cue)) : CueSuffix cue := by
  refine ⟨fun y hy => h.last y ?_, fun y hy => h.ascii y (List.mem_cons_of_mem x hy)⟩
  rw [List.getLast?_cons, Option.mem_def.mp hy]
  rfl

/-- A suffix of a cue has a blank. -/
theorem CueSuffix.blank_mem {x : Char} {cue : Text} (h : CueSuffix (x :: cue)) :
    ' ' ∈ x :: cue := by
  have hlast : (x :: cue).getLast (List.cons_ne_nil x cue) ∈ x :: cue := List.getLast_mem _
  rwa [h.last _ (List.getLast?_eq_some_getLast _)] at hlast

/-- The lower case of a character is no part of a connective. -/
theorem not_prefix_lower [UnicodeLowercase] {before after t : Text} {c x : Char} {cue : Text}
    (h : CueSuffix (x :: cue)) (hc : 128 ≤ c.val) :
    ¬x :: cue <+: Lowercase.lower before after c ++ t := by
  intro hprefix
  rcases List.prefix_or_prefix_of_prefix hprefix (List.prefix_append _ t) with hle | hle
  · exact UnicodeLowercase.blank before after c hc (hle.subset h.blank_mem)
  · obtain ⟨y, hy, hforeign⟩ := UnicodeLowercase.foreign before after c hc
    obtain ⟨hascii, hk⟩ := h.ascii y (hle.subset hy)
    rcases hforeign with hlarge | hkelvin
    · exact absurd hascii (UInt32.not_lt.mpr hlarge)
    · exact hk hkelvin

/-- A connective is at the front of the query just where it is at the front of its lower case. -/
theorem prefix_lowercaseFrom [UnicodeLowercase] {cue : Text} (h : CueSuffix cue) (before t : Text) :
    cue <+: lowercaseFrom before t ↔ cue <+: toAsciiLowercase t := by
  induction t generalizing cue before with
  | nil => rfl
  | cons c t ih =>
    cases cue with
    | nil => simp
    | cons x cue =>
      rw [lowercaseFrom, toAsciiLowercase, List.map_cons, ← toAsciiLowercase, List.cons_prefix_cons]
      by_cases hc : c.val < 128
      · rw [Lowercase.ascii _ _ _ hc, List.singleton_append, List.cons_prefix_cons, ih h.tail]
      · have hle : 128 ≤ c.val := UInt32.not_lt.mp hc
        refine iff_of_false (not_prefix_lower h hle) ?_
        rintro ⟨rfl, -⟩
        refine hc ?_
        rw [← toLower_of_le hle]
        exact (h.ascii _ List.mem_cons_self).1

/-- A pattern at the beginning is found there. -/
theorem findStr_eq_zero {pat t : Text} (h : pat <+: t) : findStr pat t = some 0 := by
  cases t with
  | nil => simp [List.prefix_nil.mp h, findStr]
  | cons c t => rw [findStr, if_pos (List.isPrefixOf_iff_prefix.mpr h)]

/-- The first such connective of the query, in either case: what is before it, and what is after
it. -/
def firstCue (cue : Text) : Text → Option (Text × Text)
  | [] => none
  | c :: t =>
    if cue.isPrefixOf (toAsciiLowercase (c :: t)) then some ([], (c :: t).drop cue.length)
    else (firstCue cue t).map fun p => (c :: p.1, p.2)

/-- Where a cue is found, the text has its letters. -/
theorem firstCue_eq_some {cue t l r : Text} (h : firstCue cue t = some (l, r)) :
    ∃ k, t = l ++ (k ++ r) ∧ toAsciiLowercase k = cue := by
  induction t generalizing l with
  | nil => cases h
  | cons c t ih =>
    rw [firstCue] at h
    split at h
    next hprefix =>
      obtain ⟨rfl, rfl⟩ := Prod.mk.inj (Option.some_inj.mp h)
      refine ⟨(c :: t).take cue.length, (List.take_append_drop _ _).symm, ?_⟩
      rw [toAsciiLowercase, List.map_take]
      exact (List.prefix_iff_eq_take.mp (List.isPrefixOf_iff_prefix.mp hprefix)).symm
    next =>
      obtain ⟨⟨l', r'⟩, hfirst, heq⟩ := Option.map_eq_some_iff.mp h
      obtain ⟨rfl, rfl⟩ := Prod.mk.inj heq
      obtain ⟨k, ht, hk⟩ := ih hfirst
      exact ⟨k, congrArg (c :: ·) ht, hk⟩

/-- **Where a connective is found**: after as many bytes as the lower case of what is before it
has. -/
theorem findStr_lowercaseFrom [UnicodeLowercase] {w : Text} (h : CueSuffix (' ' :: w))
    (before t : Text) :
    findStr (' ' :: w) (lowercaseFrom before t) =
      (firstCue (' ' :: w) t).map fun p => len (lowercaseIn before p.1 (t.drop p.1.length)) := by
  induction t generalizing before with
  | nil => rfl
  | cons c t ih =>
    by_cases hprefix : ' ' :: w <+: toAsciiLowercase (c :: t)
    · rw [findStr_eq_zero ((prefix_lowercaseFrom h before _).mpr hprefix), firstCue,
        if_pos (List.isPrefixOf_iff_prefix.mpr hprefix)]
      rfl
    · have hmap : findStr (' ' :: w) (lowercaseFrom before (c :: t)) =
          (findStr (' ' :: w) (lowercaseFrom (before ++ [c]) t)).map fun n =>
            len (Lowercase.lower before t c) + n := by
        by_cases hc : c.val < 128
        · have hlower := (prefix_lowercaseFrom h before (c :: t)).not.mpr hprefix
          rw [lowercaseFrom, Lowercase.ascii _ _ _ hc, List.singleton_append] at hlower ⊢
          rw [findStr, if_neg (mt List.isPrefixOf_iff_prefix.mp hlower)]
          simp [len]
        · exact findStr_append _ (UnicodeLowercase.blank _ _ _ (UInt32.not_lt.mp hc))
      rw [hmap, ih, firstCue, if_neg (mt List.isPrefixOf_iff_prefix.mp hprefix), Option.map_map,
        Option.map_map]
      refine Option.map_congr fun p hp => ?_
      obtain ⟨k, ht, -⟩ := firstCue_eq_some hp
      have hback : p.1 ++ t.drop p.1.length = t := by
        rw [ht, List.drop_left]
      simp [lowercaseIn, len_append, hback]

/-! ## The parts -/

/-- No cut is out of place: what is before the first connective of a kind has as many bytes in lower
case as it has. This matters up to the kind at which the query is cut; if it is cut at none, there
is to be nothing to trim off of it. -/
def Steady [Lowercase] (query : Text) : List Text → Prop
  | [] => trim query = query
  | cue :: rest =>
    match firstCue cue query with
    | none => Steady query rest
    | some (l, r) =>
      len (lowercaseIn [] l (query.drop l.length)) = len l ∧
        (trim l = [] ∨ trim r = [] → Steady query rest)

instance decidableSteady [Lowercase] (query : Text) :
    (rest : List Text) → Decidable (Steady query rest)
  | [] => inferInstanceAs (Decidable (trim query = query))
  | cue :: rest =>
    haveI := decidableSteady query rest
    match h : firstCue cue query with
    | none => decidable_of_iff (Steady query rest) (by rw [Steady, h])
    | some (l, r) =>
      decidable_of_iff (len (lowercaseIn [] l (query.drop l.length)) = len l ∧
        (trim l = [] ∨ trim r = [] → Steady query rest)) (by rw [Steady, h])

theorem sliceTo_append (l r : Text) : (sliceTo (l ++ r) (len l) : Outcome ε Text) = .ok l := by
  rw [sliceTo, splitAt?_eq_some.mpr ⟨rfl, rfl⟩]

theorem sliceFrom_append (l r : Text) : (sliceFrom (l ++ r) (len l) : Outcome ε Text) = .ok r := by
  rw [sliceFrom, splitAt?_eq_some.mpr ⟨rfl, rfl⟩]

theorem trim_leading (t : Text) : trim (leading t) = [] :=
  trim_eq_nil.mpr fun _ hc => isWhitespace_of_mem_leading hc

theorem trim_trailing (t : Text) : trim (trailing t) = [] :=
  trim_eq_nil.mpr fun _ hc => isWhitespace_of_mem_trailing hc

theorem isPart_self {query : Text} (h : trim query = query) : IsPart query query :=
  ⟨h, [], [], by simp, ⟨[], [], rfl, rfl, .inl rfl⟩, ⟨[], [], rfl, rfl, .inl rfl⟩⟩

/-- What stands before a connective is a part. -/
theorem isPart_before {l k r : Text} (hk : isConnective k) : IsPart (l ++ (k ++ r)) (trim l) := by
  refine ⟨trim_trim l, leading l, trailing l ++ (k ++ r), ?_, ?_, ?_⟩
  · rw [← List.append_assoc (trim l), ← List.append_assoc (leading l), ← trim_split]
  · exact ⟨[], leading l, rfl, trim_leading l, .inl rfl⟩
  · exact ⟨trailing l, k ++ r, rfl, trim_trailing l, .inr ⟨k, r, rfl, hk⟩⟩

/-- What stands after it is one, too. -/
theorem isPart_after {l k r : Text} (hk : isConnective k) : IsPart (l ++ (k ++ r)) (trim r) := by
  refine ⟨trim_trim r, l ++ (k ++ leading r), trailing r, ?_, ?_, ?_⟩
  · rw [List.append_assoc, List.append_assoc, ← trim_split]
  · exact ⟨l ++ k, leading r, (List.append_assoc _ _ _).symm, trim_leading r, .inr ⟨l, k, rfl, hk⟩⟩
  · exact ⟨trailing r, [], (List.append_nil _).symm, trim_trailing r, .inl rfl⟩

/-- A cue begins with a blank. -/
theorem cueSuffix_of_mem {cue : Text} (h : cue ∈ cues) :
    ∃ w, cue = ' ' :: w ∧ CueSuffix (' ' :: w) := by
  have hall : ∀ cue ∈ cues, cue.head? = some ' ' ∧ (∀ x ∈ cue.getLast?, x = ' ') ∧
      ∀ x ∈ cue, x.val < 128 ∧ x ≠ 'k' := by
    simp [cues]
  obtain ⟨hhead, hlast, hascii⟩ := hall cue h
  obtain ⟨w, rfl⟩ := List.head?_eq_some_iff.mp hhead
  exact ⟨w, rfl, hlast, hascii⟩

/-- The loop over the cues neither panics nor makes up a part. -/
theorem decomposeAt_safe [UnicodeLowercase] {query : Text} {rest : List Text}
    (hrest : ∀ cue ∈ rest, cue ∈ cues) (h : Steady query rest) :
    ∃ subs, (decomposeAt query (toLowercase query) rest : Outcome ε (List Text)) = .ok subs ∧
      ∀ s ∈ subs, IsPart query s := by
  induction rest with
  | nil => exact ⟨_, rfl, List.forall_mem_singleton.mpr (isPart_self h)⟩
  | cons cue rest ih =>
    have hrest' : ∀ cue ∈ rest, cue ∈ cues := fun c hc => hrest c (List.mem_cons_of_mem _ hc)
    obtain ⟨w, rfl, hw⟩ := cueSuffix_of_mem (hrest cue List.mem_cons_self)
    rw [Steady] at h
    rw [decomposeAt, toLowercase, findStr_lowercaseFrom hw]
    cases hfirst : firstCue (' ' :: w) query with
    | none =>
      rw [hfirst] at h
      exact ih hrest' h
    | some p =>
      obtain ⟨l, r⟩ := p
      obtain ⟨k, rfl, hk⟩ := firstCue_eq_some hfirst
      rw [hfirst] at h
      obtain ⟨hlen, hblank⟩ := h
      have hconn : isConnective k := by
        rw [isConnective, hk]
        exact hrest _ List.mem_cons_self
      have hto : (sliceTo (l ++ (k ++ r)) (len l) : Outcome ε Text) = .ok l :=
        sliceTo_append l (k ++ r)
      have hfrom :
          (sliceFrom (l ++ (k ++ r)) (len l + len (' ' :: w)) : Outcome ε Text) = .ok r := by
        rw [← hk, len_toAsciiLowercase, ← len_append, ← List.append_assoc, sliceFrom_append]
      simp only [Option.map_some, hlen, hto, hfrom, Outcome.ok_bind]
      split
      next =>
        refine ⟨_, rfl, fun s hs => ?_⟩
        rcases List.mem_pair.mp hs with rfl | rfl
        · exact isPart_before hconn
        · exact isPart_after hconn
      next hnil => exact ih hrest' (hblank (by tauto))

/-- **The parts are between connectives** where no cut is out of place. -/
theorem decompose_safe [UnicodeLowercase] {query : Text} (h : Steady query cues) : Safe query :=
  decomposeAt_safe (fun _ hcue => hcue) h

theorem decompose_hotel_safe :
    @Safe UnicodeLowercase.stroke.toLowercase "hôtel AFTER ȺȺ ".toList :=
  @decompose_safe UnicodeLowercase.stroke _ (by decide +kernel)

/-- Two characters that are a byte longer in lower case, and a part of one byte after the
connective. -/
theorem stroke_panics :
    (@decompose Unit UnicodeLowercase.stroke.toLowercase "ȺȺ after b".toList) = .panic ∧
      ¬@Safe UnicodeLowercase.stroke.toLowercase "ȺȺ after b".toList := by
  have hpanic :
      (@decompose Unit UnicodeLowercase.stroke.toLowercase "ȺȺ after b".toList) = .panic := by
    decide +kernel
  refine ⟨hpanic, ?_⟩
  rintro ⟨subs, hsubs, -⟩
  rw [hpanic] at hsubs
  cases hsubs

/-- The cut may be in the wrong place instead, within the word after the connective. -/
example : @decompose Unit UnicodeLowercase.stroke.toLowercase "Ⱥ after arrival".toList =
    .ok ["Ⱥ".toList, "rrival".toList] := by
  decide +kernel

end SynapseMemory.Decompose
