import Mathlib

/-!
# Regular expressions with word boundaries

Regular expressions as a backtracking engine matches them. `ends` lists what is left after each
match at a position, the preferred one first, and the search takes the leftmost match and, of the
matches there, the first (`matchLength`, `replaceAll`).

What a match is does not depend on the order of the engine: `Matches` says of a string that it is
one, where `B` says which of its positions are word boundaries, and the engine finds exactly these
(`mem_ends`). So the matches of a text only depend on its characters and on its boundaries: they
stay where boundaries are added (`Matches.mono`). A separator that no class of the expression has in
it cuts a text into parts that are searched by themselves (`replaceAll_append`, `occurs_append`).
-/

/-- A regular expression. The quantifiers are greedy. -/
inductive Regex where
  | eps
  | cls (p : Char → Bool)
  /-- any number of characters of a class -/
  | many (p : Char → Bool)
  | boundary
  | seq (a b : Regex)
  | alt (a b : Regex)

/-- The characters that words are made of. -/
class WordChars where
  isWord : Char → Bool

namespace Regex

/-- `r?` -/
def opt (r : Regex) : Regex := .alt r .eps

/-- `p+` -/
def plus (p : Char → Bool) : Regex := .seq (.cls p) (.many p)

/-- Up to so many times. -/
def upTo (r : Regex) : ℕ → Regex
  | 0 => .eps
  | n + 1 => opt (.seq r (upTo r n))

/-- So many times, and up to so many times more. -/
def times (r : Regex) : ℕ → ℕ → Regex
  | 0, n => upTo r n
  | m + 1, n => .seq r (times r m n)

/-- `r{m,n}` -/
def between (r : Regex) (m n : ℕ) : Regex := times r m (n - m)

/-- The characters of a text, one after the other. -/
def lit (s : List Char) : Regex := s.foldr (fun c r => .seq (.cls (· == c)) r) .eps

/-! ## What a match is -/

/-- The string is a match, where these of its positions are boundaries. -/
def Matches : Regex → (ℕ → Prop) → List Char → Prop
  | .eps, _, w => w = []
  | .cls p, _, w => ∃ c, w = [c] ∧ p c = true
  | .many p, _, w => ∀ c ∈ w, p c = true
  | .boundary, B, w => w = [] ∧ B 0
  | .seq x y, B, w => ∃ u v, w = u ++ v ∧ x.Matches B u ∧ y.Matches (fun k => B (u.length + k)) v
  | .alt x y, B, w => x.Matches B w ∨ y.Matches B w

/-- Boundaries may be added. -/
theorem Matches.mono {r : Regex} {B B' : ℕ → Prop} {w : List Char}
    (h : ∀ k ≤ w.length, B k → B' k) (hmatch : r.Matches B w) : r.Matches B' w := by
  induction r generalizing B B' w with
  | eps => exact hmatch
  | cls p => exact hmatch
  | many p => exact hmatch
  | boundary => exact ⟨hmatch.1, h 0 (Nat.zero_le _) hmatch.2⟩
  | seq x y hx hy =>
    obtain ⟨u, v, rfl, hu, hv⟩ := hmatch
    rw [List.length_append] at h
    exact ⟨u, v, rfl, hx (fun k hk => h k (by omega)) hu, hy (fun k hk => h _ (by omega)) hv⟩
  | alt x y hx hy => exact hmatch.imp (hx h) (hy h)

variable [WordChars]

open WordChars (isWord)

/-! ## The engine -/

/-- Whether the text begins with a word. -/
def headWord : List Char → Bool
  | [] => false
  | c :: _ => isWord c

/-- Where a run of characters of a set can end, greedy first. -/
def manyEnds (p : Char → Bool) : Bool → List Char → List (Bool × List Char)
  | b, [] => [(b, [])]
  | b, c :: t => if p c then manyEnds p (isWord c) t ++ [(b, c :: t)] else [(b, c :: t)]

/-- What is left after the matches at the beginning of a text, each with whether a word character
stands before it. The first argument says so of the text. -/
def ends : Regex → Bool → List Char → List (Bool × List Char)
  | .eps, b, t => [(b, t)]
  | .cls _, _, [] => []
  | .cls p, _, c :: t => if p c then [(isWord c, t)] else []
  | .many p, b, t => manyEnds p b t
  | .boundary, b, t => if b = headWord t then [] else [(b, t)]
  | .seq x y, b, t => (x.ends b t).flatMap fun e => y.ends e.1 e.2
  | .alt x y, b, t => x.ends b t ++ y.ends b t

/-- The length of the match at the beginning of a text: zero if there is none, or an empty one. -/
def matchLength (r : Regex) (b : Bool) (t : List Char) : ℕ :=
  match r.ends b t with
  | [] => 0
  | e :: _ => t.length - e.2.length

/-- Replace the matches, from the left to the right. The first number is what is left of a match
that was replaced. -/
def replaceAll (r : Regex) (by_ : List Char) : ℕ → Bool → List Char → List Char
  | _, _, [] => []
  | k + 1, _, c :: t => replaceAll r by_ k (isWord c) t
  | 0, b, c :: t =>
    match r.matchLength b (c :: t) with
    | 0 => c :: replaceAll r by_ 0 (isWord c) t
    | n + 1 => by_ ++ replaceAll r by_ n (isWord c) t

/-- The number of the matches. -/
def countMatches (r : Regex) : ℕ → Bool → List Char → ℕ
  | _, _, [] => 0
  | k + 1, _, c :: t => countMatches r k (isWord c) t
  | 0, b, c :: t =>
    match r.matchLength b (c :: t) with
    | 0 => countMatches r 0 (isWord c) t
    | n + 1 => countMatches r n (isWord c) t + 1

/-! ## The boundaries of a text -/

/-- Whether a word character stands before what comes after this. -/
def after (b : Bool) (w : List Char) : Bool := w.foldl (fun _ c => isWord c) b

@[simp] theorem after_nil (b : Bool) : after b [] = b := rfl

@[simp] theorem after_cons (b : Bool) (c : Char) (w : List Char) :
    after b (c :: w) = after (isWord c) w := rfl

/-- What stands before a text of two parts. -/
theorem after_append (b : Bool) (u w : List Char) : after b (u ++ w) = after (after b u) w :=
  List.foldl_append

/-- The word boundaries of a text. -/
def boundaryAt : Bool → List Char → ℕ → Prop
  | b, t, 0 => b ≠ headWord t
  | _, [], _ + 1 => False
  | _, c :: t, k + 1 => boundaryAt (isWord c) t k

@[simp] theorem boundaryAt_zero (b : Bool) (t : List Char) :
    boundaryAt b t 0 ↔ b ≠ headWord t := by
  cases t <;> rfl

theorem boundaryAt_append (b : Bool) (u t : List Char) (k : ℕ) :
    boundaryAt b (u ++ t) (u.length + k) = boundaryAt (after b u) t k := by
  induction u generalizing b with
  | nil => rw [List.nil_append, List.length_nil, Nat.zero_add, after_nil]
  | cons c u ih => rw [List.cons_append, List.length_cons, Nat.succ_add, boundaryAt, ih, after_cons]

/-! ## The matches of the engine -/

/-- Where such a run can end. -/
theorem mem_manyEnds {p : Char → Bool} {b : Bool} {t : List Char} {e : Bool × List Char} :
    e ∈ manyEnds p b t ↔ ∃ w, t = w ++ e.2 ∧ e.1 = after b w ∧ ∀ c ∈ w, p c = true := by
  induction t generalizing b with
  | nil =>
    rw [manyEnds, List.mem_singleton]
    refine ⟨?_, ?_⟩
    · rintro rfl
      exact ⟨[], rfl, rfl, nofun⟩
    · rintro ⟨w, ht, hb, -⟩
      obtain ⟨rfl, he⟩ := List.append_eq_nil_iff.mp ht.symm
      exact Prod.ext hb he
  | cons c t ih =>
    have hstay : e = (b, c :: t) → ∃ w, c :: t = w ++ e.2 ∧ e.1 = after b w ∧ ∀ c ∈ w, p c = true :=
      fun he => he ▸ ⟨[], rfl, rfl, nofun⟩
    rw [manyEnds]
    split
    next hc =>
      rw [List.mem_append, ih, List.mem_singleton]
      refine ⟨?_, ?_⟩
      · rintro (⟨w, rfl, hb, hw⟩ | he)
        · exact ⟨c :: w, rfl, hb, List.forall_mem_cons.mpr ⟨hc, hw⟩⟩
        · exact hstay he
      · rintro ⟨w, ht, hb, hw⟩
        cases w with
        | nil => exact .inr (Prod.ext hb ht.symm)
        | cons d w =>
          obtain ⟨rfl, rfl⟩ := List.cons.inj ht
          exact .inl ⟨w, rfl, hb, fun x hx => hw x (List.mem_cons_of_mem _ hx)⟩
    next hc =>
      rw [List.mem_singleton]
      refine ⟨hstay, ?_⟩
      rintro ⟨w, ht, hb, hw⟩
      cases w with
      | nil => exact Prod.ext hb ht.symm
      | cons d w =>
        obtain ⟨rfl, rfl⟩ := List.cons.inj ht
        exact absurd (hw c List.mem_cons_self) hc

/-- **The engine finds the matches.** -/
theorem mem_ends {r : Regex} {b : Bool} {t : List Char} {e : Bool × List Char} :
    e ∈ r.ends b t ↔ ∃ w, t = w ++ e.2 ∧ e.1 = after b w ∧ r.Matches (boundaryAt b t) w := by
  induction r generalizing b t e with
  | eps =>
    rw [ends, List.mem_singleton]
    refine ⟨fun he => he ▸ ⟨[], rfl, rfl, rfl⟩, ?_⟩
    rintro ⟨w, rfl, hb, rfl⟩
    exact Prod.ext hb rfl
  | cls p =>
    cases t with
    | nil =>
      refine iff_of_false List.not_mem_nil ?_
      rintro ⟨w, ht, -, c, rfl, -⟩
      cases ht
    | cons c t =>
      have hmatch : (∃ w, c :: t = w ++ e.2 ∧ e.1 = after b w ∧
          (cls p).Matches (boundaryAt b (c :: t)) w) ↔ e = (isWord c, t) ∧ p c = true := by
        refine ⟨?_, ?_⟩
        · rintro ⟨w, ht, hb, d, rfl, hd⟩
          obtain ⟨rfl, rfl⟩ := List.cons.inj ht
          exact ⟨Prod.ext hb rfl, hd⟩
        · rintro ⟨rfl, hc⟩
          exact ⟨[c], rfl, rfl, c, rfl, hc⟩
      rw [hmatch, ends]
      split
      next hc => rw [List.mem_singleton, and_iff_left hc]
      next hc => exact iff_of_false List.not_mem_nil fun h => hc h.2
  | many p => exact mem_manyEnds
  | boundary =>
    have hmatch : (∃ w, t = w ++ e.2 ∧ e.1 = after b w ∧ boundary.Matches (boundaryAt b t) w) ↔
        e = (b, t) ∧ b ≠ headWord t := by
      refine ⟨?_, ?_⟩
      · rintro ⟨w, ht, hb, rfl, hbound⟩
        exact ⟨Prod.ext hb ht.symm, (boundaryAt_zero b t).mp hbound⟩
      · rintro ⟨rfl, hbound⟩
        exact ⟨[], rfl, rfl, rfl, (boundaryAt_zero b t).mpr hbound⟩
    rw [hmatch, ends]
    split
    next hb => exact iff_of_false List.not_mem_nil fun h => h.2 hb
    next hb => rw [List.mem_singleton, and_iff_left hb]
  | seq x y hx hy =>
    rw [ends, List.mem_flatMap]
    refine ⟨?_, ?_⟩
    · rintro ⟨⟨b', t'⟩, he', he⟩
      obtain ⟨u, rfl, rfl, hu⟩ := hx.mp he'
      obtain ⟨v, rfl, hb, hv⟩ := hy.mp he
      refine ⟨u ++ v, (List.append_assoc _ _ _).symm, ?_, u, v, rfl, hu, ?_⟩
      · rw [hb, after_append]
      · exact hv.mono fun k _ hk => (boundaryAt_append b u _ k).symm ▸ hk
    · rintro ⟨w, ht, hb, u, v, rfl, hu, hv⟩
      rw [List.append_assoc] at ht
      subst ht
      refine ⟨(after b u, v ++ e.2), hx.mpr ⟨u, rfl, rfl, hu⟩, hy.mpr ⟨v, rfl, ?_, ?_⟩⟩
      · rw [hb, after_append]
      · exact hv.mono fun k _ hk => boundaryAt_append b u _ k ▸ hk
  | alt x y hx hy =>
    rw [ends, List.mem_append, hx, hy]
    refine ⟨?_, ?_⟩
    · rintro (⟨w, ht, hb, hw⟩ | ⟨w, ht, hb, hw⟩)
      · exact ⟨w, ht, hb, .inl hw⟩
      · exact ⟨w, ht, hb, .inr hw⟩
    · rintro ⟨w, ht, hb, hw | hw⟩
      · exact .inl ⟨w, ht, hb, hw⟩
      · exact .inr ⟨w, ht, hb, hw⟩

/-! ## Matches in a text -/

/-- There is a match at the beginning of the text that is not empty. -/
def Here (r : Regex) (b : Bool) (t : List Char) : Prop :=
  ∃ w v, t = w ++ v ∧ w ≠ [] ∧ r.Matches (boundaryAt b t) w

/-- There is such a match somewhere in the text. -/
def Occurs (r : Regex) (b : Bool) (t : List Char) : Prop :=
  ∃ u v, t = u ++ v ∧ r.Here (after b u) v

/-- No match is empty. -/
def Consuming (r : Regex) : Prop := ∀ B w, r.Matches B w → w ≠ []

/-- What is replaced is a match. -/
theorem matchLength_spec {r : Regex} {b : Bool} {t : List Char} (h : r.matchLength b t ≠ 0) :
    ∃ w v, t = w ++ v ∧ w.length = r.matchLength b t ∧ r.Matches (boundaryAt b t) w := by
  rw [matchLength] at h ⊢
  cases hends : r.ends b t with
  | nil =>
    rw [hends] at h
    exact absurd rfl h
  | cons e es =>
    obtain ⟨w, ht, -, hw⟩ := mem_ends.mp (hends ▸ List.mem_cons_self)
    refine ⟨w, e.2, ht, ?_, hw⟩
    change w.length = t.length - e.2.length
    rw [ht, List.length_append, Nat.add_sub_cancel]

theorem here_of_matchLength {r : Regex} {b : Bool} {t : List Char} (h : r.matchLength b t ≠ 0) :
    r.Here b t := by
  obtain ⟨w, v, ht, hlen, hw⟩ := matchLength_spec h
  exact ⟨w, v, ht, fun hnil => h (by rw [← hlen, hnil]; rfl), hw⟩

/-- A match that consumes something has a length. -/
theorem matchLength_of_here {r : Regex} (hr : r.Consuming) {b : Bool} {t : List Char}
    (h : r.Here b t) : r.matchLength b t ≠ 0 := by
  obtain ⟨w, v, ht, -, hw⟩ := h
  have hmem : (after b w, v) ∈ r.ends b t := mem_ends.mpr ⟨w, ht, rfl, hw⟩
  rw [matchLength]
  cases hends : r.ends b t with
  | nil =>
    rw [hends] at hmem
    cases hmem
  | cons e es =>
    obtain ⟨w', ht', -, hw'⟩ := mem_ends.mp (hends ▸ List.mem_cons_self)
    have hpos := List.length_pos_of_ne_nil (hr _ _ hw')
    change t.length - e.2.length ≠ 0
    rw [ht', List.length_append]
    omega

/-- A match is here, or further on. -/
theorem occurs_cons {r : Regex} {b : Bool} {c : Char} {t : List Char} :
    r.Occurs b (c :: t) ↔ r.Here b (c :: t) ∨ r.Occurs (isWord c) t := by
  refine ⟨?_, ?_⟩
  · rintro ⟨u, v, ht, hv⟩
    cases u with
    | nil =>
      obtain rfl : c :: t = v := ht
      exact .inl hv
    | cons d u =>
      obtain ⟨rfl, rfl⟩ := List.cons.inj ht
      exact .inr ⟨u, v, rfl, hv⟩
  · rintro (h | ⟨u, v, rfl, hv⟩)
    · exact ⟨[], c :: t, rfl, h⟩
    · exact ⟨c :: u, v, rfl, hv⟩

/-- Nothing is found in an empty text. -/
theorem not_occurs_nil {r : Regex} {b : Bool} : ¬r.Occurs b [] := by
  rintro ⟨u, v, ht, w, v', rfl, hne, -⟩
  exact hne (List.append_eq_nil_iff.mp (List.append_eq_nil_iff.mp ht.symm).2).1

theorem replaceAll_cons_of_zero {r : Regex} {by_ : List Char} {b : Bool} {c : Char} {t : List Char}
    (h : r.matchLength b (c :: t) = 0) :
    r.replaceAll by_ 0 b (c :: t) = c :: r.replaceAll by_ 0 (isWord c) t := by
  rw [replaceAll, h]

theorem replaceAll_cons_of_succ {r : Regex} {by_ : List Char} {b : Bool} {c : Char} {t : List Char}
    {n : ℕ} (h : r.matchLength b (c :: t) = n + 1) :
    r.replaceAll by_ 0 b (c :: t) = by_ ++ r.replaceAll by_ n (isWord c) t := by
  rw [replaceAll, h]

/-- A text without matches stays as it is. -/
theorem replaceAll_of_not_occurs {r : Regex} {by_ : List Char} {b : Bool} {t : List Char}
    (h : ¬r.Occurs b t) : r.replaceAll by_ 0 b t = t := by
  induction t generalizing b with
  | nil => rfl
  | cons c t ih =>
    rw [occurs_cons, not_or] at h
    have hzero : r.matchLength b (c :: t) = 0 := by
      by_contra hne
      exact h.1 (here_of_matchLength hne)
    rw [replaceAll_cons_of_zero hzero, ih h.2]

/-! ## Separators -/

omit [WordChars] in
/-- The character is in no class of the expression. -/
def avoids (r : Regex) (c : Char) : Bool :=
  match r with
  | .eps => true
  | .cls p => !p c
  | .many p => !p c
  | .boundary => true
  | .seq x y => x.avoids c && y.avoids c
  | .alt x y => x.avoids c && y.avoids c

omit [WordChars] in
theorem avoids_times {r : Regex} {c : Char} (h : r.avoids c = true) (m n : ℕ) :
    (times r m n).avoids c = true := by
  induction m with
  | zero =>
    induction n with
    | zero => rfl
    | succ n ih =>
      change (r.avoids c && (upTo r n).avoids c && true) = true
      rw [h, show (upTo r n).avoids c = true from ih]
      rfl
  | succ m ih =>
    change (r.avoids c && (times r m n).avoids c) = true
    rw [h, ih]
    rfl

omit [WordChars] in
theorem avoids_between {r : Regex} {c : Char} (h : r.avoids c = true) (m n : ℕ) :
    (between r m n).avoids c = true := avoids_times h m (n - m)

omit [WordChars] in
theorem avoids_lit {c : Char} {s : List Char} : (lit s).avoids c = !s.contains c := by
  induction s with
  | nil => rfl
  | cons e s ih =>
    change (!(c == e) && (lit s).avoids c) = !(e :: s).contains c
    rw [ih, List.contains_cons, Bool.not_or]

/-- A character that cuts texts for the expression: no match has it, and it is in no word. -/
def Cuts (r : Regex) (c : Char) : Prop := r.avoids c = true ∧ isWord c = false

theorem headWord_append {c : Char} (hc : isWord c = false) (u q : List Char) :
    headWord (u ++ c :: q) = headWord u := by
  cases u with
  | nil => exact hc
  | cons d u => rfl

theorem manyEnds_append {p : Char → Bool} {c : Char} (hc : p c = false) (b : Bool)
    (u q : List Char) :
    manyEnds p b (u ++ c :: q) = (manyEnds p b u).map fun e => (e.1, e.2 ++ c :: q) := by
  induction u generalizing b with
  | nil => simp [manyEnds, hc]
  | cons d u ih =>
    rw [List.cons_append, manyEnds, manyEnds]
    split
    next => rw [ih, List.map_append]; rfl
    next => rfl

/-- The matches before a cut are those of the text that ends there. -/
theorem ends_append {r : Regex} {c : Char} (hc : r.Cuts c) (b : Bool) (u q : List Char) :
    r.ends b (u ++ c :: q) = (r.ends b u).map fun e => (e.1, e.2 ++ c :: q) := by
  obtain ⟨havoid, hword⟩ := hc
  induction r generalizing b u with
  | eps => rfl
  | cls p =>
    have hp : p c = false := by simpa [avoids] using havoid
    cases u with
    | nil => simp [ends, hp]
    | cons d u =>
      rw [List.cons_append, ends, ends]
      split <;> rfl
  | many p => exact manyEnds_append (by simpa [avoids] using havoid) b u q
  | boundary =>
    rw [ends, ends, headWord_append hword]
    split <;> rfl
  | seq x y hx hy =>
    obtain ⟨hcx, hcy⟩ := Bool.and_eq_true_iff.mp havoid
    rw [ends, ends, hx b u hcx, List.flatMap_map, List.map_flatMap]
    exact List.flatMap_congr fun e _ => hy e.1 e.2 hcy
  | alt x y hx hy =>
    obtain ⟨hcx, hcy⟩ := Bool.and_eq_true_iff.mp havoid
    rw [ends, ends, hx b u hcx, hy b u hcy, List.map_append]

/-- What follows a character that cuts does not matter. -/
theorem matchLength_append {r : Regex} {c : Char} (hc : r.Cuts c) (b : Bool) (u q : List Char) :
    r.matchLength b (u ++ c :: q) = r.matchLength b u := by
  rw [matchLength, matchLength, ends_append hc]
  cases r.ends b u with
  | nil => rfl
  | cons e es =>
    change (u ++ c :: q).length - (e.2 ++ c :: q).length = u.length - e.2.length
    rw [List.length_append, List.length_append]
    omega

theorem matchLength_nil (r : Regex) (b : Bool) : r.matchLength b [] = 0 := by
  rw [matchLength]
  split
  next => rfl
  next => exact Nat.zero_sub _

/-- A match is no longer than the text. -/
theorem matchLength_le (r : Regex) (b : Bool) (t : List Char) : r.matchLength b t ≤ t.length := by
  rw [matchLength]
  split
  next => exact Nat.zero_le _
  next => exact Nat.sub_le _ _

/-- A text is searched up to the cut, and from there on. -/
theorem replaceAll_append {r : Regex} {c : Char} (hc : r.Cuts c) (by_ : List Char) {k : ℕ}
    (b : Bool) {u : List Char} (hk : k ≤ u.length) (q : List Char) :
    r.replaceAll by_ k b (u ++ c :: q) =
      r.replaceAll by_ k b u ++ c :: r.replaceAll by_ 0 false q := by
  induction u generalizing k b with
  | nil =>
    obtain rfl := Nat.le_zero.mp hk
    have hzero := matchLength_append hc b [] q
    rw [List.nil_append, matchLength_nil] at hzero
    rw [List.nil_append, replaceAll_cons_of_zero hzero, hc.2]
    rfl
  | cons d u ih =>
    cases k with
    | succ k => exact ih (isWord d) (Nat.le_of_succ_le_succ hk)
    | zero =>
      have hsame := matchLength_append hc b (d :: u) q
      have hle := r.matchLength_le b (d :: u)
      rw [List.cons_append] at hsame ⊢
      cases hn : r.matchLength b (d :: u) with
      | zero =>
        rw [replaceAll_cons_of_zero (hsame.trans hn), replaceAll_cons_of_zero hn,
          ih (isWord d) (Nat.zero_le _), List.cons_append]
      | succ n =>
        rw [hn, List.length_cons] at hle
        rw [replaceAll_cons_of_succ (hsame.trans hn), replaceAll_cons_of_succ hn,
          ih (isWord d) (Nat.le_of_succ_le_succ hle), List.append_assoc]

/-- A match is here if an end is further on. -/
theorem here_iff {r : Regex} {b : Bool} {t : List Char} :
    r.Here b t ↔ ∃ e ∈ r.ends b t, e.2.length < t.length := by
  refine ⟨?_, ?_⟩
  · rintro ⟨w, v, rfl, hne, hw⟩
    refine ⟨(after b w, v), mem_ends.mpr ⟨w, rfl, rfl, hw⟩, ?_⟩
    rw [List.length_append]
    exact Nat.lt_add_of_pos_left (List.length_pos_of_ne_nil hne)
  · rintro ⟨e, he, hlt⟩
    obtain ⟨w, ht, -, hw⟩ := mem_ends.mp he
    refine ⟨w, e.2, ht, ?_, hw⟩
    rintro rfl
    rw [List.nil_append] at ht
    exact absurd hlt (by rw [ht]; exact lt_irrefl _)

theorem here_append {r : Regex} {c : Char} (hc : r.Cuts c) (b : Bool) (u q : List Char) :
    r.Here b (u ++ c :: q) ↔ r.Here b u := by
  rw [here_iff, here_iff, ends_append hc]
  simp only [List.mem_map, exists_exists_and_eq_and, List.length_append, Nat.add_lt_add_iff_right]

theorem not_here_nil {r : Regex} {b : Bool} : ¬r.Here b [] := by
  rintro ⟨w, v, ht, hne, -⟩
  exact hne (List.append_eq_nil_iff.mp ht.symm).1

/-- A match in two parts, with a character that cuts between them, is in one of them. -/
theorem occurs_append {r : Regex} {c : Char} (hc : r.Cuts c) (b : Bool) (u q : List Char) :
    r.Occurs b (u ++ c :: q) ↔ r.Occurs b u ∨ r.Occurs false q := by
  induction u generalizing b with
  | nil =>
    have hhere := here_append hc b [] q
    rw [List.nil_append] at hhere ⊢
    rw [occurs_cons, hhere, hc.2, or_iff_right not_here_nil, or_iff_right not_occurs_nil]
  | cons d u ih =>
    have hhere := here_append hc b (d :: u) q
    rw [List.cons_append] at hhere ⊢
    rw [occurs_cons, occurs_cons, hhere, ih, or_assoc]

/-- A text between two cuts in which nothing matches. -/
structure Inert (r : Regex) (ph : List Char) : Prop where
  parts : ∃ c inner d, ph = c :: (inner ++ [d]) ∧ r.Cuts c ∧ r.Cuts d ∧ ¬r.Occurs false inner

/-- A placeholder that is inert stays between what is replaced. -/
theorem Inert.replaceAll_append {r : Regex} {ph : List Char} (h : r.Inert ph) (by_ : List Char)
    (b : Bool) (u q : List Char) :
    r.replaceAll by_ 0 b (u ++ (ph ++ q)) =
      r.replaceAll by_ 0 b u ++ (ph ++ r.replaceAll by_ 0 false q) := by
  obtain ⟨c, inner, d, rfl, hc, hd, hinner⟩ := h.parts
  rw [List.cons_append, List.append_assoc, List.singleton_append,
    Regex.replaceAll_append hc by_ b (Nat.zero_le _),
    Regex.replaceAll_append hd by_ false (Nat.zero_le _), replaceAll_of_not_occurs hinner,
    List.cons_append, List.append_assoc, List.singleton_append]

theorem Inert.occurs_append {r : Regex} {ph : List Char} (h : r.Inert ph) (b : Bool)
    (u q : List Char) : r.Occurs b (u ++ (ph ++ q)) ↔ r.Occurs b u ∨ r.Occurs false q := by
  obtain ⟨c, inner, d, rfl, hc, hd, hinner⟩ := h.parts
  rw [List.cons_append, List.append_assoc, List.singleton_append, Regex.occurs_append hc,
    Regex.occurs_append hd, or_iff_right hinner]

end Regex
