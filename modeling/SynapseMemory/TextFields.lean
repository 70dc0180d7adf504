import SynapseMemory.Text

/-!
# Fields of a string

Slices of a string at byte offsets, and the numbers in them. A slice is there only if both offsets
are borders of characters: a string can be cut at an offset just where it is two strings, the first
of that many bytes (`splitAt?_eq_some`), and a slice is what is between two such cuts
(`get?_eq_some`).

An integer is read from a string as `FromStr` does it, with a sign before the digits if there is
one. What it accepts without a sign is a decimal (`parseInt_decimal`), and a number written with
leading zeros is read back (`parseInt_pad`).

A string is the white space that `trim` takes off and what is left (`trim_split`), and the pieces
that `split` cuts it into with the separator between them (`intercalate_splitStr`).
-/

namespace SynapseMemory

namespace Text

/-! ## Bytes -/

/-- A byte literal. -/
def byte (c : Char) : UInt8 := c.val.toUInt8

/-- `as_bytes().get(i)` -/
def byteAt (t : Text) (i : ℕ) : Option UInt8 := (asBytes t)[i]?

theorem len_append (a b : Text) : len (a ++ b) = len a + len b := by
  rw [len, List.map_append, List.sum_append, ← len, ← len]

theorem len_cons (c : Char) (t : Text) : len (c :: t) = c.utf8Size + len t := by
  rw [len, List.map_cons, List.sum_cons, ← len]

theorem length_asBytes (t : Text) : (asBytes t).length = len t := by
  induction t with
  | nil => rfl
  | cons c t ih =>
    rw [asBytes, List.flatMap_cons, List.length_append, String.length_utf8EncodeChar, len_cons,
      ← ih, asBytes]

theorem asBytes_append (a b : Text) : asBytes (a ++ b) = asBytes a ++ asBytes b :=
  List.flatMap_append

/-- The byte of a character of one byte, after so many others. -/
theorem byteAt_eq {t a b : Text} {c : Char} {i : ℕ} (ht : t = a ++ c :: b) (hi : len a = i)
    (hc : String.utf8EncodeChar c = [byte c]) : byteAt t i = some (byte c) := by
  rw [ht, byteAt, asBytes_append, List.getElem?_append_right (by rw [length_asBytes, hi]),
    length_asBytes, hi, Nat.sub_self, asBytes, List.flatMap_cons, hc]
  rfl

/-! ## ASCII -/

/-- What holds of every ASCII character. -/
theorem ascii_forall {P : Char → Prop} (h : ∀ n < 128, P (Char.ofNat n)) (c : Char)
    (hc : c.val < 128) : P c := by
  have hlt : c.toNat < 128 := UInt32.lt_iff_toNat_lt.mp hc
  have hofNat := h c.toNat hlt
  rwa [Char.ofNat_toNat] at hofNat

theorem toLower_of_le {c : Char} (h : 128 ≤ c.val) : c.toLower = c := by
  have hle : ¬c.val ≤ 90 := fun hz => absurd (UInt32.le_trans h hz) (by decide)
  simp [Char.toLower, hle]

theorem utf8Size_toLower (c : Char) : c.toLower.utf8Size = c.utf8Size := by
  by_cases hc : c.val < 128
  · exact ascii_forall (P := fun c => c.toLower.utf8Size = c.utf8Size) (by decide +kernel) c hc
  · rw [toLower_of_le (UInt32.not_lt.mp hc)]

theorem len_toAsciiLowercase (k : Text) : len (toAsciiLowercase k) = len k := by
  simp [len, toAsciiLowercase, Function.comp_def, utf8Size_toLower]

/-! ## Slices -/

/-- A string cut at a byte offset, if that is the border of a character. -/
def splitAt? : Text → ℕ → Option (Text × Text)
  | t, 0 => some ([], t)
  | [], _ + 1 => none
  | c :: t, n + 1 =>
    if c.utf8Size ≤ n + 1 then (splitAt? t (n + 1 - c.utf8Size)).map fun p => (c :: p.1, p.2)
    else none

/-- `get(start..)` -/
def getFrom? (t : Text) (start : ℕ) : Option Text := (splitAt? t start).map Prod.snd

/-- `get(start..stop)` -/
def get? (t : Text) (start stop : ℕ) : Option Text :=
  if stop < start then none
  else do
    let rest ← getFrom? t start
    (splitAt? rest (stop - start)).map Prod.fst

theorem splitAt?_eq_some {t a b : Text} {n : ℕ} :
    splitAt? t n = some (a, b) ↔ t = a ++ b ∧ len a = n := by
  induction t, n using splitAt?.induct generalizing a with
  | case1 t =>
    rw [splitAt?, Option.some_inj, Prod.mk.injEq]
    constructor
    · rintro ⟨rfl, rfl⟩
      exact ⟨rfl, rfl⟩
    · rintro ⟨rfl, hlen⟩
      cases a with
      | nil => exact ⟨rfl, rfl⟩
      | cons c a =>
        have := c.utf8Size_pos
        rw [len_cons] at hlen
        omega
  | case2 n =>
    refine iff_of_false nofun ?_
    rintro ⟨hnil, hlen⟩
    rw [(List.append_eq_nil_iff.mp hnil.symm).1] at hlen
    cases hlen
  | case3 c t n hle ih =>
    rw [splitAt?, if_pos hle, Option.map_eq_some_iff]
    constructor
    · rintro ⟨⟨a', b'⟩, hsplit, heq⟩
      obtain ⟨rfl, rfl⟩ := Prod.mk.inj heq
      obtain ⟨rfl, hlen⟩ := ih.mp hsplit
      exact ⟨rfl, by rw [len_cons, hlen]; omega⟩
    · rintro ⟨ht, hlen⟩
      cases a with
      | nil => cases hlen
      | cons c' a =>
        obtain ⟨rfl, rfl⟩ := List.cons.inj ht
        rw [len_cons] at hlen
        exact ⟨(a, b), ih.mpr ⟨rfl, by omega⟩, rfl⟩
  | case4 c t n hlt =>
    rw [splitAt?, if_neg hlt]
    refine iff_of_false nofun ?_
    rintro ⟨ht, hlen⟩
    cases a with
    | nil => cases hlen
    | cons c' a =>
      obtain ⟨rfl, -⟩ := List.cons.inj ht
      rw [len_cons] at hlen
      omega

theorem getFrom?_eq_some {t b : Text} {n : ℕ} :
    getFrom? t n = some b ↔ ∃ a, t = a ++ b ∧ len a = n := by
  simp only [getFrom?, Option.map_eq_some_iff, Prod.exists, splitAt?_eq_some]
  constructor
  · rintro ⟨a, b', h, rfl⟩
    exact ⟨a, h⟩
  · rintro ⟨a, h⟩
    exact ⟨a, b, h, rfl⟩

/-- **What a slice is.** -/
theorem get?_eq_some {t m : Text} {i j : ℕ} :
    get? t i j = some m ↔ ∃ a b, t = a ++ (m ++ b) ∧ len a = i ∧ i + len m = j := by
  rw [get?]
  split
  next hlt =>
    refine iff_of_false nofun ?_
    rintro ⟨a, b, -, -, hj⟩
    omega
  next hle =>
    simp only [Option.bind_eq_bind, Option.bind_eq_some_iff, getFrom?_eq_some,
      Option.map_eq_some_iff, Prod.exists, splitAt?_eq_some]
    constructor
    · rintro ⟨rest, ⟨a, rfl, hi⟩, m', b, ⟨rfl, hm⟩, rfl⟩
      exact ⟨a, b, rfl, hi, by omega⟩
    · rintro ⟨a, b, rfl, hi, hj⟩
      exact ⟨m ++ b, ⟨a, rfl, hi⟩, m, b, ⟨rfl, by omega⟩, rfl⟩

/-- A field after others and a separator. -/
theorem get?_field {a b m t : Text} {c : Char} {i j : ℕ} (ht : t = a ++ c :: (m ++ b))
    (hi : len a + c.utf8Size = i) (hj : i + len m = j) : get? t i j = some m := by
  refine get?_eq_some.mpr ⟨a ++ [c], b, ?_, ?_, hj⟩
  · rw [ht, List.append_assoc, List.singleton_append]
  · rw [len_append, len_cons, ← hi]
    rfl

/-! ## Numbers -/

/-- Digits and nothing else. -/
def Decimal (t : Text) : Prop := t ≠ [] ∧ ∀ c ∈ t, c.isDigit = true

instance (t : Text) : Decidable (Decimal t) :=
  haveI : Decidable (∀ c ∈ t, c.isDigit = true) := List.decidableBAll _ t
  inferInstanceAs (Decidable (_ ∧ _))

/-- The number that is written with these digits. -/
def decimalValue (t : Text) : ℕ := Nat.ofDigitChars 10 t 0

/-- A sign at the front. -/
def Signed (t : Text) : Prop := t.head? = some '+' ∨ t.head? = some '-'

instance (t : Text) : Decidable (Signed t) :=
  inferInstanceAs (Decidable (t.head? = some '+' ∨ t.head? = some '-'))

/-- The number of a text of digits. -/
def readDigits (t : Text) : Option ℕ := if Decimal t then some (decimalValue t) else none

/-- A number with a sign before it if it has one; a minus is for the types with negative numbers. -/
def readSigned (lo : ℤ) : Text → Option ℤ
  | '+' :: rest => (readDigits rest).map Int.ofNat
  | '-' :: rest => if lo < 0 then (readDigits rest).map Int.negOfNat else none
  | t => (readDigits t).map Int.ofNat

/-- `FromStr` of an integer type with these bounds. -/
def parseInt (lo hi : ℤ) (t : Text) : Option ℤ :=
  (readSigned lo t).filter fun n => lo ≤ n ∧ n ≤ hi

/-- The digits of a number, with zeros before them up to a width. -/
def pad (width n : ℕ) : Text :=
  List.replicate (width - (Nat.toDigits 10 n).length) '0' ++ Nat.toDigits 10 n

theorem Decimal.not_signed {t : Text} (h : Decimal t) : ¬Signed t := by
  rintro (hplus | hminus)
  · exact absurd (h.2 '+' (List.mem_of_head? hplus)) (by decide)
  · exact absurd (h.2 '-' (List.mem_of_head? hminus)) (by decide)

/-- **What is read without a sign.** -/
theorem parseInt_decimal {lo hi n : ℤ} {t : Text} (h : ¬Signed t) :
    parseInt lo hi t = some n ↔ Decimal t ∧ n = decimalValue t ∧ lo ≤ n ∧ n ≤ hi := by
  have hread : readSigned lo t = (readDigits t).map Int.ofNat := by
    rw [readSigned.eq_def]
    split
    next => exact absurd (.inl rfl) h
    next => exact absurd (.inr rfl) h
    next => rfl
  simp only [parseInt, hread, readDigits, Option.filter_eq_some_iff, Option.map_eq_some_iff,
    Option.ite_none_right_eq_some, Option.some_inj, decide_eq_true_eq]
  constructor
  · rintro ⟨⟨_, ⟨hdecimal, rfl⟩, rfl⟩, hrange⟩
    exact ⟨hdecimal, rfl, hrange⟩
  · rintro ⟨hdecimal, rfl, hrange⟩
    exact ⟨⟨_, ⟨hdecimal, rfl⟩, rfl⟩, hrange⟩

theorem decimal_pad (width n : ℕ) : Decimal (pad width n) := by
  refine ⟨List.append_ne_nil_of_right_ne_nil _ Nat.toDigits_ne_nil, fun c hc => ?_⟩
  rcases List.mem_append.mp hc with hzero | hdigit
  · rw [List.eq_of_mem_replicate hzero]
    rfl
  · exact Nat.isDigit_of_mem_toDigits (by decide) (by decide) hdigit

theorem decimalValue_pad (width n : ℕ) : decimalValue (pad width n) = n := by
  rw [decimalValue, pad, Nat.ofDigitChars_append, Nat.ofDigitChars_replicate_zero, mul_zero,
    Nat.ofDigitChars_ten_toDigits]

theorem length_pad {width n : ℕ} (hpos : 0 < width) (hn : n < 10 ^ width) :
    (pad width n).length = width := by
  have hle := (Nat.length_toDigits_le_iff (by decide) hpos).mpr hn
  rw [pad, List.length_append, List.length_replicate, Nat.sub_add_cancel hle]

/-- A number written with leading zeros is read back. -/
theorem parseInt_pad {lo hi : ℤ} (width : ℕ) {n : ℕ} (hlo : lo ≤ n) (hhi : n ≤ hi) :
    parseInt lo hi (pad width n) = some (n : ℤ) :=
  (parseInt_decimal (decimal_pad width n).not_signed).mpr
    ⟨decimal_pad width n, by rw [decimalValue_pad], hlo, hhi⟩

/-- A digit takes one byte. -/
theorem utf8Size_of_isDigit {c : Char} (h : c.isDigit = true) : c.utf8Size = 1 := by
  rw [Char.isDigit, Bool.and_eq_true, decide_eq_true_eq, decide_eq_true_eq] at h
  exact Char.utf8Size_eq_one_iff.mpr (UInt32.le_trans h.2 (by decide))

theorem Decimal.len_eq {t : Text} (h : Decimal t) : len t = t.length := by
  rw [len, List.map_congr_left fun c hc => utf8Size_of_isDigit (h.2 c hc), List.map_const',
    List.sum_replicate, smul_eq_mul, mul_one]

theorem len_pad {width n : ℕ} (hpos : 0 < width) (hn : n < 10 ^ width) :
    len (pad width n) = width := by
  rw [(decimal_pad width n).len_eq, length_pad hpos hn]

/-! ## White space around a string -/

theorem isWhitespace_of_isDigit {c : Char} (h : c.isDigit = true) : isWhitespace c = false := by
  have hrange : 48 ≤ c.toNat ∧ c.toNat ≤ 57 := Char.isDigit_iff_toNat.mp h
  simp only [isWhitespace, Bool.or_eq_false_iff, Bool.and_eq_false_iff, beq_eq_false_iff_ne,
    decide_eq_false_iff_not]
  omega

/-- There is nothing to trim off. -/
theorem trim_eq_self {t : Text} (hhead : ∀ c ∈ t.head?, isWhitespace c = false)
    (hlast : ∀ c ∈ t.getLast?, isWhitespace c = false) : trim t = t := by
  have hdrop : t.dropWhile isWhitespace = t := by
    cases t with
    | nil => rfl
    | cons c t => exact List.dropWhile_cons_of_neg (by rw [hhead c rfl]; decide)
  rw [trim, hdrop, List.rdropWhile_eq_self_iff]
  intro hne
  rw [hlast _ (List.getLast?_eq_some_getLast hne)]
  decide

theorem trim_trim (t : Text) : trim (trim t) = trim t := by
  have hhead : (trim t).dropWhile isWhitespace = trim t := by
    rw [List.dropWhile_eq_self_iff]
    intro hpos
    -- the first character is the one that the front was cut at
    have hcut : trim t <+: t.dropWhile isWhitespace := List.rdropWhile_prefix _ _
    rw [hcut.getElem hpos]
    exact List.dropWhile_get_zero_not _ t (hpos.trans_le hcut.length_le)
  rw [trim, hhead]
  exact List.rdropWhile_idempotent _ _

/-- The white space that is trimmed off at the front. -/
def leading (t : Text) : Text := t.takeWhile isWhitespace

/-- The white space that is trimmed off at the end. -/
def trailing (t : Text) : Text := (t.dropWhile isWhitespace).rtakeWhile isWhitespace

theorem trim_split (t : Text) : t = leading t ++ (trim t ++ trailing t) := by
  rw [trim, trailing, List.rdropWhile_append_rtakeWhile]
  exact List.takeWhile_append_dropWhile.symm

theorem isWhitespace_of_mem_leading {t : Text} {c : Char} (h : c ∈ leading t) :
    isWhitespace c = true :=
  List.mem_takeWhile_imp h

theorem isWhitespace_of_mem_trailing {t : Text} {c : Char} (h : c ∈ trailing t) :
    isWhitespace c = true :=
  List.mem_rtakeWhile_imp h

/-- Something is left if not all of it is white space. -/
theorem trim_eq_nil {t : Text} : trim t = [] ↔ ∀ c ∈ t, isWhitespace c = true := by
  constructor
  · intro hnil c hc
    rw [trim_split t, hnil, List.nil_append] at hc
    exact (List.mem_append.mp hc).elim isWhitespace_of_mem_leading isWhitespace_of_mem_trailing
  · intro hall
    rw [trim, List.dropWhile_eq_nil_iff.mpr hall]
    rfl

/-! ## A separator -/

/-- `find` with a predicate: the offset of the first such character. -/
def findChar (p : Char → Bool) : Text → Option ℕ
  | [] => none
  | c :: t => if p c then some 0 else (findChar p t).map fun n => c.utf8Size + n

/-- `find` with a string: the offset of the first occurrence. -/
def findStr (pat : Text) : Text → Option ℕ
  | [] => if pat.isEmpty then some 0 else none
  | c :: t =>
    if pat.isPrefixOf (c :: t) then some 0 else (findStr pat t).map fun n => c.utf8Size + n

/-- The pieces between the occurrences of a pattern; the number is what is left of one. -/
def splitFrom (pat : Text) : ℕ → Text → List Text
  | _, [] => [[]]
  | k + 1, _ :: t => splitFrom pat k t
  | 0, c :: t =>
    if pat.isPrefixOf (c :: t) then [] :: splitFrom pat (pat.length - 1) t
    else (splitFrom pat 0 t).modifyHead (c :: ·)

/-- `split` with a string pattern -/
def splitStr (t pat : Text) : List Text := splitFrom pat 0 t

theorem findChar_eq_none {p : Char → Bool} {t : Text} :
    findChar p t = none ↔ ∀ c ∈ t, p c = false := by
  induction t with
  | nil => simp [findChar]
  | cons c t ih =>
    rw [findChar, List.forall_mem_cons]
    split
    next hc => simp [hc]
    next hc => rw [Option.map_eq_none_iff, ih, and_iff_right (Bool.eq_false_iff.mpr hc)]

/-- What is before the first one. -/
theorem findChar_append {p : Char → Bool} {a b : Text} {c : Char} (ha : ∀ x ∈ a, p x = false)
    (hc : p c = true) : findChar p (a ++ c :: b) = some (len a) := by
  induction a with
  | nil => simp [findChar, hc, len]
  | cons x a ih =>
    obtain ⟨hx, ha⟩ := List.forall_mem_cons.mp ha
    rw [List.cons_append, findChar, hx, ih ha, len_cons]
    rfl

/-- No occurrence starts where its first character is not. -/
theorem findStr_append {x : Char} {pat a : Text} (t : Text) (ha : x ∉ a) :
    findStr (x :: pat) (a ++ t) = (findStr (x :: pat) t).map fun n => len a + n := by
  induction a with
  | nil => simp [len]
  | cons c a ih =>
    rw [List.mem_cons, not_or] at ha
    have hprefix : ¬(x :: pat).isPrefixOf (c :: (a ++ t)) = true := by
      simp [ha.1]
    rw [List.cons_append, findStr, if_neg hprefix, ih ha.2, Option.map_map]
    refine congrArg (Option.map · _) (funext fun n => ?_)
    rw [Function.comp_apply, len_cons, Nat.add_assoc]

theorem splitFrom_ne_nil (pat : Text) (k : ℕ) (t : Text) : splitFrom pat k t ≠ [] := by
  induction t generalizing k with
  | nil => simp [splitFrom]
  | cons c t ih =>
    cases k with
    | succ k => exact ih k
    | zero =>
      rw [splitFrom]
      split
      next => exact List.cons_ne_nil _ _
      next =>
        rw [Ne, List.modifyHead_eq_nil_iff]
        exact ih 0

theorem intercalate_modifyHead (pat : Text) (c : Char) {pieces : List Text} (h : pieces ≠ []) :
    pat.intercalate (pieces.modifyHead (c :: ·)) = c :: pat.intercalate pieces := by
  cases pieces with
  | nil => exact absurd rfl h
  | cons w pieces =>
    rw [List.modifyHead_cons]
    cases pieces with
    | nil => simp [List.intercalate_singleton]
    | cons w' pieces => simp [List.intercalate_cons_cons]

theorem intercalate_splitFrom {pat : Text} (hpat : pat ≠ []) (k : ℕ) (t : Text) :
    pat.intercalate (splitFrom pat k t) = t.drop k := by
  induction t generalizing k with
  | nil => simp [splitFrom, List.intercalate_singleton]
  | cons c t ih =>
    cases k with
    | succ k => rw [splitFrom, ih, List.drop_succ_cons]
    | zero =>
      rw [splitFrom, List.drop_zero]
      split
      next hprefix =>
        obtain ⟨rest, hrest⟩ := List.isPrefixOf_iff_prefix.mp hprefix
        obtain ⟨x, pat', rfl⟩ := List.exists_cons_of_ne_nil hpat
        have hdrop : t.drop pat'.length = rest :=
          (List.cons.inj hrest).2 ▸ List.drop_left
        rw [List.intercalate_cons_of_ne_nil (splitFrom_ne_nil _ _ _), ih, List.length_cons,
          Nat.add_sub_cancel, hdrop, List.nil_append, hrest]
      next =>
        rw [intercalate_modifyHead _ _ (splitFrom_ne_nil _ _ _), ih, List.drop_zero]

/-- **The pieces with the separator between them are the string.** -/
theorem intercalate_splitStr {pat : Text} (hpat : pat ≠ []) (t : Text) :
    pat.intercalate (splitStr t pat) = t :=
  intercalate_splitFrom hpat 0 t

end Text

end SynapseMemory
