import SynapseMemory.RegexParts
import SynapseMemory.Text

/-!
# The masking of personal data

The model of `PiiMasker` of `synapse-compliance`: its nine rules and `mask`, which replaces the
matches of one rule after the other by a placeholder. The tables behind `\d` and `\w` are a class,
pinned on ASCII.

A placeholder is inert for every rule: no match has a bracket in it, and every match has a digit or
an `@`. All rules but the one for phone numbers match from one word boundary to another, so what
they leave has no match of theirs, and they create none for the rules before them. A phone number is
found within a word, too. Once it is replaced, what stood beside it ends at a word boundary, and may
be an e-mail address or an IBAN that was none before. The rules for these have already been applied.

So a text is masked completely exactly if nothing of this kind is left between the phone numbers
(`mask_complete_iff`), as long as no number of matches is too large for 32 bits.
-/

namespace SynapseMemory.Compliance

open Regex

/-- The classes `\d` and `\w`. -/
class PerlClasses extends WordChars where
  digit : Char → Bool
  isWord_ascii : ∀ c : Char, c.val < 128 → isWord c = (c.isAlphanum || c == '_')
  digit_ascii : ∀ c : Char, c.val < 128 → digit c = c.isDigit

/-- The smallest classes: nothing beyond ASCII. -/
@[reducible] def PerlClasses.asciiOnly : PerlClasses where
  isWord c := c.isAlphanum || c == '_'
  digit := Char.isDigit
  isWord_ascii _ _ := rfl
  digit_ascii _ _ := rfl

/-- `PiiType` -/
inductive PiiType where
  | email
  | phone
  | iban
  | creditCard
  | taxId
  | passport
  | ipAddress
  | dateOfBirth
  | streetAddress
  deriving DecidableEq

/-- `as_str` -/
def PiiType.asStr : PiiType → Text
  | .email => "email".toList
  | .phone => "phone".toList
  | .iban => "iban".toList
  | .creditCard => "credit_card".toList
  | .taxId => "tax_id".toList
  | .passport => "passport".toList
  | .ipAddress => "ip".toList
  | .dateOfBirth => "dob".toList
  | .streetAddress => "address".toList

/-- `PiiRule` -/
structure PiiRule where
  piiType : PiiType
  pattern : Regex

/-! ## The rules -/

/-- One of these characters. -/
def oneOf (s : String) (c : Char) : Bool := s.toList.contains c

/-- `[A-Za-z0-9]` -/
def alnum (c : Char) : Bool := c.isUpper || c.isLower || c.isDigit

section

variable [PerlClasses]

/-- `\d` -/
def d : Regex := .cls PerlClasses.digit

/-- `\s` -/
def space : Regex := .cls Text.isWhitespace

/-- `p{n}` -/
def exactly (r : Regex) (n : ℕ) : Regex := between r n n

/-- `\b[A-Za-z0-9._%+-]+@[A-Za-z0-9.-]+\.[A-Z|a-z]{2,}\b` -/
def email : Regex :=
  let tld := fun c : Char => c.isUpper || c == '|' || c.isLower
  bounded (.seq (plus fun c => alnum c || oneOf "._%+-" c) (.seq (lit ['@'])
    (.seq (plus fun c => alnum c || oneOf ".-" c) (.seq (lit ['.'])
      (.seq (exactly (.cls tld) 2) (.many tld))))))

/-- `\b[A-Z]{2}\d{2}(?:\s?\d{2,4}){4,12}\b` -/
def iban : Regex :=
  bounded (.seq (exactly (.cls Char.isUpper) 2) (.seq (exactly d 2)
    (between (.seq (opt space) (between d 2 4)) 4 12)))

/-- The only rule without `\b`. -/
def phone : Regex :=
  -- (?:\+49|0)[\s\-/]?(?:\d[\s\-/]?){6,14}\d
  let sep := Regex.cls fun c => Text.isWhitespace c || oneOf "-/" c
  .seq (.alt (lit ['+', '4', '9']) (lit ['0'])) (.seq (opt sep)
    (.seq (between (.seq d (opt sep)) 6 14) d))

/-- `\b(?:\d[ -]?){13,16}\b` -/
def creditCard : Regex := bounded (between (.seq d (opt (.cls (oneOf " -")))) 13 16)

/-- `\b\d{2}\.?\d{3}\.?\d{3}\.?\d{3}\b` -/
def taxId : Regex :=
  let dot := opt (lit ['.'])
  bounded (.seq (exactly d 2) (.seq dot (.seq (exactly d 3) (.seq dot (.seq (exactly d 3)
    (.seq dot (exactly d 3)))))))

/-- `\b[A-Z]{2}\d{8}\b` -/
def passport : Regex := bounded (.seq (exactly (.cls Char.isUpper) 2) (exactly d 8))

/-- `25[0-5]|2[0-4]\d|[01]?\d\d?` -/
def octet : Regex :=
  .alt (.seq (lit ['2', '5']) (.cls (oneOf "012345"))) (.alt
    (.seq (lit ['2']) (.seq (.cls (oneOf "01234")) d))
    (.seq (opt (.cls (oneOf "01"))) (.seq d (opt d))))

/-- `\b(?:(?:25[0-5]|2[0-4]\d|[01]?\d\d?)\.){3}(?:25[0-5]|2[0-4]\d|[01]?\d\d?)\b` -/
def ipAddress : Regex := bounded (.seq (exactly (.seq octet (lit ['.'])) 3) octet)

/-- `\b\d{1,2}\.\d{1,2}\.\d{2,4}\b` -/
def dateOfBirth : Regex :=
  bounded (.seq (between d 1 2) (.seq (lit ['.']) (.seq (between d 1 2) (.seq (lit ['.'])
    (between d 2 4)))))

/-- `\b[A-ZÄÖÜ][a-zäöüß]+(?:straße|weg|gasse|allee|platz)\s+\d+\b` -/
def streetAddress : Regex :=
  bounded (.seq (.cls fun c => c.isUpper || oneOf "ÄÖÜ" c)
    (.seq (plus fun c => c.isLower || oneOf "äöüß" c)
      (.seq (.alt (lit "straße".toList) (.alt (lit "weg".toList) (.alt (lit "gasse".toList)
        (.alt (lit "allee".toList) (lit "platz".toList)))))
        (.seq (plus Text.isWhitespace) (plus PerlClasses.digit)))))

/-- The rules that come before the one for phone numbers. -/
def earlyRules : List PiiRule := [⟨.email, email⟩, ⟨.iban, iban⟩]

/-- The rule of the phone numbers. -/
def phoneRule : PiiRule := ⟨.phone, phone⟩

/-- The rules that come after it. -/
def lateRules : List PiiRule :=
  [⟨.creditCard, creditCard⟩, ⟨.taxId, taxId⟩, ⟨.passport, passport⟩, ⟨.ipAddress, ipAddress⟩,
    ⟨.dateOfBirth, dateOfBirth⟩, ⟨.streetAddress, streetAddress⟩]

/-- The rules, in the order in which they are tried. -/
def rules : List PiiRule := earlyRules ++ phoneRule :: lateRules

/-! ## The masking -/

/-- What a match is replaced by. -/
def PiiRule.placeholder (r : PiiRule) : Text :=
  '[' :: ("REDACTED:".toList ++ r.piiType.asStr ++ [']'])

/-- The number of matches. -/
def PiiRule.count (r : PiiRule) (t : Text) : ℕ := r.pattern.countMatches 0 false t

/-- `replace_all` -/
def PiiRule.replace (r : PiiRule) (t : Text) : Text := r.pattern.replaceAll r.placeholder 0 false t

/-- One rule. The number is cut to 32 bits. Each rule has a type of its own, so each adds an entry
to the counts. -/
def applyRule (s : Text × List (PiiType × ℕ)) (r : PiiRule) : Text × List (PiiType × ℕ) :=
  let count := r.count s.1 % 2 ^ 32
  if 0 < count then (r.replace s.1, s.2 ++ [(r.piiType, count)]) else s

/-- `mask`, with the number of matches of each rule. -/
def mask (t : Text) : Text × List (PiiType × ℕ) := rules.foldl applyRule (t, [])

/-- `mask_str` -/
def maskStr (t : Text) : Text := (mask t).1

/-! ## What the rules have in common -/

/-- The characters of which every match has one. -/
def key (c : Char) : Bool := c == '@' || PerlClasses.digit c

theorem needs_d : d.Needs key := Needs.cls fun c hc => by simp [key, hc]

theorem digit_of_ascii {c : Char} (h : c.isDigit = true) : PerlClasses.digit c = true := by
  have hascii : c.val < 128 := by
    have hrange : 48 ≤ c.toNat ∧ c.toNat ≤ 57 := Char.isDigit_iff_toNat.mp h
    exact UInt32.lt_iff_toNat_lt.mpr (by change c.toNat < 128; omega)
  rw [PerlClasses.digit_ascii c hascii, h]

theorem needs_lit {c : Char} (hc : key c = true) (s : List Char) : (lit (c :: s)).Needs key :=
  Needs.left (Needs.cls fun d hd => by rwa [beq_iff_eq.mp hd]) _

/-- An octet has a digit. -/
theorem needs_octet : octet.Needs key := by
  have htwo : key '2' = true := by simp [key, digit_of_ascii (show '2'.isDigit = true from rfl)]
  exact Needs.alt (Needs.left (needs_lit htwo _) _)
    (Needs.alt (Needs.left (needs_lit htwo _) _) (Needs.right (needs_d.left _) _))

theorem needs_between {r : Regex} (h : r.Needs key) (m n : ℕ) : (between r (m + 1) n).Needs key :=
  h.times (Nat.succ_pos m) _

/-- Every match has a digit or an `@`. -/
theorem needs_of_mem {r : PiiRule} (hr : r ∈ rules) : r.pattern.Needs key := by
  simp only [rules, earlyRules, lateRules, phoneRule, List.mem_append, List.mem_cons,
    List.not_mem_nil, or_false] at hr
  rcases hr with (rfl | rfl) | rfl | rfl | rfl | rfl | rfl | rfl | rfl
  · exact (((needs_lit rfl []).left _).right _).bounded
  · exact (((needs_between needs_d 1 2).left _).right _).bounded
  · exact ((needs_d.right _).right _).right _
  · exact (needs_between (needs_d.left _) 12 16).bounded
  · exact ((needs_between needs_d 1 2).left _).bounded
  · exact ((needs_between needs_d 7 8).right _).bounded
  · exact (needs_octet.right _).bounded
  · exact ((needs_between needs_d 0 2).left _).bounded
  · exact ((((needs_d.left _).right _).right _).right _ |>.right _).bounded

/-- The two characters around a placeholder. -/
inductive IsBracket : Char → Prop where
  | opening : IsBracket '['
  | closing : IsBracket ']'

theorem digit_bracket {c : Char} (h : IsBracket c) : PerlClasses.digit c = false := by
  cases h with
  | opening => exact PerlClasses.digit_ascii '[' (by decide)
  | closing => exact PerlClasses.digit_ascii ']' (by decide)

theorem isWord_bracket {c : Char} (h : IsBracket c) : WordChars.isWord c = false := by
  cases h with
  | opening => exact PerlClasses.isWord_ascii '[' (by decide)
  | closing => exact PerlClasses.isWord_ascii ']' (by decide)

/-- No match has a bracket in it. -/
theorem cuts_of_mem {r : PiiRule} (hr : r ∈ rules) {c : Char} (hc : IsBracket c) :
    r.pattern.Cuts c := by
  refine ⟨?_, isWord_bracket hc⟩
  have hdigit : PerlClasses.digit c = false := digit_bracket hc
  simp only [rules, earlyRules, lateRules, phoneRule, List.mem_append, List.mem_cons,
    List.not_mem_nil, or_false] at hr
  cases hc <;>
  rcases hr with (rfl | rfl) | rfl | rfl | rfl | rfl | rfl | rfl | rfl <;>
    simp +decide [iban, phone, creditCard, taxId, passport, ipAddress, octet, dateOfBirth,
      streetAddress, bounded, exactly, plus, opt, d, space, avoids, avoids_between, avoids_lit,
      hdigit]

/-- What a placeholder says has nothing of a match. -/
theorem key_label (ty : PiiType) : ∀ c ∈ "REDACTED:".toList ++ ty.asStr, key c = false := by
  have hascii : ("REDACTED:".toList ++ ty.asStr).all
      (fun c => decide (c.val < 128) && !c.isDigit && c != '@') = true := by
    cases ty <;> decide
  intro c hc
  have hplain := List.all_eq_true.mp hascii c hc
  simp only [Bool.and_eq_true, decide_eq_true_eq, Bool.not_eq_true', bne_iff_ne] at hplain
  obtain ⟨⟨hlt, hdigit⟩, hat⟩ := hplain
  simp [key, hat, PerlClasses.digit_ascii c hlt, hdigit]

/-- A placeholder is inert for the pattern of every rule. -/
theorem inert_placeholder (r : PiiRule) {R : PiiRule} (hR : R ∈ rules) :
    R.pattern.Inert r.placeholder :=
  ⟨'[', "REDACTED:".toList ++ r.piiType.asStr, ']', rfl, cuts_of_mem hR .opening,
    cuts_of_mem hR .closing, (needs_of_mem hR).not_occurs (key_label r.piiType)⟩

/-- Every rule consumes something. -/
theorem consuming_of_mem {r : PiiRule} (hr : r ∈ rules) : r.pattern.Consuming :=
  (needs_of_mem hr).consuming

/-- The late rules need a word's boundary. -/
theorem bounded_of_late {r : PiiRule} (hr : r ∈ lateRules) : r.pattern.Bounded := by
  simp only [lateRules, List.mem_cons, List.not_mem_nil, or_false] at hr
  rcases hr with rfl | rfl | rfl | rfl | rfl | rfl <;> exact bounded_bounded _

/-- The rule of the phone numbers does not. -/
theorem unbounded_phone : phoneRule.pattern.Unbounded := unbounded_of_plain rfl

theorem mem_rules_of_early {r : PiiRule} (hr : r ∈ earlyRules) : r ∈ rules :=
  List.mem_append_left _ hr

theorem phoneRule_mem_rules : phoneRule ∈ rules :=
  List.mem_append_right _ List.mem_cons_self

theorem mem_rules_of_late {r : PiiRule} (hr : r ∈ lateRules) : r ∈ rules :=
  List.mem_append_right _ (List.mem_cons_of_mem _ hr)

/-! ## One rule after the other -/

/-- What the rules make of a text, one after the other. -/
def masked (rs : List PiiRule) (t : Text) : Text := rs.foldl (fun t r => r.replace t) t

/-- No number of matches becomes zero in 32 bits. -/
def NoWrap : List PiiRule → Text → Prop
  | [], _ => True
  | r :: rs, t => (r.count t % 2 ^ 32 = 0 → r.count t = 0) ∧ NoWrap rs (r.replace t)

/-- A rule replaces its matches, or nothing. -/
theorem applyRule_fst (s : Text × List (PiiType × ℕ)) (r : PiiRule) :
    (applyRule s r).1 = r.replace s.1 ∨ (applyRule s r).1 = s.1 := by
  rw [applyRule]
  split
  · exact .inl rfl
  · exact .inr rfl

/-- It replaces them unless their count wraps around. -/
theorem applyRule_of_noWrap {s : Text × List (PiiType × ℕ)} {r : PiiRule}
    (h : r.count s.1 % 2 ^ 32 = 0 → r.count s.1 = 0) : (applyRule s r).1 = r.replace s.1 := by
  rw [applyRule]
  split
  next => rfl
  next hcount =>
    have hzero : r.count s.1 = 0 := h (Nat.eq_zero_of_not_pos hcount)
    exact (replaceAll_of_countMatches hzero).symm

/-- So do all rules. -/
theorem foldl_applyRule {rs : List PiiRule} {s : Text × List (PiiType × ℕ)} (h : NoWrap rs s.1) :
    (rs.foldl applyRule s).1 = masked rs s.1 := by
  induction rs generalizing s with
  | nil => rfl
  | cons r rs ih =>
    have hstep := applyRule_of_noWrap h.1
    rw [List.foldl_cons, ih (by rw [hstep]; exact h.2), hstep]
    rfl

/-- The masked text, if no count wraps around. -/
theorem maskStr_eq {t : Text} (h : NoWrap rules t) : maskStr t = masked rules t :=
  foldl_applyRule (s := (t, [])) h

/-- A text without matches stays as it is. -/
theorem maskStr_of_not_occurs {t : Text} (h : ∀ r ∈ rules, ¬r.pattern.Occurs false t) :
    maskStr t = t := by
  have hfold : ∀ rs ⊆ rules, ∀ s : Text × List (PiiType × ℕ), s.1 = t →
      (rs.foldl applyRule s).1 = t := by
    intro rs hrs
    induction rs with
    | nil => exact fun _ hs => hs
    | cons r rs ih =>
      obtain ⟨hr, hrs⟩ := List.cons_subset.mp hrs
      refine fun s hs => ih hrs _ ?_
      subst hs
      exact (applyRule_fst s r).elim (fun hst => hst.trans (replaceAll_of_not_occurs (h r hr))) id
  exact hfold rules (List.Subset.refl _) (t, []) rfl

theorem masked_append (rs rs' : List PiiRule) (t : Text) :
    masked (rs ++ rs') t = masked rs' (masked rs t) := List.foldl_append

/-- The text is masked by the early rules, the phone numbers, and the late rules. -/
theorem masked_rules (t : Text) :
    masked rules t = masked lateRules (phoneRule.replace (masked earlyRules t)) :=
  masked_append _ _ t

/-- The later rules create no match of any rule. -/
theorem occurs_of_masked {rs : List PiiRule} (hrs : rs ⊆ lateRules) {R : PiiRule} (hR : R ∈ rules)
    {t : Text} (h : R.pattern.Occurs false (masked rs t)) : R.pattern.Occurs false t := by
  induction rs generalizing t with
  | nil => exact h
  | cons r rs ih =>
    obtain ⟨hr, hrs⟩ := List.cons_subset.mp hrs
    have hmem := mem_rules_of_late hr
    exact occurs_of_replaceAll (consuming_of_mem hmem) (bounded_of_late hr)
      (inert_placeholder r hR) (ih hrs h)

/-- They leave none of their own. -/
theorem not_occurs_masked {rs : List PiiRule} (hrs : rs ⊆ lateRules) {r : PiiRule} (hr : r ∈ rs)
    (t : Text) : ¬r.pattern.Occurs false (masked rs t) := by
  induction rs generalizing t with
  | nil => cases hr
  | cons q rs ih =>
    obtain ⟨hq, hrest⟩ := List.cons_subset.mp hrs
    rcases List.mem_cons.mp hr with rfl | hr
    · have hmem := mem_rules_of_late hq
      have hgone := not_occurs_replaceAll (consuming_of_mem hmem) (.inr (bounded_of_late hq))
        (inert_placeholder r hmem) t
      exact fun hocc => hgone (occurs_of_masked hrest hmem hocc)
    · exact ih hrest hr _

/-- They work on what is between the phone numbers, part for part. -/
theorem masked_intercalate {rs : List PiiRule} (hrs : rs ⊆ lateRules) {ps : List Text}
    (hps : ps ≠ []) : masked rs (phoneRule.placeholder.intercalate ps) =
      phoneRule.placeholder.intercalate (ps.map (masked rs)) := by
  induction rs generalizing ps with
  | nil => rw [show masked [] = id from rfl, List.map_id]; rfl
  | cons r rs ih =>
    obtain ⟨hr, hrs⟩ := List.cons_subset.mp hrs
    have hinert := inert_placeholder phoneRule (mem_rules_of_late hr)
    change masked rs (r.pattern.replaceAll _ 0 false _) = _
    rw [hinert.replaceAll_intercalate _ hps, ih hrs (List.map_eq_nil_iff.not.mpr hps), List.map_map]
    rfl

/-! ## The masking is complete -/

/-- Nothing that is left matches a rule, and to mask once more changes nothing. -/
def Complete (t : Text) : Prop :=
  (∀ r ∈ rules, ¬r.pattern.Occurs false (maskStr t)) ∧ maskStr (maskStr t) = maskStr t

/-- No e-mail address and no IBAN is left in what stands between the phone numbers. -/
def PhonesApart (t : Text) : Prop :=
  ∀ p ∈ phone.parts 0 false (masked earlyRules t), ∀ r ∈ earlyRules,
    ¬r.pattern.Occurs false (masked lateRules p)

theorem masked_rules_parts (t : Text) : masked rules t = phoneRule.placeholder.intercalate
    ((phone.parts 0 false (masked earlyRules t)).map (masked lateRules)) := by
  rw [masked_rules, PiiRule.replace, ← intercalate_parts,
    masked_intercalate (List.Subset.refl _) (parts_ne_nil _ _ _ _)]
  rfl

/-- Where a match of an early rule is left. -/
theorem occurs_early {r : PiiRule} (hr : r ∈ earlyRules) (t : Text) :
    r.pattern.Occurs false (masked rules t) ↔
      ∃ p ∈ phone.parts 0 false (masked earlyRules t),
        r.pattern.Occurs false (masked lateRules p) := by
  have hinert := inert_placeholder phoneRule (mem_rules_of_early hr)
  rw [masked_rules_parts,
    hinert.occurs_intercalate (List.map_eq_nil_iff.not.mpr (parts_ne_nil _ _ _ _))]
  simp

/-- No phone number is left. -/
theorem not_occurs_phone (t : Text) : ¬phone.Occurs false (masked rules t) := by
  intro h
  rw [masked_rules] at h
  exact not_occurs_replaceAll (consuming_of_mem phoneRule_mem_rules) (.inl unbounded_phone)
    (inert_placeholder phoneRule phoneRule_mem_rules) _
    (occurs_of_masked (List.Subset.refl _) phoneRule_mem_rules h)

/-- The matches that are left are matches of the rules before the one for phone numbers. -/
theorem not_occurs_rules_iff (t : Text) :
    (∀ r ∈ rules, ¬r.pattern.Occurs false (masked rules t)) ↔ PhonesApart t := by
  have hearly : (∀ r ∈ earlyRules, ¬r.pattern.Occurs false (masked rules t)) ↔ PhonesApart t := by
    refine ⟨fun h p hp r hr hocc => ?_, fun h r hr hocc => ?_⟩
    · exact h r hr ((occurs_early hr t).mpr ⟨p, hp, hocc⟩)
    · obtain ⟨p, hp, hpocc⟩ := (occurs_early hr t).mp hocc
      exact h p hp r hr hpocc
  rw [← hearly]
  refine ⟨fun h r hr => h r (mem_rules_of_early hr), fun h r hr => ?_⟩
  rcases List.mem_append.mp hr with hr | hr
  · exact h r hr
  · rcases List.mem_cons.mp hr with rfl | hr
    · exact not_occurs_phone t
    · rw [masked_rules]
      exact not_occurs_masked (List.Subset.refl _) hr _

/-- **The masking is complete exactly if the phone numbers stand apart.** -/
theorem mask_complete_iff (t : Text) :
    (NoWrap rules t ∧ PhonesApart t → Complete t) ∧
      (NoWrap rules t ∧ Complete t → PhonesApart t) := by
  refine ⟨?_, ?_⟩
  · rintro ⟨hwrap, hapart⟩
    have hnone := (not_occurs_rules_iff t).mpr hapart
    rw [← maskStr_eq hwrap] at hnone
    exact ⟨hnone, maskStr_of_not_occurs hnone⟩
  · rintro ⟨hwrap, hnone, -⟩
    rw [maskStr_eq hwrap] at hnone
    exact (not_occurs_rules_iff t).mp hnone

end

/-- An e-mail address that is none before the phone number behind it is replaced. -/
theorem phone_uncovers_email : ¬@Complete .asciiOnly "a@b.com01234567".toList := by
  let _ : PerlClasses := .asciiOnly
  rintro ⟨hnone, -⟩
  have hmask : maskStr "a@b.com01234567".toList = "a@b.com[REDACTED:phone]".toList := by
    decide +kernel
  have hmatch : email.matchLength false "a@b.com[REDACTED:phone]".toList ≠ 0 := by decide +kernel
  rw [hmask] at hnone
  exact hnone ⟨.email, email⟩ List.mem_cons_self ⟨[], _, rfl, here_of_matchLength hmatch⟩

end SynapseMemory.Compliance
