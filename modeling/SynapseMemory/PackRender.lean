import SynapseMemory.PackCompression

/-!
# What a rendered pack costs

`pack` spends the budget on the texts of the blocks, and keeps a reserve for the header of at most a
quarter of it. `render` puts the header in front and a label before each block.

Header and labels are apart from what follows them, so the counts of the rendered text are those of
the header, the labels and the texts together (`tally_render`): a header has eleven words and more,
a label has three words and four runs of punctuation. `render_within_iff_counts` says with these
numbers which packs stay in the budget, and `render_within` of which candidates and options all do:
there has to be room for the header and for a label of each candidate.
-/

namespace SynapseMemory

namespace Pack

open Runs

variable {S : Type}

section Pieces

variable [Unicode]

/-- Beyond ASCII the tables are open, on ASCII they are not. -/
theorem tally_ascii {t : Text} (h : t.all (fun c => c.val < 128) = true) :
    tally t = @tally Unicode.asciiOnly t := by
  have hascii : ∀ c ∈ t, c.val < 128 := fun c hc => of_decide_eq_true (List.all_eq_true.mp h c hc)
  have hword : ∀ c ∈ t, isWordChar c = @isWordChar Unicode.asciiOnly c := fun c hc => by
    rw [isWordChar, Unicode.ascii c (hascii c hc)]
    rfl
  have hpunct : ∀ c ∈ t, isPunctChar c = @isPunctChar Unicode.asciiOnly c := fun c hc => by
    rw [isPunctChar, Unicode.ascii c (hascii c hc)]
    rfl
  rw [tally, runs_congr hword, runs_congr hpunct]
  rfl

theorem isWordChar_of_isDigit {c : Char} (h : c.isDigit = true) : isWordChar c = true := by
  have hrange : 48 ≤ c.toNat ∧ c.toNat ≤ 57 := Char.isDigit_iff_toNat.mp h
  have hcjk : isCjk c = false := by
    simp only [isCjk, Bool.or_eq_false_iff, Bool.and_eq_false_iff, decide_eq_false_iff_not]
    omega
  have hascii : c.val < 128 := UInt32.lt_iff_toNat_lt.mpr (by
    have : c.val.toNat = c.toNat := rfl
    rw [this]
    exact hrange.2.trans_lt (by decide))
  rw [isWordChar, hcjk, Text.isWhitespace_of_isDigit h, Unicode.ascii c hascii, Char.isAlphanum, h]
  simp

/-- A character is of one class. -/
theorem class_of_word {c : Char} (h : isWordChar c = true) :
    isPunctChar c = false ∧ isCjk c = false := by
  revert h
  unfold isWordChar isPunctChar
  cases isCjk c <;> cases (Unicode.isAlphanumeric c || c == '_') <;> simp

/-- Word characters with nothing between them are one word. -/
theorem tally_word {t : Text} (hne : t ≠ []) (h : ∀ c ∈ t, isWordChar c = true) :
    tally t = counts t.length 1 0 0 := by
  have hcjk : t.countP isCjk = 0 :=
    List.countP_eq_zero.mpr fun c hc => ne_true_of_eq_false (class_of_word (h c hc)).2
  rw [tally, runs_eq_one hne h, runs_eq_zero fun c hc => (class_of_word (h c hc)).1, hcjk]

theorem tally_decimal {t : Text} (h : Text.Decimal t) : tally t = counts t.length 1 0 0 :=
  tally_word h.1 fun c hc => isWordChar_of_isDigit (h.2 c hc)

/-- A word and punctuation are apart. -/
theorem apart_of_word {s t : Text}
    (h : ∀ a ∈ s.getLast?, ∀ b ∈ t.head?, isWordChar a ≠ isWordChar b) : Apart s t := by
  refine ⟨fun a ha b hb hword => ?_, fun a ha b hb hpunct => ?_⟩
  · have hne := h a ha b hb
    rw [hword] at hne
    exact eq_false_of_ne_true hne.symm
  · have hword : isWordChar a = false := by
      by_contra hword
      rw [(class_of_word (eq_true_of_ne_false hword)).1] at hpunct
      cases hpunct
    have hne := h a ha b hb
    rw [hword] at hne
    exact (class_of_word (eq_true_of_ne_false hne.symm)).1

/-- A blank or a newline belongs to no word and no punctuation. -/
theorem tally_append_cons {c : Char} (h : c = ' ' ∨ c = '\n') (s t : Text) :
    tally (s ++ c :: t) = tally s + (counts 1 0 0 0 + tally t) := by
  have hwhite : Text.isWhitespace c = true := by rcases h with rfl | rfl <;> rfl
  have hone : tally [c] = counts 1 0 0 0 := by
    rcases h with rfl | rfl <;> funext k <;> cases k <;> rfl
  have hfront : Apart s (c :: t) := apart_of_head fun x hx => by
    obtain rfl := Option.some.inj hx
    exact hwhite
  have hback : Apart [c] t := apart_of_getLast fun x hx => by
    obtain rfl := Option.some.inj hx
    exact hwhite
  rw [tally_append hfront, ← hone, ← tally_append hback, List.singleton_append]

/-- What stands between words in a label and in the header. -/
theorem isWordChar_separator {c : Char} (h : c = '|' ∨ c = '/') : isWordChar c = false := by
  rcases h with rfl | rfl <;> rw [isWordChar, Unicode.ascii _ (by decide)] <;> rfl

omit [Unicode] in
theorem decimal_nat (n : ℕ) : Text.Decimal (toString n).toList := by
  have hlist : (toString n).toList = Nat.toDigits 10 n := Nat.toList_repr
  rw [hlist]
  exact ⟨Nat.toDigits_ne_nil, fun c hc => Nat.isDigit_of_mem_toDigits (by decide) (by decide) hc⟩

/-- A bracket, with the sign of the number after it, is one run of punctuation. -/
theorem tally_bracket {s t : Text} (hs : s = ['['] ∨ s = ['[', '-']) (ht : Text.Decimal t) :
    tally (s ++ t) = counts (s.length + t.length) 1 1 0 := by
  have htally : tally s = counts s.length 0 1 0 := by
    rw [tally_ascii (by rcases hs with rfl | rfl <;> decide)]
    rcases hs with rfl | rfl <;> funext k <;> cases k <;> rfl
  have hlast : ∀ a ∈ s.getLast?, isWordChar a = false := by
    rcases hs with rfl | rfl <;> intro a ha <;> obtain rfl := Option.some.inj ha <;>
      rw [isWordChar, Unicode.ascii _ (by decide)] <;> rfl
  have hapart : Apart s t := apart_of_word fun a ha b hb => by
    rw [hlast a ha, isWordChar_of_isDigit (ht.2 b (List.mem_of_head? hb))]
    exact Bool.false_ne_true
  rw [tally_append hapart, htally, tally_decimal ht]
  funext k
  cases k <;> simp [counts]

omit [Unicode] in
/-- The first line of a pack without a delta, cut at the blanks, and the blocks. -/
theorem render_eq (savings : Text) {p : Packed} (hdelta : p.deltaSkippedIds = []) :
    render savings p =
      "STATE".toList ++ ' ' :: ((['['] ++ (toString p.blocks.length).toList) ++
        ' ' :: ("facts".toList ++ ' ' :: (['·'] ++ ' ' :: ((toString p.droppedIds.length).toList ++
        ' ' :: ("dropped".toList ++ ' ' :: (['·'] ++
        ' ' :: ((toString p.dedupedIds.length).toList ++
        ' ' :: ("deduped".toList ++ ' ' :: (['·'] ++ ' ' :: (((toString p.usedTokens).toList ++
          '/' :: (toString p.budgetTokens).toList) ++ ' ' :: ("tok".toList ++ ' ' :: (['·'] ++
        ' ' :: ((savings ++ ['%']) ++ ' ' :: ("saved]".toList ++
          '\n' :: p.blocks.flatMap renderBlock)))))))))))))) := by
  have hstate : "STATE [".toList = "STATE".toList ++ [' ', '['] := by decide
  have hfacts : " facts · ".toList = ' ' :: "facts".toList ++ [' ', '·', ' '] := by decide
  have hdropped : " dropped · ".toList = ' ' :: "dropped".toList ++ [' ', '·', ' '] := by decide
  have hdeduped : " deduped".toList = ' ' :: "deduped".toList := by decide
  have hdot : " · ".toList = [' ', '·', ' '] := by decide
  have htok : " tok · ".toList = ' ' :: "tok".toList ++ [' ', '·', ' '] := by decide
  have hsaved : "% saved]\n".toList = '%' :: ' ' :: "saved]".toList ++ ['\n'] := by decide
  unfold render
  simp only [hdelta, hstate, hfacts, hdropped, hdeduped, hdot, htok, hsaved,
    List.isEmpty_nil, if_true, List.append_assoc, List.cons_append, List.nil_append]

/-! ## Header and labels -/

/-- The counts of the header, without the share that is saved. -/
def headerCounts (p : Packed) : Counts :=
  counts (50 + (toString p.blocks.length).toList.length +
    (toString p.droppedIds.length).toList.length + (toString p.dedupedIds.length).toList.length +
    (toString p.usedTokens).toList.length + (toString p.budgetTokens).toList.length) 11 3 0 +
    4 • tally ['·']

/-- The counts of what is written around the text of a block: its id, its kind, its tier, and seven
characters. A hyphen in the name of the kind cuts it in two words. -/
def labelCounts (b : PackedBlock) : Counts :=
  counts (7 + (toString b.id).toList.length + (kindTag b.kind).length + b.tier.debug.length)
    (3 + (kindTag b.kind).count '-') (4 + (kindTag b.kind).count '-') 0

/-- The counts of a rendered pack: its header, the share that it prints, and for each block the
label and the text. -/
def renderedCounts (p : Packed) (savings : Text) : Counts :=
  headerCounts p + tally (savings ++ ['%']) +
    (p.blocks.map fun b => labelCounts b + tally (renderBlockText b.title b.text)).sum

theorem tally_kindAndTier (kind : Kind) (tier : Tier) :
    tally ('|' :: (kindTag kind ++ '|' :: (tier.debug ++ [']']))) =
      counts (3 + (kindTag kind).length + tier.debug.length) (2 + (kindTag kind).count '-')
        (3 + (kindTag kind).count '-') 0 := by
  rw [tally_ascii (by cases kind <;> cases tier <;> decide)]
  funext k
  cases kind <;> cases tier <;> cases k <;> rfl

omit [Unicode] in
theorem bracket_id (id : ℤ) : ∃ s t, '[' :: (toString id).toList = s ++ t ∧
    (s = ['['] ∨ s = ['[', '-']) ∧ Text.Decimal t := by
  cases id with
  | ofNat n => exact ⟨['['], _, rfl, .inl rfl, decimal_nat n⟩
  | negSucc n =>
    refine ⟨['[', '-'], (toString (n + 1)).toList, ?_, .inr rfl, decimal_nat (n + 1)⟩
    change '[' :: ("-" ++ toString (n + 1)).toList = _
    rw [String.toList_append]
    rfl

/-- The counts of a label. -/
theorem tally_label (b : PackedBlock) :
    tally ('[' :: ((toString b.id).toList ++
      '|' :: (kindTag b.kind ++ '|' :: (b.tier.debug ++ [']'])))) + counts 3 0 0 0 =
        labelCounts b := by
  obtain ⟨s, t, hid, hs, ht⟩ := bracket_id b.id
  have hlength : (toString b.id).toList.length + 1 = s.length + t.length := by
    rw [← List.length_append, ← hid, List.length_cons]
  have hapart : Apart (s ++ t) ('|' :: (kindTag b.kind ++ '|' :: (b.tier.debug ++ [']']))) := by
    refine apart_of_word fun a ha c hc => ?_
    obtain rfl := Option.some.inj hc
    have hdigit : isWordChar a = true := by
      rw [List.getLast?_append_of_ne_nil _ ht.1] at ha
      exact isWordChar_of_isDigit (ht.2 a (List.mem_of_getLast? ha))
    rw [hdigit, isWordChar_separator (.inl rfl)]
    exact Bool.noConfusion
  rw [← List.cons_append, hid, tally_append hapart, tally_bracket hs ht, tally_kindAndTier,
    labelCounts]
  funext k
  cases k <;> simp only [counts, Pi.add_apply] <;> omega

/-- A block has the counts of its label and of its text. -/
theorem tally_renderBlock (b : PackedBlock) :
    tally (renderBlock b) = labelCounts b + tally (renderBlockText b.title b.text) := by
  have hblock : renderBlock b = [] ++ '\n' :: ('[' :: ((toString b.id).toList ++
      '|' :: (kindTag b.kind ++ '|' :: (b.tier.debug ++ [']']))) ++
        ' ' :: (renderBlockText b.title b.text ++ '\n' :: [])) := by
    have hopen : "\n[".toList = ['\n', '['] := by decide
    have hclose : "] ".toList = [']', ' '] := by decide
    unfold renderBlock
    simp only [hopen, hclose, List.append_assoc, List.cons_append, List.nil_append]
  have hnil : tally [] = 0 := by
    funext k
    cases k <;> rfl
  rw [hblock, tally_append_cons (.inr rfl), tally_append_cons (.inl rfl),
    tally_append_cons (.inr rfl), hnil, ← tally_label]
  funext k
  cases k <;> simp only [counts, Pi.add_apply, Pi.zero_apply] <;> omega

/-- The blocks have the counts of each. -/
theorem tally_blocks (blocks : List PackedBlock) :
    tally (blocks.flatMap renderBlock) =
      (blocks.map fun b => labelCounts b + tally (renderBlockText b.title b.text)).sum := by
  induction blocks with
  | nil =>
    funext k
    cases k <;> rfl
  | cons b rest ih =>
    have hapart : Apart (renderBlock b) (rest.flatMap renderBlock) := by
      refine apart_of_getLast fun c hc => ?_
      have hlast : (renderBlock b).getLast? = some '\n' := List.getLast?_concat
      obtain rfl := Option.some.inj (hlast.symm.trans hc)
      rfl
    rw [List.flatMap_cons, tally_append hapart, tally_renderBlock, ih, List.map_cons, List.sum_cons]

/-! ## The whole text -/

/-- The counts of two numbers with a slash between them. -/
theorem tally_slash {s t : Text} (hs : Text.Decimal s) (ht : Text.Decimal t) :
    tally (s ++ '/' :: t) = counts (s.length + t.length + 1) 2 1 0 := by
  have hone : tally ['/'] = counts 1 0 1 0 := by
    rw [tally_ascii (by decide)]
    funext k
    cases k <;> rfl
  have hfront : Apart s ('/' :: t) := apart_of_word fun a ha b hb => by
    obtain rfl := Option.some.inj hb
    rw [isWordChar_of_isDigit (hs.2 a (List.mem_of_getLast? ha)), isWordChar_separator (.inr rfl)]
    exact Bool.noConfusion
  have hback : Apart ['/'] t := apart_of_word fun a ha b hb => by
    obtain rfl : '/' = a := Option.some.inj ha
    rw [isWordChar_of_isDigit (ht.2 b (List.mem_of_head? hb)), isWordChar_separator (.inr rfl)]
    exact Bool.noConfusion
  rw [tally_append hfront, ← List.singleton_append, tally_append hback, hone, tally_decimal hs,
    tally_decimal ht]
  funext k
  cases k <;> simp only [counts, Pi.add_apply]
  omega

/-- The header, the labels and the texts are apart. -/
theorem tally_render (savings : Text) {p : Packed} (hdelta : p.deltaSkippedIds = []) :
    tally (render savings p) = renderedCounts p savings := by
  have hstate : tally "STATE".toList = counts 5 1 0 0 := by
    rw [tally_ascii (by decide)]; funext k; cases k <;> rfl
  have hfacts : tally "facts".toList = counts 5 1 0 0 := by
    rw [tally_ascii (by decide)]; funext k; cases k <;> rfl
  have hdropped : tally "dropped".toList = counts 7 1 0 0 := by
    rw [tally_ascii (by decide)]; funext k; cases k <;> rfl
  have hdeduped : tally "deduped".toList = counts 7 1 0 0 := by
    rw [tally_ascii (by decide)]; funext k; cases k <;> rfl
  have htok : tally "tok".toList = counts 3 1 0 0 := by
    rw [tally_ascii (by decide)]; funext k; cases k <;> rfl
  have hsaved : tally "saved]".toList = counts 6 1 1 0 := by
    rw [tally_ascii (by decide)]; funext k; cases k <;> rfl
  have hblank : ∀ s t, tally (s ++ ' ' :: t) = tally s + (counts 1 0 0 0 + tally t) :=
    tally_append_cons (.inl rfl)
  have hnewline : ∀ s t, tally (s ++ '\n' :: t) = tally s + (counts 1 0 0 0 + tally t) :=
    tally_append_cons (.inr rfl)
  rw [render_eq savings hdelta, renderedCounts]
  simp only [hblank, hnewline, hstate, hfacts, hdropped,
    hdeduped, htok, hsaved, tally_decimal (decimal_nat _), tally_blocks,
    tally_bracket (.inl rfl) (decimal_nat _), tally_slash (decimal_nat _) (decimal_nat _),
    headerCounts, List.length_singleton]
  funext k
  cases k <;> simp only [counts, Pi.add_apply, Pi.smul_apply, smul_eq_mul] <;> ring

omit [Unicode] in
/-- The label of each block has three words and four runs of punctuation. -/
theorem le_sum_labels (blocks : List PackedBlock) (texts : PackedBlock → Counts) :
    3 * blocks.length ≤ (blocks.map fun b => labelCounts b + texts b).sum .words ∧
      4 * blocks.length ≤ (blocks.map fun b => labelCounts b + texts b).sum .punctRuns := by
  induction blocks with
  | nil => exact ⟨Nat.zero_le _, Nat.zero_le _⟩
  | cons b rest ih =>
    have hwords : labelCounts b .words = 3 + (kindTag b.kind).count '-' := rfl
    have hpunct : labelCounts b .punctRuns = 4 + (kindTag b.kind).count '-' := rfl
    simp only [List.map_cons, List.sum_cons, Pi.add_apply, hwords, hpunct, List.length_cons]
    omega

/-- What `pack` does not pay for: the header costs 18 tokens, and each block 7 more. -/
theorem le_estimateTokens_render (savings : Text) {p : Packed} (hdelta : p.deltaSkippedIds = []) :
    18 + 7 * p.blocks.length ≤ estimateTokens (render savings p) := by
  rw [estimateTokens_eq, tally_render savings hdelta]
  obtain ⟨hwords, hpunct⟩ := le_sum_labels p.blocks fun b => tally (renderBlockText b.title b.text)
  refine le_max_of_le_left ?_
  simp only [renderedCounts, headerCounts, counts, Pi.add_apply, Pi.smul_apply, smul_eq_mul]
  omega

/-- **When a rendered pack stays in the budget**: the header, the share, the labels and the texts
have no more words, runs of punctuation and characters than it pays for. -/
theorem render_within_iff_counts [Score S] (options : PackOptions) (cands : List (Candidate S))
    (savings : Text) :
    estimateTokens (render savings (pack options cands)) ≤ options.budgetTokens ↔
      tokensOf (renderedCounts (pack options cands) savings) ≤ options.budgetTokens := by
  rw [estimateTokens_eq, tally_render savings rfl]

/-! ## Room for the header and the labels -/

omit [Unicode] in
theorem length_decimal_mono {m n : ℕ} (h : m ≤ n) :
    (toString m).toList.length ≤ (toString n).toList.length := by
  have hlist : ∀ k : ℕ, (toString k).toList = Nat.toDigits 10 k := fun _ => Nat.toList_repr
  rw [hlist, hlist, Nat.length_toDigits_le_iff (by decide) Nat.length_toDigits_pos]
  exact h.trans_lt ((Nat.length_toDigits_le_iff (by decide) Nat.length_toDigits_pos).mp le_rfl)

/-- The cost of a header at most, for so many candidates and a budget. -/
def headerTokens (candidates budget : ℕ) (savings : Text) : ℕ :=
  tokensOf (counts (50 + 3 * (toString candidates).toList.length +
    2 * (toString budget).toList.length) 11 3 0 + 4 • tally ['·'] + tally (savings ++ ['%']))

/-- The cost of a label at most. The tier with the longest name is `Signatures`. -/
def labelTokens (c : Candidate S) : ℕ := tokensOf (labelCounts (blockAt c .signatures))

/-- What is spent on blocks at most: what the reserve leaves, or the one line of a candidate that is
taken although it is more. -/
def spendable (options : PackOptions) (cands : List (Candidate S)) : ℕ :=
  (cands.map fun c => (blockAt c .oneLine).tokens).foldr
    (fun tokens most => if tokens ≤ options.budgetTokens then max tokens most else most)
    (available options)

/-- There is room for the header, a label of each candidate, and the blocks. -/
def RoomToRender (options : PackOptions) (cands : List (Candidate S)) (savings : Text) : Prop :=
  headerTokens cands.length options.budgetTokens savings + (cands.map labelTokens).sum +
    min (spendable options cands) (cands.map fun c => (blockAt c .full).tokens).sum ≤
      options.budgetTokens

instance (options : PackOptions) (cands : List (Candidate S)) (savings : Text) :
    Decidable (RoomToRender options cands savings) :=
  inferInstanceAs (Decidable (_ ≤ _))

/-- A label costs no more than one at the tier with the longest name. -/
theorem tokensOf_label_le (c : Candidate S) (tier : Tier) :
    tokensOf (labelCounts (blockAt c tier)) ≤ labelTokens c := by
  refine tokensOf_mono fun k => ?_
  cases k with
  | chars =>
    have hlength : tier.debug.length ≤ Tier.signatures.debug.length := by cases tier <;> decide
    exact Nat.add_le_add_left hlength _
  | words => exact le_refl _
  | punctRuns => exact le_refl _
  | cjk => exact le_refl _

theorem tokens_blockAt_le (c : Candidate S) (tier : Tier) :
    (blockAt c tier).tokens ≤ (blockAt c .full).tokens := by
  refine estimateTokens_le ?_
  rw [renderBlockText, renderBlockText]
  split
  · exact tally_compress_le c.text tier
  · rw [tally_append_cons (.inr rfl), tally_append_cons (.inr rfl)]
    exact add_le_add_right (add_le_add_right (tally_compress_le c.text tier) _) _

/-- The blocks are those of some of the candidates, in their order. -/
def BlocksOf (cands : List (Candidate S)) (blocks : List PackedBlock) : Prop :=
  ∃ sub, sub.Sublist cands ∧ List.Forall₂ (fun c b => ∃ tier, b = blockAt c tier) sub blocks

theorem BlocksOf.sum_le {cands : List (Candidate S)} {blocks : List PackedBlock}
    (h : BlocksOf cands blocks) {f : PackedBlock → ℕ} {g : Candidate S → ℕ}
    (hle : ∀ c tier, f (blockAt c tier) ≤ g c) : (blocks.map f).sum ≤ (cands.map g).sum := by
  obtain ⟨sub, hsub, hblocks⟩ := h
  have hpairs : (blocks.map f).sum ≤ (sub.map g).sum := by
    induction hblocks with
    | nil => exact le_refl _
    | cons hb _ ih =>
      obtain ⟨tier, rfl⟩ := hb
      rw [List.map_cons, List.map_cons, List.sum_cons, List.sum_cons]
      exact Nat.add_le_add (hle _ tier) (ih ((List.sublist_cons_self _ _).trans hsub))
  exact hpairs.trans ((hsub.map g).sum_le_sum fun _ _ => Nat.zero_le _)

theorem BlocksOf.length_le {cands : List (Candidate S)} {blocks : List PackedBlock}
    (h : BlocksOf cands blocks) : blocks.length ≤ cands.length := by
  obtain ⟨sub, hsub, hblocks⟩ := h
  exact hblocks.length_eq.symm.trans_le hsub.length_le

/-- A block is that of a candidate. -/
theorem BlocksOf.exists_of_mem {cands : List (Candidate S)} {blocks : List PackedBlock}
    (h : BlocksOf cands blocks) {b : PackedBlock} (hb : b ∈ blocks) :
    ∃ (c : Candidate S) (tier : Tier), b = blockAt c tier := by
  obtain ⟨sub, -, hblocks⟩ := h
  induction hblocks with
  | nil => cases hb
  | cons hhead _ ih =>
    rcases List.mem_cons.mp hb with rfl | hb
    · exact ⟨_, hhead⟩
    · exact ih hb

theorem BlocksOf.mono {cands cands' : List (Candidate S)} {blocks : List PackedBlock}
    (h : BlocksOf cands blocks) (hsub : cands.Sublist cands') : BlocksOf cands' blocks := by
  obtain ⟨sub, hsub', hblocks⟩ := h
  exact ⟨sub, hsub'.trans hsub, hblocks⟩

theorem place_blocksOf (avail : ℕ) (kept : List (Candidate S)) :
    BlocksOf kept (place avail kept).chosen := by
  induction kept using List.reverseRecOn with
  | nil => exact ⟨[], List.Sublist.refl _, .nil⟩
  | append_singleton kept c ih =>
    obtain ⟨sub, hsub, hblocks⟩ := ih
    rw [place, List.foldl_concat, ← place, placeStep]
    cases hplace : placeTier avail (place avail kept).used c with
    | none => exact ⟨sub, hsub.trans (List.sublist_append_left _ _), hblocks⟩
    | some b =>
      obtain ⟨tier, hb, -⟩ := placeTier_eq_some hplace
      exact ⟨sub ++ [c], hsub.append (List.Sublist.refl _),
        List.rel_append hblocks (.cons ⟨tier, hb⟩ .nil)⟩

/-- A candidate that fits is within what can be spent. -/
theorem le_spendable {options : PackOptions} {cands : List (Candidate S)} {c : Candidate S}
    (hc : c ∈ cands) (hfits : (blockAt c .oneLine).tokens ≤ options.budgetTokens) :
    (blockAt c .oneLine).tokens ≤ spendable options cands := by
  induction cands with
  | nil => cases hc
  | cons x rest ih =>
    rw [spendable, List.map_cons, List.foldr_cons, ← spendable]
    rcases List.mem_cons.mp hc with rfl | hc
    · rw [if_pos hfits]
      exact le_max_left _ _
    · split
      · exact (ih hc).trans (le_max_right _ _)
      · exact ih hc

theorem available_le_spendable (options : PackOptions) (cands : List (Candidate S)) :
    available options ≤ spendable options cands := by
  induction cands with
  | nil => exact le_refl _
  | cons x rest ih =>
    rw [spendable, List.map_cons, List.foldr_cons, ← spendable]
    split
    · exact ih.trans (le_max_right _ _)
    · exact ih

/-- What the greedy walk and the min-one guarantee spend, and on what. -/
structure Spent (options : PackOptions) (kept : List (Candidate S)) (g : Greedy) : Prop where
  blocks : BlocksOf kept g.chosen
  used_eq : g.used = totalTokens g.chosen
  used_le : g.used ≤ spendable options kept
  used_le_budget : g.used ≤ options.budgetTokens
  dropped : g.droppedIds.length ≤ kept.length

/-- What is placed is spent as it should be. -/
theorem place_spent (options : PackOptions) (kept : List (Candidate S)) :
    Spent options kept (place (available options) kept) where
  blocks := place_blocksOf _ kept
  used_eq := (place_sound _ kept).used_eq
  used_le := (place_sound _ kept).used_le.trans (available_le_spendable options kept)
  used_le_budget := (place_sound _ kept).used_le.trans (available_le options)
  dropped := by
    have hlength := (place_sound (available options) kept).ids_perm.length_eq
    rw [Greedy.ids, List.length_append, List.length_map, List.length_map] at hlength
    omega

/-- So is what is rescued. -/
theorem rescue_spent {options : PackOptions} {kept : List (Candidate S)} {g : Greedy}
    (h : Spent options kept g) : Spent options kept (rescue options.budgetTokens kept g) := by
  unfold rescue
  split
  next top rest _ =>
    by_cases hfits : (blockAt top .oneLine).tokens ≤ options.budgetTokens
    · simp only [hfits, if_true]
      refine ⟨⟨[top], ?_, .cons ⟨.oneLine, rfl⟩ .nil⟩, ?_, le_spendable List.mem_cons_self hfits,
        hfits, (List.length_filter_le _ _).trans h.dropped⟩
      · exact List.singleton_sublist.mpr List.mem_cons_self
      · rw [totalTokens, List.map_singleton, List.sum_singleton]
    · simp only [hfits, if_false]
      exact h
  next => exact h

/-- More candidates have no less to spend. -/
theorem spendable_mono {options : PackOptions} {cands cands' : List (Candidate S)}
    (h : cands ⊆ cands') : spendable options cands ≤ spendable options cands' := by
  induction cands with
  | nil => exact available_le_spendable options cands'
  | cons x rest ih =>
    obtain ⟨hx, hrest⟩ := List.cons_subset.mp h
    rw [spendable, List.map_cons, List.foldr_cons, ← spendable]
    split
    next hfits => exact max_le (le_spendable hx hfits) (ih hrest)
    next => exact ih hrest

/-- The header of a pack, its labels and its blocks cost no more than those of the candidates. -/
theorem tokensOf_rendered_le {cands : List (Candidate S)} {p : Packed} {blocks : List PackedBlock}
    (savings : Text) (hperm : p.blocks.Perm blocks) (hblocks : BlocksOf cands blocks)
    (hdropped : p.droppedIds.length ≤ cands.length) (hdeduped : p.dedupedIds.length ≤ cands.length)
    (hused : p.usedTokens = totalTokens blocks) (hbudget : p.usedTokens ≤ p.budgetTokens) :
    tokensOf (renderedCounts p savings) ≤
      headerTokens cands.length p.budgetTokens savings + (cands.map labelTokens).sum +
        min p.usedTokens (cands.map fun c => (blockAt c .full).tokens).sum := by
  have hheader : tokensOf (headerCounts p + tally (savings ++ ['%'])) ≤
      headerTokens cands.length p.budgetTokens savings := by
    have hlength := hperm.length_eq.trans_le hblocks.length_le
    refine tokensOf_mono (add_le_add_left (add_le_add_left (fun k => ?_) _) _)
    cases k with
    | chars =>
      have h₁ := length_decimal_mono hlength
      have h₂ := length_decimal_mono hdropped
      have h₃ := length_decimal_mono hdeduped
      have h₄ := length_decimal_mono hbudget
      simp only [counts]
      omega
    | words => exact le_refl _
    | punctRuns => exact le_refl _
    | cjk => exact le_refl _
  -- each block costs its label and its tokens
  have hcost : tokensOf (blocks.map fun b =>
      labelCounts b + tally (renderBlockText b.title b.text)).sum ≤
        (blocks.map fun b => tokensOf (labelCounts b)).sum + totalTokens blocks := by
    refine (tokensOf_sum_le _ _).trans ?_
    rw [totalTokens, ← List.sum_map_add]
    refine List.sum_le_sum fun b hb => (tokensOf_add_le _ _).trans (Nat.add_le_add_left ?_ _)
    obtain ⟨c, tier, rfl⟩ := hblocks.exists_of_mem hb
    exact (estimateTokens_eq _).ge
  have hlabels := hblocks.sum_le (f := fun b => tokensOf (labelCounts b)) tokensOf_label_le
  have hfull := hblocks.sum_le (f := PackedBlock.tokens) tokens_blockAt_le
  rw [renderedCounts, (hperm.map _).sum_eq]
  refine (tokensOf_add_le _ _).trans ?_
  rw [hused, Nat.add_assoc]
  refine Nat.add_le_add hheader (hcost.trans (Nat.add_le_add hlabels (le_min le_rfl hfull)))

/-- **When a rendered pack stays in the budget**: if there is room for the header and the labels. -/
theorem render_within [Score S] (options : PackOptions) (cands : List (Candidate S))
    (savings : Text) (h : RoomToRender options cands savings) :
    estimateTokens (render savings (pack options cands)) ≤ options.budgetTokens := by
  rw [render_within_iff_counts]
  have hthinned := (dedup_thinned (rank cands)).2
  have hspent := rescue_spent (place_spent options (dedup (rank cands)).kept)
  have hperm := rank_perm cands
  have hlength : (rank cands).length = cands.length := by rw [hperm.length_eq, List.length_map]
  have hdeduped : (pack options cands).dedupedIds.length ≤ (rank cands).length := by
    have hids := (dedup_ids (rank cands)).length_eq
    rw [Dedup.ids, List.length_append, List.length_map, List.length_map] at hids
    exact (Nat.le_add_left _ _).trans_eq hids
  have hcost := tokensOf_rendered_le (p := pack options cands) savings
    (orderBlocks_perm options _) (hspent.blocks.mono hthinned.sublist)
    (hspent.dropped.trans hthinned.sublist.length_le) hdeduped hspent.used_eq
    hspent.used_le_budget
  -- a trust prior changes no text
  have hsum : ∀ f : Candidate S → ℕ, (∀ c, f (trustAdjust c) = f c) →
      ((rank cands).map f).sum = (cands.map f).sum := by
    intro f hf
    rw [(hperm.map f).sum_eq, List.map_map]
    exact congrArg List.sum (List.map_congr_left fun c _ => hf c)
  have hspendable : spendable options (dedup (rank cands)).kept ≤ spendable options cands := by
    have hsame : spendable options (cands.map trustAdjust) = spendable options cands := by
      rw [spendable, List.map_map]
      rfl
    exact (spendable_mono fun c hc => hperm.subset (hthinned.sublist.subset hc)).trans_eq hsame
  rw [hlength, hsum _ fun _ => rfl, hsum _ fun _ => rfl] at hcost
  refine hcost.trans (le_trans (Nat.add_le_add_left ?_ _) h)
  exact min_le_min_right _ (hspent.used_le.trans hspendable)

end Pieces

/-- A fact of four tokens. -/
def oneFact : Candidate ℚ := ⟨1, [], "lat = 8ms".toList, 1 / 2, .file⟩

/-- A note of two lines. -/
def oneNote : Candidate ℚ :=
  ⟨2, "notes".toList, "the daemon keeps one writer\nport = 7777".toList, 1 / 3, .decision⟩

/-- With a budget of eighty tokens there is room for the header, two labels and all of the texts. -/
theorem oneFact_within_budget :
    let _ := Unicode.asciiOnly
    estimateTokens (render "12".toList (pack { budgetTokens := 80 } [oneFact, oneNote])) ≤ 80 := by
  intro _
  exact render_within { budgetTokens := 80 } [oneFact, oneNote] "12".toList (by decide +kernel)

/-- The block fits, and the header does not. -/
theorem oneFact_over_budget :
    let _ := Unicode.asciiOnly
    ∀ savings, ¬estimateTokens
      (render savings (pack { budgetTokens := 24, headerReserve := 64 } [oneFact])) ≤ 24 := by
  intro _ savings hle
  have hone : (pack { budgetTokens := 24, headerReserve := 64 } [oneFact]).blocks.length = 1 := by
    rw [pack, rank, List.map_singleton, List.mergeSort_singleton]
    decide +kernel
  have hge := le_estimateTokens_render savings
    (p := pack { budgetTokens := 24, headerReserve := 64 } [oneFact]) rfl
  rw [hone] at hge
  omega

end Pack

end SynapseMemory
