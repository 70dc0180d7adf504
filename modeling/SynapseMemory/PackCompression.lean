import SynapseMemory.PackOrder
import SynapseMemory.PackTokens
import SynapseMemory.TextFields

/-!
# Compression by deletion

`compress` shows a text at one of four tiers, and each shows nothing but lines of it: all of them,
those of a signature, those with a fact, or one. So every block of a pack carries text of its
candidate (`pack_extractive`).

A tier below may still cost more than the one above. The lines with a fact are among the lines of a
signature, but where no line has a fact the first line that is not blank stands for them, and it
need be no signature; and the line of the highest signal need have no fact. `ladder_descends_iff`
says when the ladder descends.
-/

namespace SynapseMemory.Pack

variable {S : Type}

/-! ## Lines -/

theorem lines_eq_nil {text : Text} : Text.lines text = [] ↔ text = [] := by
  refine ⟨fun h => ?_, fun h => by rw [h]; rfl⟩
  have hjoin : Text.joinLines (text.splitOnP (· == '\n')) = text := List.intercalate_splitOn '\n'
  have hne : text.splitOnP (· == '\n') ≠ [] := List.splitOnP_ne_nil _ _
  rw [Text.lines] at h
  generalize text.splitOnP (· == '\n') = pieces at hjoin hne h
  obtain ⟨init, last, rfl⟩ := (List.eq_nil_or_concat' pieces).resolve_left hne
  rw [List.dropLast_concat, List.getLast?_concat, List.append_eq_nil_iff] at h
  have hinit : init = [] := List.map_eq_nil_iff.mp h.1
  have hlast : last = [] := by simpa using h.2
  rw [← hjoin, hinit, hlast]
  rfl

/-- White space around a line does not make it a fact. -/
theorem factLine_trim (line : Text) : factLine (Text.trim line) = factLine line := by
  rw [factLine, factLine, Text.trim_trim]

/-- The trimmed lines that are not blank. -/
def nonblank (text : Text) : List Text :=
  ((Text.lines text).map Text.trim).filter fun l => !l.isEmpty

/-- The lines that are not blank. -/
theorem mem_nonblank {text l : Text} :
    l ∈ nonblank text ↔ l ≠ [] ∧ ∃ line ∈ Text.lines text, Text.trim line = l := by
  rw [nonblank, List.mem_filter, List.mem_map, and_comm]
  simp

theorem firstNonblank_eq (text : Text) : firstNonblank text = (nonblank text).head?.getD [] := by
  rw [firstNonblank, nonblank, List.head?_filter]

theorem oneLine_eq (text : Text) :
    oneLine text = (Text.maxByKey lineSignal (nonblank text)).getD [] := rfl

/-- The lines that a predicate keeps. -/
def keptLines (text : Text) (pred : Text → ℕ → ℕ → Bool) : List Text :=
  ((Text.lines text).zipIdx.filter fun (l, i) => pred l i (Text.lines text).length).map Prod.fst

/-- The lines of signatures that are kept. -/
def signatureLines (text : Text) : List Text := keptLines text signatureLine

/-- The lines of facts that are kept. -/
def factLines (text : Text) : List Text := keptLines text fun l _ _ => factLine l

theorem keepLines_eq (text : Text) (pred : Text → ℕ → ℕ → Bool) :
    keepLines text pred =
      if keptLines text pred = [] then firstNonblank text
      else Text.joinLines (keptLines text pred) := by
  rw [keepLines]
  exact if_congr List.isEmpty_iff rfl rfl

theorem compress_signatures (text : Text) :
    compress text .signatures =
      if signatureLines text = [] then firstNonblank text
      else Text.joinLines (signatureLines text) :=
  keepLines_eq text signatureLine

theorem compress_factDelta (text : Text) :
    compress text .factDelta =
      if factLines text = [] then firstNonblank text else Text.joinLines (factLines text) :=
  keepLines_eq text fun l _ _ => factLine l

/-- The lines that are kept are lines of the text, in order. -/
theorem keptLines_sublist (text : Text) (pred : Text → ℕ → ℕ → Bool) :
    (keptLines text pred).Sublist (Text.lines text) := by
  have h : (keptLines text pred).Sublist ((Text.lines text).zipIdx.map Prod.fst) :=
    List.filter_sublist.map Prod.fst
  rwa [List.zipIdx_map_fst] at h

/-- A weaker condition keeps more lines. -/
theorem keptLines_mono (text : Text) {pred pred' : Text → ℕ → ℕ → Bool}
    (h : ∀ l i n, pred l i n = true → pred' l i n = true) :
    (keptLines text pred).Sublist (keptLines text pred') :=
  (List.monotone_filter_right _ fun x hx => h x.1 x.2 _ hx).map Prod.fst

theorem mem_keptLines {text l : Text} {pred : Text → ℕ → ℕ → Bool} :
    l ∈ keptLines text pred ↔ ∃ i, (l, i) ∈ (Text.lines text).zipIdx ∧
      pred l i (Text.lines text).length = true := by
  rw [keptLines, List.mem_map]
  constructor
  · rintro ⟨⟨x, i⟩, hx, rfl⟩
    exact ⟨i, List.mem_filter.mp hx⟩
  · rintro ⟨i, hl, hpred⟩
    exact ⟨(l, i), List.mem_filter.mpr ⟨hl, hpred⟩, rfl⟩

/-- The lines of facts are the lines with a fact. -/
theorem mem_factLines {text l : Text} :
    l ∈ factLines text ↔ l ∈ Text.lines text ∧ factLine l = true := by
  rw [factLines, mem_keptLines]
  constructor
  · rintro ⟨i, hl, hfact⟩
    exact ⟨List.fst_mem_of_mem_zipIdx hl, hfact⟩
  · rintro ⟨hl, hfact⟩
    obtain ⟨i, hi, rfl⟩ := List.getElem_of_mem hl
    exact ⟨i, List.mem_zipIdx_iff_getElem?.mpr (List.getElem?_eq_getElem hi), hfact⟩

/-- A line with a fact is one of a signature, and one of a signature is not blank. -/
theorem signatureLine_of_factLine {l : Text} (h : factLine l = true) (idx n : ℕ) :
    signatureLine l idx n = true := by
  rw [signatureLine]
  split
  next hempty =>
    rw [factLine, if_pos hempty] at h
    cases h
  next => rw [h, Bool.or_true]

/-- A line of a fact is a line of a signature. -/
theorem factLines_sublist (text : Text) : (factLines text).Sublist (signatureLines text) :=
  keptLines_mono text fun _ i n h => signatureLine_of_factLine h i n

/-- A blank text has none of these lines. -/
theorem signatureLines_of_blank {text : Text} (h : nonblank text = []) :
    signatureLines text = [] := by
  refine List.eq_nil_iff_forall_not_mem.mpr fun l hl => ?_
  obtain ⟨i, hline, hsignature⟩ := mem_keptLines.mp hl
  have htrim : Text.trim l ≠ [] := by
    intro hempty
    rw [signatureLine, hempty] at hsignature
    cases hsignature
  have hmem := mem_nonblank.mpr ⟨htrim, l, List.fst_mem_of_mem_zipIdx hline, rfl⟩
  rw [h] at hmem
  cases hmem

/-! ## The last of the greatest -/

/-- The last of the elements with the greatest key. -/
def LastMax {α : Type} (key : α → ℕ) (l : List α) (b : α) : Prop :=
  ∃ before after, l = before ++ b :: after ∧ (∀ x ∈ before, key x ≤ key b) ∧
    ∀ x ∈ after, key x < key b

section LastMax

variable {α : Type} {key : α → ℕ} {l : List α} {b : α}

theorem LastMax.mem (h : LastMax key l b) : b ∈ l := by
  obtain ⟨before, after, rfl, -, -⟩ := h
  exact List.mem_append_right _ List.mem_cons_self

/-- The last greatest element is an element. -/
theorem LastMax.le (h : LastMax key l b) {x : α} (hx : x ∈ l) : key x ≤ key b := by
  obtain ⟨before, after, rfl, hbefore, hafter⟩ := h
  rcases List.mem_append.mp hx with hx | hx
  · exact hbefore x hx
  · rcases List.mem_cons.mp hx with rfl | hx
    · exact le_refl _
    · exact (hafter x hx).le

/-- The last greatest element of a longer list. -/
theorem lastMax_concat {x : α} :
    LastMax key (l ++ [x]) b ↔
      (b = x ∧ ∀ y ∈ l, key y ≤ key x) ∨ (LastMax key l b ∧ key x < key b) := by
  constructor
  · rintro ⟨before, after, hl, hbefore, hafter⟩
    rcases List.eq_nil_or_concat' after with rfl | ⟨after, y, rfl⟩
    · obtain ⟨rfl, hx⟩ := List.append_inj' hl rfl
      obtain rfl := List.singleton_inj.mp hx
      exact .inl ⟨rfl, hbefore⟩
    · rw [← List.cons_append, ← List.append_assoc] at hl
      obtain ⟨rfl, hx⟩ := List.append_inj' hl rfl
      obtain rfl := List.singleton_inj.mp hx
      refine .inr ⟨⟨before, after, rfl, hbefore, fun z hz => ?_⟩, ?_⟩
      · exact hafter z (List.mem_append_left _ hz)
      · exact hafter x (List.mem_append_right _ (List.mem_singleton_self x))
  · rintro (⟨rfl, hle⟩ | ⟨⟨before, after, rfl, hbefore, hafter⟩, hlt⟩)
    · exact ⟨l, [], rfl, hle, fun _ hx => (List.not_mem_nil hx).elim⟩
    · refine ⟨before, after ++ [x], by simp, hbefore, fun z hz => ?_⟩
      rcases List.mem_append.mp hz with hz | hz
      · exact hafter z hz
      · obtain rfl := List.mem_singleton.mp hz
        exact hlt

/-- The maximum of a longer list. -/
theorem maxByKey_concat (x : α) :
    Text.maxByKey key (l ++ [x]) =
      match Text.maxByKey key l with
      | none => some x
      | some b => if key b ≤ key x then some x else some b := by
  rw [Text.maxByKey, List.foldl_concat]
  rfl

theorem maxByKey_eq_none : Text.maxByKey key l = none ↔ l = [] := by
  rcases List.eq_nil_or_concat' l with rfl | ⟨l, x, rfl⟩
  · exact iff_of_true rfl rfl
  · rw [maxByKey_concat]
    refine iff_of_false ?_ (by simp)
    split
    · exact Option.some_ne_none x
    · split <;> exact Option.some_ne_none _

/-- The function gives the last greatest element. -/
theorem maxByKey_eq_some : Text.maxByKey key l = some b ↔ LastMax key l b := by
  induction l using List.reverseRecOn generalizing b with
  | nil =>
    refine iff_of_false (fun h => nomatch h) ?_
    exact fun h => List.not_mem_nil h.mem
  | append_singleton l x ih =>
    rw [maxByKey_concat, lastMax_concat]
    cases hmax : Text.maxByKey key l with
    | none =>
      obtain rfl := maxByKey_eq_none.mp hmax
      simp only [Option.some.injEq]
      constructor
      · rintro rfl
        exact .inl ⟨rfl, fun _ hy => (List.not_mem_nil hy).elim⟩
      · rintro (⟨rfl, -⟩ | ⟨h, -⟩)
        · rfl
        · exact (List.not_mem_nil h.mem).elim
    | some a =>
      have ha := ih.mp hmax
      dsimp only
      split
      next hle =>
        rw [Option.some.injEq]
        constructor
        · rintro rfl
          exact .inl ⟨rfl, fun y hy => (ha.le hy).trans hle⟩
        · rintro (⟨rfl, -⟩ | ⟨h, hlt⟩)
          · rfl
          · exact absurd (h.le ha.mem) (by have := ha.le h.mem; omega)
      next hlt =>
        rw [Option.some.injEq]
        constructor
        · rintro rfl
          exact .inr ⟨ha, not_le.mp hlt⟩
        · rintro (⟨rfl, hle⟩ | ⟨h, -⟩)
          · exact absurd (hle a ha.mem) hlt
          · exact Option.some.inj (hmax.symm.trans (ih.mpr h))

end LastMax

/-! ## What the tiers show -/

/-- The first line that is not blank, trimmed. -/
def FirstNonblank (text shown : Text) : Prop :=
  ∃ before line after, Text.lines text = before ++ line :: after ∧
    (∀ l ∈ before, Text.trim l = []) ∧ Text.trim line ≠ [] ∧ shown = Text.trim line

/-- What a tier may show of a text: the text, some of its lines in their order or the first that is
not blank, or one trimmed line. -/
def Shows (text : Text) : Tier → Text → Prop
  | .full, shown => shown = text
  | .signatures, shown | .factDelta, shown =>
    (∃ kept, kept.Sublist (Text.lines text) ∧ shown = Text.joinLines kept) ∨
      FirstNonblank text shown
  | .oneLine, shown => ∃ line ∈ Text.lines text, shown = Text.trim line

/-- The same, with nothing shown of a text without lines. -/
def ShowsOrNothing (text : Text) (tier : Tier) (shown : Text) : Prop :=
  Shows text tier shown ∨ tier = .oneLine ∧ text = [] ∧ shown = []

/-- The first line that is not blank, if there is one. -/
theorem firstNonblank_cases (text : Text) :
    FirstNonblank text (firstNonblank text) ∨ firstNonblank text = [] := by
  rw [firstNonblank, List.find?_map]
  cases hfind : (Text.lines text).find? ((fun l : Text => !l.isEmpty) ∘ Text.trim) with
  | none => exact .inr rfl
  | some line =>
    obtain ⟨hline, before, after, hlines, hbefore⟩ := List.find?_eq_some_iff_append.mp hfind
    refine .inl ⟨before, line, after, hlines, fun l hl => ?_, ?_, rfl⟩
    · simpa using hbefore l hl
    · simpa using hline

/-- Keeping lines shows some of them, or the first one that is not blank. -/
theorem keepLines_shows (text : Text) (pred : Text → ℕ → ℕ → Bool) :
    (∃ kept, kept.Sublist (Text.lines text) ∧ keepLines text pred = Text.joinLines kept) ∨
      FirstNonblank text (keepLines text pred) := by
  rw [keepLines_eq]
  split
  · -- nothing is left of a text of blank lines, which is none of its lines
    rcases firstNonblank_cases text with hfirst | hnone
    · exact .inr hfirst
    · exact .inl ⟨[], List.nil_sublist _, hnone⟩
  · exact .inl ⟨_, keptLines_sublist text pred, rfl⟩

theorem oneLine_shows (text : Text) : ShowsOrNothing text .oneLine (oneLine text) := by
  rw [oneLine_eq]
  cases hbest : Text.maxByKey lineSignal (nonblank text) with
  | some best =>
    obtain ⟨-, line, hline, htrim⟩ := mem_nonblank.mp (maxByKey_eq_some.mp hbest).mem
    exact .inl ⟨line, hline, htrim.symm⟩
  | none =>
    have hblank := maxByKey_eq_none.mp hbest
    cases hlines : Text.lines text with
    | nil => exact .inr ⟨rfl, lines_eq_nil.mp hlines, rfl⟩
    | cons line rest =>
      -- a blank line, trimmed
      have hline : line ∈ Text.lines text := by rw [hlines]; exact List.mem_cons_self
      have htrim : Text.trim line = [] := by
        by_contra hne
        have hmem := mem_nonblank.mpr ⟨hne, line, hline, rfl⟩
        rw [hblank] at hmem
        cases hmem
      exact .inl ⟨line, hline, htrim.symm⟩

/-- Every tier shows some of the text, or nothing. -/
theorem compress_shows (text : Text) (tier : Tier) :
    ShowsOrNothing text tier (compress text tier) := by
  cases tier with
  | full => exact .inl rfl
  | signatures => exact .inl (keepLines_shows text _)
  | factDelta => exact .inl (keepLines_shows text fun l _ _ => factLine l)
  | oneLine => exact oneLine_shows text

/-! ## Blocks -/

/-- Every block carries text of its candidate, and only the single block of the min-one guarantee is
below the floor of its kind. -/
structure Extractive (shows : Text → Tier → Text → Prop) (cands : List (Candidate S)) (p : Packed) :
    Prop where
  taken : ∀ b ∈ p.blocks, ∃ c ∈ cands, b.id = c.id ∧ b.kind = c.kind ∧ b.title = c.title ∧
    shows c.text b.tier b.text
  floor : ∀ b ∈ p.blocks, b.kind.floor.rank ≤ b.tier.rank ∨ p.blocks = [b] ∧ b.tier = .oneLine

section Blocks

variable [Unicode]

/-- The blocks that the greedy loop has chosen are of its candidates, not below their floors. -/
def Greedy.FromKept (kept : List (Candidate S)) (g : Greedy) : Prop :=
  ∀ b ∈ g.chosen, ∃ c ∈ kept, ∃ tier, b = blockAt c tier ∧ c.kind.floor.rank ≤ tier.rank

theorem placeStep_fromKept {avail : ℕ} {kept : List (Candidate S)} {g : Greedy}
    (hg : g.FromKept kept) {c : Candidate S} (hc : c ∈ kept) :
    (placeStep avail g c).FromKept kept := by
  unfold placeStep
  cases hplace : placeTier avail g.used c with
  | none => exact hg
  | some b =>
    intro x hx
    rcases List.mem_append.mp hx with hx | hx
    · exact hg x hx
    · obtain rfl := List.mem_singleton.mp hx
      obtain ⟨tier, hblock, hfloor, -⟩ := placeTier_eq_some hplace
      exact ⟨c, hc, tier, hblock, hfloor⟩

/-- What is placed comes from what is kept. -/
theorem place_fromKept (avail : ℕ) (kept : List (Candidate S)) :
    (place avail kept).FromKept kept := by
  have hloop : ∀ rest : List (Candidate S), rest ⊆ kept → ∀ g : Greedy, g.FromKept kept →
      (rest.foldl (placeStep avail) g).FromKept kept := by
    intro rest
    induction rest with
    | nil => exact fun _ _ hg => hg
    | cons c rest ih =>
      intro hrest g hg
      obtain ⟨hc, hrest⟩ := List.cons_subset.mp hrest
      exact ih hrest _ (placeStep_fromKept hg hc)
  exact hloop kept (List.Subset.refl _) {} fun _ hb => (List.not_mem_nil hb).elim

/-- The rescue chooses one block at the lowest tier, or it leaves all as it is. -/
theorem rescue_chosen (budget : ℕ) {kept : List (Candidate S)} {g : Greedy} (hg : g.FromKept kept) :
    (rescue budget kept g).FromKept kept ∨
      ∃ top ∈ kept, (rescue budget kept g).chosen = [blockAt top .oneLine] := by
  unfold rescue
  split
  next top rest hchosen =>
    by_cases hfit : (blockAt top .oneLine).tokens ≤ budget
    · simp only [hfit, if_true]
      exact .inr ⟨top, List.mem_cons_self, rfl⟩
    · simp only [hfit, if_false]
      exact .inl hg
  next => exact .inl hg

/-- A pack shows parts of its candidates. -/
theorem packRanked_extractive (options : PackOptions) (naive : ℕ) (ranked : List (Candidate S)) :
    Extractive ShowsOrNothing ranked (packRanked options naive ranked) := by
  have hkept := (dedup_thinned ranked).2.sublist.subset
  have hgreedy := rescue_chosen options.budgetTokens
    (place_fromKept (available options) (dedup ranked).kept)
  have hperm := orderBlocks_perm options
    (rescue options.budgetTokens (dedup ranked).kept
      (place (available options) (dedup ranked).kept)).chosen
  have hblock : ∀ c ∈ (dedup ranked).kept, ∀ tier, ∃ x ∈ ranked, (blockAt c tier).id = x.id ∧
      (blockAt c tier).kind = x.kind ∧ (blockAt c tier).title = x.title ∧
      ShowsOrNothing x.text (blockAt c tier).tier (blockAt c tier).text := fun c hc tier =>
    ⟨c, hkept hc, rfl, rfl, rfl, compress_shows c.text tier⟩
  rcases hgreedy with hfrom | ⟨top, htop, hchosen⟩
  · refine ⟨fun b hb => ?_, fun b hb => ?_⟩
    · obtain ⟨c, hc, tier, rfl, -⟩ := hfrom b (hperm.mem_iff.mp hb)
      exact hblock c hc tier
    · obtain ⟨c, hc, tier, rfl, hfloor⟩ := hfrom b (hperm.mem_iff.mp hb)
      exact .inl hfloor
  · rw [hchosen, List.perm_singleton] at hperm
    have hblocks : (packRanked options naive ranked).blocks = [blockAt top .oneLine] := by
      rw [← hperm, ← hchosen]
      rfl
    refine ⟨fun b hb => ?_, fun b hb => ?_⟩ <;> rw [hblocks] at hb <;>
      obtain rfl := List.mem_singleton.mp hb
    · exact hblock top htop .oneLine
    · exact .inr ⟨hblocks, rfl⟩

omit [Unicode] in
/-- The trust prior changes nothing that a block shows. -/
theorem Extractive.of_perm [Score S] {shows : Text → Tier → Text → Prop}
    {cands ranked : List (Candidate S)} {p : Packed} (h : Extractive shows ranked p)
    (hperm : ranked.Perm (cands.map trustAdjust)) : Extractive shows cands p := by
  refine ⟨fun b hb => ?_, h.floor⟩
  obtain ⟨x, hx, htaken⟩ := h.taken b hb
  obtain ⟨c, hc, rfl⟩ := List.mem_map.mp (hperm.mem_iff.mp hx)
  exact ⟨c, hc, htaken⟩

/-- **A pack is extractive**, in the order of the sort and in any other. -/
theorem pack_extractive [Score S] (options : PackOptions) (cands : List (Candidate S)) :
    Extractive ShowsOrNothing cands (pack options cands) ∧
      ∀ ranked : List (Candidate S), ranked.Perm (cands.map trustAdjust) →
        Extractive ShowsOrNothing cands (packRanked options (naiveTokens cands) ranked) := by
  have hranked : ∀ ranked : List (Candidate S), ranked.Perm (cands.map trustAdjust) →
      Extractive ShowsOrNothing cands (packRanked options (naiveTokens cands) ranked) :=
    fun ranked hperm => (packRanked_extractive options _ ranked).of_perm hperm
  exact ⟨hranked _ (rank_perm cands), hranked⟩

end Blocks

/-- A title without a text. -/
def titleOnly : Candidate ℚ := ⟨1, "a b c".toList, [], 1 / 2, .file⟩

/-- A title without a text is not a part of the text. -/
theorem titleOnly_not_extractive :
    let _ := Unicode.asciiOnly
    ¬Extractive Shows [titleOnly] (pack { budgetTokens := 4 } [titleOnly]) := by
  intro _ h
  have hblocks : (⟨1, .file, .oneLine, "a b c".toList, [], 4⟩ : PackedBlock) ∈
      (pack { budgetTokens := 4 } [titleOnly]).blocks := by
    rw [pack, rank, List.map_singleton, List.mergeSort_singleton]
    decide +kernel
  obtain ⟨c, hc, -, -, -, line, hline, -⟩ := h.taken _ hblocks
  obtain rfl := List.mem_singleton.mp hc
  cases hline

/-! ## The ladder -/

section Ladder

variable [Unicode]

/-- No tier costs more than the one above. -/
def LadderDescends (text : Text) : Prop :=
  estimateTokens (compress text .oneLine) ≤ estimateTokens (compress text .factDelta) ∧
    estimateTokens (compress text .factDelta) ≤ estimateTokens (compress text .signatures) ∧
      estimateTokens (compress text .signatures) ≤ estimateTokens (compress text .full)

/-- A line that stands for others costs no more. With facts, that is the line of the highest signal,
which may have a fact itself; without, that line stands for the first one that is not blank, and
this one for the lines of a signature. -/
def StandInsFit (text : Text) : Prop :=
  ∀ first ∈ (nonblank text).head?, ∀ best, LastMax lineSignal (nonblank text) best →
    if factLines text = [] then
      estimateTokens best ≤ estimateTokens first ∧ (signatureLines text ≠ [] →
        estimateTokens first ≤ estimateTokens (Text.joinLines (signatureLines text)))
    else
      factLine best = true ∨
        estimateTokens best ≤ estimateTokens (Text.joinLines (factLines text))

theorem tally_le_of_trim {line l : Text} (h : Text.trim line = l) :
    tally l ≤ tally (Text.joinLines [line]) := by
  have hjoin : Text.joinLines [line] = line := by simp [Text.joinLines]
  rw [hjoin, ← h]
  exact tally_le_of_isInfix (trim_isInfix line)

theorem tally_nonblank_le {text l : Text} (h : l ∈ nonblank text) : tally l ≤ tally text := by
  obtain ⟨-, line, hline, htrim⟩ := mem_nonblank.mp h
  refine (tally_le_of_trim htrim).trans (tally_joinLines_le_text (List.cons_ne_nil _ _) ?_)
  exact List.singleton_sublist.mpr hline

/-- The lines that are kept cost no more than the text. -/
theorem tally_keepLines_le (text : Text) (pred : Text → ℕ → ℕ → Bool) :
    tally (keepLines text pred) ≤ tally text := by
  rw [keepLines_eq]
  split
  · rw [firstNonblank_eq]
    cases hfirst : (nonblank text).head? with
    | none => exact tally_le_of_isInfix (List.nil_infix)
    | some first => exact tally_nonblank_le (List.mem_of_head? hfirst)
  next hne => exact tally_joinLines_le_text hne (keptLines_sublist text _)

/-- No tier costs more than the text. -/
theorem tally_compress_le (text : Text) (tier : Tier) : tally (compress text tier) ≤
    tally text := by
  cases tier with
  | full => exact le_refl _
  | signatures => exact tally_keepLines_le text signatureLine
  | factDelta => exact tally_keepLines_le text fun l _ _ => factLine l
  | oneLine =>
    rw [compress, oneLine_eq]
    cases hbest : Text.maxByKey lineSignal (nonblank text) with
    | none => exact tally_le_of_isInfix List.nil_infix
    | some best => exact tally_nonblank_le (maxByKey_eq_some.mp hbest).mem

/-- A line with a fact costs no more than all of them. -/
theorem estimateTokens_le_facts {text l : Text} (hl : l ∈ nonblank text)
    (hfact : factLine l = true) :
    estimateTokens l ≤ estimateTokens (Text.joinLines (factLines text)) := by
  obtain ⟨-, line, hline, htrim⟩ := mem_nonblank.mp hl
  rw [← htrim, factLine_trim] at hfact
  refine estimateTokens_le ((tally_le_of_trim htrim).trans ?_)
  refine tally_joinLines_le (List.cons_ne_nil _ _) (List.singleton_sublist.mpr ?_)
  exact mem_factLines.mpr ⟨hline, hfact⟩

/-- A text of blank lines shows nothing at any tier but the highest. -/
theorem ladderDescends_of_blank {text : Text} (h : nonblank text = []) : LadderDescends text := by
  have hsignatures := signatureLines_of_blank h
  have hfacts : factLines text = [] := List.sublist_nil.mp (hsignatures ▸ factLines_sublist text)
  have hfirst : firstNonblank text = [] := by rw [firstNonblank_eq, h]; rfl
  have hone : compress text .oneLine = [] := by rw [compress, oneLine_eq, h]; rfl
  rw [LadderDescends, hone, compress_factDelta, compress_signatures, if_pos hfacts,
    if_pos hsignatures, hfirst]
  exact ⟨le_refl _, le_refl _, estimateTokens_le (tally_le_of_isInfix List.nil_infix)⟩

/-- The same for the one first line and the one best line that there are. -/
theorem standInsFit_iff {text first best : Text} (hfirst : (nonblank text).head? = some first)
    (hbest : Text.maxByKey lineSignal (nonblank text) = some best) :
    StandInsFit text ↔
      if factLines text = [] then
        estimateTokens best ≤ estimateTokens first ∧ (signatureLines text ≠ [] →
          estimateTokens first ≤ estimateTokens (Text.joinLines (signatureLines text)))
      else
        factLine best = true ∨
          estimateTokens best ≤ estimateTokens (Text.joinLines (factLines text)) := by
  refine ⟨fun h => h first hfirst best (maxByKey_eq_some.mp hbest), fun h x hx y hy => ?_⟩
  obtain rfl := Option.some.inj (hfirst.symm.trans hx)
  obtain rfl := Option.some.inj (hbest.symm.trans (maxByKey_eq_some.mpr hy))
  exact h

/-- **When the ladder descends.** -/
theorem ladder_descends_iff (text : Text) : LadderDescends text ↔ StandInsFit text := by
  cases hfirst : (nonblank text).head? with
  | none =>
    refine iff_of_true (ladderDescends_of_blank (List.head?_eq_none_iff.mp hfirst)) ?_
    intro first h
    cases hfirst.symm.trans h
  | some first =>
    obtain ⟨best, hbest⟩ : ∃ best, Text.maxByKey lineSignal (nonblank text) = some best := by
      refine Option.ne_none_iff_exists'.mp fun hnone => ?_
      rw [maxByKey_eq_none.mp hnone] at hfirst
      cases hfirst
    have hmem := (maxByKey_eq_some.mp hbest).mem
    have hone : compress text .oneLine = best := by rw [compress, oneLine_eq, hbest]; rfl
    have hstand : firstNonblank text = first := by rw [firstNonblank_eq, hfirst]; rfl
    have hfull := estimateTokens_le (tally_compress_le text .signatures)
    rw [standInsFit_iff hfirst hbest, LadderDescends, hone, compress_factDelta]
    rw [compress_signatures] at hfull ⊢
    rw [hstand] at hfull ⊢
    by_cases hfacts : factLines text = []
    · rw [if_pos hfacts, if_pos hfacts]
      by_cases hsignatures : signatureLines text = []
      · rw [if_pos hsignatures] at hfull ⊢
        exact ⟨fun h => ⟨h.1, fun hne => absurd hsignatures hne⟩, fun h => ⟨h.1, le_refl _, hfull⟩⟩
      · rw [if_neg hsignatures] at hfull ⊢
        exact ⟨fun h => ⟨h.1, fun _ => h.2.1⟩, fun h => ⟨h.1, h.2 hsignatures, hfull⟩⟩
    · have hsignatures : signatureLines text ≠ [] := fun hnil =>
        hfacts (List.sublist_nil.mp (hnil ▸ factLines_sublist text))
      have hmiddle := estimateTokens_le (tally_joinLines_le hfacts (factLines_sublist text))
      rw [if_neg hsignatures] at hfull ⊢
      rw [if_neg hfacts, if_neg hfacts]
      constructor
      · exact fun h => .inr h.1
      · rintro (hfact | hle)
        · exact ⟨estimateTokens_le_facts hmem hfact, hmiddle, hfull⟩
        · exact ⟨hle, hmiddle, hfull⟩

end Ladder

/-- A line with a fact, and one of a higher signal without any. -/
def longProse : Text := "OK\nthis line is only long, it says nothing at all".toList

/-- Prose in which the second tier is longer than the first. -/
theorem longProse_grows :
    let _ := Unicode.asciiOnly
    ¬LadderDescends longProse := by
  intro _ h
  exact absurd h.1 (by decide +kernel)

/-- No line has a fact, and the first one that is not blank has no signature either. -/
example :
    let _ := Unicode.asciiOnly
    ¬LadderDescends "\na line in the middle\nend".toList := by
  intro _ h
  exact absurd h.2.1 (by decide +kernel)

end SynapseMemory.Pack
