import SynapseMemory.Splade

/-!
# What block-max pruning loses

The nested loops of `searchTopk` are one pass over a list of **visits**, one per block of each
query term. A visit is skipped or read, and the decision depends on the heap left by the visits
before it. Whatever the decisions are,

* the read and the skipped visits together carry every contribution that the exhaustive search
  adds up (`contributions_visits_perm`);
* the accumulator ends as the table of the contributions read (`scan_scores`).

So the pruned table underestimates the exhaustive one, and it differs from it at exactly the
documents that **lose** something to a skipped block. The bound of a skipped block leaves out
what its documents have already accumulated, and the heap may hold one document several times;
hence a losing document need not be a bad one. `searchTopk_lossless_iff` says which runs are exact
all the same, and `searchTopk_lossless` of which index and query that is known beforehand. -/

namespace SynapseMemory

namespace Splade

open ScoreTable

/-! ## The loops as one list of visits -/

namespace BlockMaxIndex

/-- The blocks of a list of query terms in the order of the loops. -/
def visits (idx : BlockMaxIndex) : List QueryTerm → List Visit
  | [] => []
  | q :: rest =>
    (((idx.terms q.tid).getD []).map fun block =>
      { qw := q.qw, remaining := suffixMax rest, block }) ++ visits idx rest

theorem scan_eq_foldl (idx : BlockMaxIndex) (k : ℕ) (terms : List QueryTerm) (st : SearchState) :
    idx.scan k terms st = (idx.visits terms).foldl (Visit.step k) st := by
  induction terms generalizing st with
  | nil => rfl
  | cons q rest ih =>
    rw [scan, visits]
    cases hq : idx.terms q.tid with
    | none => simpa using ih st
    | some blocks =>
      rw [List.foldl_append, ← ih, Option.getD_some, List.foldl_map]

end BlockMaxIndex

/-- The visits whose skip test fires in the state before them. -/
def skipped (k : ℕ) (st : SearchState) : List Visit → List Visit
  | [] => []
  | v :: rest => if v.skips k st then v :: skipped k st rest else skipped k (v.read k st) rest

/-- The visits that are read. -/
def read (k : ℕ) (st : SearchState) : List Visit → List Visit
  | [] => []
  | v :: rest => if v.skips k st then read k st rest else v :: read k (v.read k st) rest

theorem read_skipped_perm (k : ℕ) (st : SearchState) (vs : List Visit) :
    (read k st vs ++ skipped k st vs).Perm vs := by
  induction vs generalizing st with
  | nil => rfl
  | cons v rest ih =>
    rw [read, skipped]
    split
    · exact List.perm_middle.trans ((ih st).cons v)
    · exact (ih (v.read k st)).cons v

/-- What a block gives to the scores of its documents. -/
def Visit.contributions (v : Visit) : List ScoredDoc :=
  v.block.postings.map fun p => (p.1, v.qw * p.2)

theorem Visit.read_scores (k : ℕ) (st : SearchState) (v : Visit) :
    (v.read k st).scores = v.contributions.foldl (fun t c => add c.1 c.2 t) st.scores := by
  rw [Visit.read, Visit.contributions, List.foldl_map]
  induction v.block.postings generalizing st with
  | nil => rfl
  | cons p rest ih => exact ih (readPosting k v.qw st p)

/-- **The accumulator** is the table of the contributions read. -/
theorem foldl_step_scores (k : ℕ) (st : SearchState) (vs : List Visit) :
    (vs.foldl (Visit.step k) st).scores =
      ((read k st vs).flatMap Visit.contributions).foldl (fun t c => add c.1 c.2 t)
        st.scores := by
  induction vs generalizing st with
  | nil => rfl
  | cons v rest ih =>
    rw [List.foldl_cons, ih, Visit.step, read]
    split
    · rfl
    · rw [List.flatMap_cons, List.foldl_append, Visit.read_scores]

/-! ## What the index holds -/

/-- The postings of one term, in the order the documents were added. -/
def termPostings (docs : Docs) (t : TermId) : List Posting :=
  docs.flatMap fun d => (d.2.entries.filter (fun e => e.1 = t)).map fun e => (d.1, e.2)

theorem Block.fromPostings_perm (postings : List Posting) :
    (Block.fromPostings postings).postings.Perm postings :=
  List.perm_insertionSort _ postings

namespace BlockMaxIndex

/-- Everything the index holds of a term, sealed or not. -/
def held (idx : BlockMaxIndex) (t : TermId) : List Posting :=
  ((idx.terms t).getD []).flatMap Block.postings ++ idx.pending t

theorem held_addPosting (idx : BlockMaxIndex) (docId : DocId) (e : TermId × ℚ) (t : TermId) :
    ((idx.addPosting docId e).held t).Perm
      (idx.held t ++ if e.1 = t then [(docId, e.2)] else []) := by
  rw [addPosting]
  by_cases ht : e.1 = t
  · subst ht
    split
    · simp only [held, pushBlock, Function.update_self, Option.getD_some, List.flatMap_append,
        List.flatMap_singleton, List.append_nil, List.append_assoc, if_true]
      exact (Block.fromPostings_perm _).append_left _
    · simp [held]
  · have hne : t ≠ e.1 := fun h => ht h.symm
    split
    · simp [held, pushBlock, hne]
    · simp [held, hne]

theorem held_addDoc (idx : BlockMaxIndex) (docId : DocId) (v : SparseVec) (t : TermId) :
    ((idx.addDoc docId v).held t).Perm
      (idx.held t ++ (v.entries.filter (fun e => e.1 = t)).map fun e => (docId, e.2)) := by
  have hfold : ∀ (entries : List (TermId × ℚ)) (idx : BlockMaxIndex),
      ((entries.foldl (addPosting docId) idx).held t).Perm
        (idx.held t ++ (entries.filter (fun e => e.1 = t)).map fun e => (docId, e.2)) := by
    intro entries
    induction entries with
    | nil => intro idx; simp
    | cons e rest ih =>
      intro idx
      refine (ih _).trans (((held_addPosting idx docId e t).append_right _).trans ?_)
      by_cases ht : e.1 = t
      · simp [ht]
      · simp [ht]
  exact hfold v.entries _

theorem held_addDocs (docs : Docs) (idx : BlockMaxIndex) (t : TermId) :
    ((docs.foldl (fun idx d => idx.addDoc d.1 d.2) idx).held t).Perm
      (idx.held t ++ termPostings docs t) := by
  induction docs generalizing idx with
  | nil => simp [termPostings]
  | cons d rest ih =>
    refine (ih _).trans (((held_addDoc idx d.1 d.2 t).append_right _).trans ?_)
    simp [termPostings]

theorem flush_postings (idx : BlockMaxIndex) (t : TermId) :
    (((idx.flush).terms t).getD []).flatMap Block.postings |>.Perm (idx.held t) := by
  by_cases hp : idx.pending t = []
  · simp [flush, held, hp]
  · simp only [flush, held, hp, if_false, Option.getD_some, List.flatMap_append,
      List.flatMap_singleton]
    exact (Block.fromPostings_perm _).append_left _

/-- **The blocks of a term** hold its postings, each once. -/
theorem build_postings (blockSize : ℕ) (docs : Docs) (t : TermId) :
    (((build blockSize docs).terms t).getD []).flatMap Block.postings |>.Perm
      (termPostings docs t) :=
  (flush_postings _ t).trans (held_addDocs docs (new blockSize) t)

end BlockMaxIndex

namespace SpladeIndex

/-- The table of a collection with distinct ids is its postings, document by document. -/
theorem build_rows {docs : Docs} (hids : (docs.map Prod.fst).Nodup) :
    (build docs).postings =
      docs.flatMap fun d =>
        d.2.entries.map fun e => { termId := e.1, docId := d.1, weight := e.2 } := by
  have hfold : ∀ (docs : Docs) (idx : SpladeIndex), (docs.map Prod.fst).Nodup →
      (∀ r ∈ idx.postings, r.docId ∉ docs.map Prod.fst) →
      (docs.foldl (fun idx d => idx.addDoc d.1 d.2) idx).postings = idx.postings ++
        docs.flatMap fun d =>
          d.2.entries.map fun e => { termId := e.1, docId := d.1, weight := e.2 } := by
    intro docs
    induction docs with
    | nil => intro idx _ _; simp
    | cons d rest ih =>
      intro idx hnodup hfresh
      obtain ⟨hd, hrest⟩ := List.nodup_cons.mp hnodup
      have hkeep : idx.postings.filter (fun r => r.docId ≠ d.1) = idx.postings := by
        refine List.filter_eq_self.mpr fun r hr => ?_
        have := hfresh r hr
        simp_all
      rw [List.foldl_cons, ih _ hrest, addDoc, hkeep]
      · simp
      · intro r hr
        rw [addDoc, hkeep] at hr
        rcases List.mem_append.mp hr with hr | hr
        · have := hfresh r hr
          simp_all
        · obtain ⟨e, -, rfl⟩ := List.mem_map.mp hr
          exact hd
  simpa [build, open_] using hfold docs open_ hids (by simp [open_])

theorem termRows_build {docs : Docs} (hids : (docs.map Prod.fst).Nodup) (e : TermId × ℚ) :
    (build docs).termRows e = (termPostings docs e.1).map fun p => (p.1, e.2 * p.2) := by
  rw [termRows, build_rows hids, termPostings]
  simp [List.filter_flatMap, List.map_flatMap, List.filter_map, Function.comp_def]

end SpladeIndex

/-! ## Every contribution is visited -/

/-- All contributions of a query: what the exhaustive search adds up. -/
def contributions (docs : Docs) (query : SparseVec) : List ScoredDoc :=
  query.entries.flatMap fun e => (termPostings docs e.1).map fun p => (p.1, e.2 * p.2)

theorem visits_contributions (idx : BlockMaxIndex) (terms : List QueryTerm) :
    (idx.visits terms).flatMap Visit.contributions =
      terms.flatMap fun q => (((idx.terms q.tid).getD []).flatMap Block.postings).map
        fun p => (p.1, q.qw * p.2) := by
  induction terms with
  | nil => rfl
  | cons q rest ih =>
    rw [BlockMaxIndex.visits, List.flatMap_append, ih, List.flatMap_cons, List.flatMap_map,
      List.map_flatMap]
    rfl

/-- A term without blocks has no postings, so leaving it out of the query terms is harmless. -/
theorem contributions_visits_perm (blockSize : ℕ) (docs : Docs) (query : SparseVec) :
    (((BlockMaxIndex.build blockSize docs).visits
      ((BlockMaxIndex.build blockSize docs).queryTerms query)).flatMap Visit.contributions).Perm
      (contributions docs query) := by
  have hterm := BlockMaxIndex.build_postings blockSize docs
  generalize BlockMaxIndex.build blockSize docs = idx at hterm ⊢
  rw [visits_contributions, BlockMaxIndex.queryTerms]
  refine ((List.perm_insertionSort _ _).flatMap_right _).trans ?_
  rw [contributions]
  induction query.entries with
  | nil => rfl
  | cons e rest ih =>
    rw [List.flatMap_cons]
    cases he : idx.terms e.1 with
    | none =>
      have hnil : termPostings docs e.1 = [] := by
        have := hterm e.1
        rw [he] at this
        exact this.symm.eq_nil
      rw [List.filterMap_cons_none (by simp [he]), hnil]
      exact ih
    | some blocks =>
      rw [List.filterMap_cons_some (by rw [he]; rfl), List.flatMap_cons]
      exact ((hterm e.1).map _).append ih

/-! ## The exhaustive table holds the dot products -/

theorem total_scale (d : DocId) (c : ℚ) (ps : List Posting) :
    total d (ps.map fun p => (p.1, c * p.2)) = c * total d ps := by
  induction ps with
  | nil => simp
  | cons p rest ih =>
    rw [List.map_cons, total_cons, ih, total_cons, mul_add, mul_ite, mul_zero]

theorem total_entries (d : DocId) (v : SparseVec) (t : TermId) :
    total d ((v.entries.filter (fun e => e.1 = t)).map fun e => (d, e.2)) = v.weight t := by
  obtain ⟨entries, hnodup⟩ := v
  rw [SparseVec.weight]
  induction entries with
  | nil => rfl
  | cons e rest ih =>
    obtain ⟨hfresh, hrest⟩ := List.nodup_cons.mp hnodup
    obtain ⟨t', w⟩ := e
    by_cases ht : t' = t
    · subst ht
      have hnone : rest.filter (fun e => e.1 = t') = [] := by
        refine List.filter_eq_nil_iff.mpr fun e he heq => hfresh ?_
        exact List.mem_map.mpr ⟨e, he, of_decide_eq_true heq⟩
      simp [hnone, total]
    · rw [List.filter_cons_of_neg (by simpa using ht), List.lookup_cons]
      have hbeq : (t == t') = false := by simpa using Ne.symm ht
      rw [hbeq]
      exact ih hrest

theorem total_termPostings {docs : Docs} (hids : (docs.map Prod.fst).Nodup) {d : DocId}
    {v : SparseVec} (hd : (d, v) ∈ docs) (t : TermId) :
    total d (termPostings docs t) = v.weight t := by
  rw [termPostings, total_flatMap]
  induction docs with
  | nil => cases hd
  | cons e rest ih =>
    obtain ⟨hfresh, hrest⟩ := List.nodup_cons.mp hids
    have hother : ∀ e' : DocId × SparseVec, e'.1 ≠ d →
        total d ((e'.2.entries.filter (fun x => x.1 = t)).map fun x => (e'.1, x.2)) = 0 := by
      intro e' hne
      refine total_eq_zero fun c hc hcd => ?_
      obtain ⟨x, -, rfl⟩ := List.mem_map.mp hc
      exact absurd hcd hne
    rw [List.map_cons, List.sum_cons]
    rcases List.mem_cons.mp hd with rfl | hd
    · have hzero : (rest.map fun e' => total d
          ((e'.2.entries.filter (fun x => x.1 = t)).map fun x => (e'.1, x.2))).sum = 0 := by
        refine List.sum_eq_zero fun s hs => ?_
        obtain ⟨e', he', rfl⟩ := List.mem_map.mp hs
        refine hother e' fun heq => hfresh ?_
        exact List.mem_map.mpr ⟨e', he', heq⟩
      rw [hzero, add_zero]
      exact total_entries d v t
    · have hne : e.1 ≠ d := by
        rintro rfl
        exact hfresh (List.mem_map.mpr ⟨_, hd, rfl⟩)
      rw [hother e hne, zero_add]
      exact ih hrest hd

/-- The exhaustive score is the dot product. -/
theorem total_contributions {docs : Docs} (hids : (docs.map Prod.fst).Nodup) {d : DocId}
    {v : SparseVec} (hd : (d, v) ∈ docs) (query : SparseVec) :
    total d (contributions docs query) = query.dot v := by
  rw [contributions, total_flatMap, SparseVec.dot]
  simp only [total_scale, total_termPostings hids hd]

theorem mem_termPostings {docs : Docs} {t : TermId} {p : Posting} :
    p ∈ termPostings docs t ↔ ∃ v, (p.1, v) ∈ docs ∧ (t, p.2) ∈ v.entries := by
  obtain ⟨d, w⟩ := p
  simp only [termPostings, List.mem_flatMap, List.mem_map, List.mem_filter, Prod.exists,
    Prod.mk.injEq, decide_eq_true_eq]
  constructor
  · rintro ⟨d', v, hdocs, t', w', ⟨hmem, rfl⟩, rfl, rfl⟩
    exact ⟨v, hdocs, hmem⟩
  · rintro ⟨v, hdocs, hmem⟩
    exact ⟨d, v, hdocs, t, w, ⟨hmem, rfl⟩, rfl, rfl⟩

theorem mem_keys_contributions {docs : Docs} {query : SparseVec} {d : DocId} :
    d ∈ (contributions docs query).map Prod.fst ↔ ∃ v, (d, v) ∈ docs ∧ query.Shares v := by
  rw [List.mem_map]
  constructor
  · rintro ⟨c, hc, rfl⟩
    obtain ⟨e, he, hc⟩ := List.mem_flatMap.mp hc
    obtain ⟨p, hp, rfl⟩ := List.mem_map.mp hc
    obtain ⟨v, hv, hmem⟩ := mem_termPostings.mp hp
    exact ⟨v, hv, e, he, List.mem_map.mpr ⟨_, hmem, rfl⟩⟩
  · rintro ⟨v, hv, e, he, hshare⟩
    obtain ⟨x, hx, hxe⟩ := List.mem_map.mp hshare
    have hp : (d, x.2) ∈ termPostings docs e.1 := mem_termPostings.mpr ⟨v, hv, hxe ▸ hx⟩
    exact ⟨(d, e.2 * x.2), List.mem_flatMap.mpr ⟨e, he, List.mem_map.mpr ⟨_, hp, rfl⟩⟩, rfl⟩

/-- **The exhaustive table** lists the documents that share a term with the query, each with
its dot product. -/
theorem mem_exhaustive {docs : Docs} (hids : (docs.map Prod.fst).Nodup) {query : SparseVec}
    {d : DocId} {s : ℚ} :
    (d, s) ∈ tally (contributions docs query) ↔
      ∃ v, (d, v) ∈ docs ∧ query.Shares v ∧ s = query.dot v := by
  rw [mem_tally, mem_keys_contributions]
  constructor
  · rintro ⟨⟨v, hv, hshare⟩, rfl⟩
    exact ⟨v, hv, hshare, total_contributions hids hv query⟩
  · rintro ⟨v, hv, hshare, rfl⟩
    exact ⟨⟨v, hv, hshare⟩, (total_contributions hids hv query).symm⟩

/-! ## Documents that lose something to a skipped block -/

section Losing

variable (idx : BlockMaxIndex) (query : SparseVec) (k : ℕ)

/-- The visits of a search that its skip test drops, each in the state before it. -/
def skippedVisits : List Visit :=
  skipped k { scores := [], heap := [] } (idx.visits (idx.queryTerms query))

/-- The visits of a search that are read. -/
def readVisits : List Visit :=
  read k { scores := [], heap := [] } (idx.visits (idx.queryTerms query))

/-- A document loses to the skip test: a skipped block held a positive contribution for it, or
every block that mentions it was skipped. -/
def Loses (d : DocId) : Prop :=
  (∃ v ∈ skippedVisits idx query k, ∃ c ∈ v.contributions, c.1 = d ∧ 0 < c.2) ∨
    ((∃ v ∈ skippedVisits idx query k, ∃ c ∈ v.contributions, c.1 = d) ∧
      ¬ ∃ v ∈ readVisits idx query k, ∃ c ∈ v.contributions, c.1 = d)

instance (d : DocId) : Decidable (Loses idx query k d) :=
  inferInstanceAs (Decidable (_ ∨ _))

end Losing

/-- The search is lossless: it returns documents with their dot products, no document it leaves
out scores higher than one it returns, and its scores are those of the exhaustive search. -/
structure Lossless (docs : Docs) (query : SparseVec) (k : ℕ) (result : List ScoredDoc) : Prop where
  exact : ∀ r ∈ result, ∃ v, (r.1, v) ∈ docs ∧ r.2 = query.dot v
  omitted : ∀ d ∈ docs, d.1 ∉ result.map Prod.fst → ∀ r ∈ result, query.dot d.2 ≤ r.2
  scores : result.map Prod.snd = ((SpladeIndex.build docs).search query k).map Prod.snd

/-- The documents that can replace `d`: they share a term with the query, lose nothing, and
score at least as much. -/
def rivals (idx : BlockMaxIndex) (docs : Docs) (query : SparseVec) (k : ℕ)
    (d : DocId × SparseVec) : Docs :=
  docs.filter fun e =>
    query.Shares e.2 ∧ ¬ Loses idx query k e.1 ∧ query.dot d.2 ≤ query.dot e.2

theorem exists_contribution_iff {vs : List Visit} {P : ScoredDoc → Prop} :
    (∃ v ∈ vs, ∃ c ∈ v.contributions, P c) ↔ ∃ c ∈ vs.flatMap Visit.contributions, P c := by
  constructor
  · rintro ⟨v, hv, c, hc, hP⟩
    exact ⟨c, List.mem_flatMap.mpr ⟨v, hv, hc⟩, hP⟩
  · rintro ⟨c, hc, hP⟩
    obtain ⟨v, hv, hc⟩ := List.mem_flatMap.mp hc
    exact ⟨v, hv, c, hc, hP⟩

section Exact

variable (docs : Docs) (query : SparseVec) (k blockSize : ℕ)

/-- The contributions that the pruned search adds up. -/
def readContributions : List ScoredDoc :=
  (readVisits (BlockMaxIndex.build blockSize docs) query k).flatMap Visit.contributions

/-- The contributions that it leaves out. -/
def skippedContributions : List ScoredDoc :=
  (skippedVisits (BlockMaxIndex.build blockSize docs) query k).flatMap Visit.contributions

theorem contributions_split :
    (readContributions docs query k blockSize ++ skippedContributions docs query k blockSize).Perm
      (contributions docs query) := by
  rw [readContributions, skippedContributions, ← List.flatMap_append]
  exact ((read_skipped_perm k _ _).flatMap_right _).trans
    (contributions_visits_perm blockSize docs query)

theorem scan_scores :
    ((BlockMaxIndex.build blockSize docs).scan k
      ((BlockMaxIndex.build blockSize docs).queryTerms query) { scores := [], heap := [] }).scores =
      tally (readContributions docs query k blockSize) := by
  rw [BlockMaxIndex.scan_eq_foldl, foldl_step_scores]
  rfl

theorem search_eq_best (hids : (docs.map Prod.fst).Nodup) (hq : query.entries ≠ []) (hk : k ≠ 0) :
    (SpladeIndex.build docs).search query k = best k (tally (contributions docs query)) := by
  rw [SpladeIndex.search, if_neg (by simp [hq, hk]), funext (SpladeIndex.termRows_build hids)]
  rfl

theorem total_split (d : DocId) :
    total d (contributions docs query) = total d (readContributions docs query k blockSize) +
      total d (skippedContributions docs query k blockSize) := by
  rw [← total_perm (contributions_split docs query k blockSize), total_append]

variable {docs query k blockSize}

theorem contributions_nonneg (hdocs : ∀ d ∈ docs, d.2.Nonneg) (hquery : query.Nonneg)
    {c : ScoredDoc} (hc : c ∈ contributions docs query) : 0 ≤ c.2 := by
  obtain ⟨e, he, hc⟩ := List.mem_flatMap.mp hc
  obtain ⟨p, hp, rfl⟩ := List.mem_map.mp hc
  obtain ⟨v, hv, hmem⟩ := mem_termPostings.mp hp
  exact mul_nonneg (hquery e he) (hdocs _ hv (e.1, p.2) hmem)

theorem skipped_subset {c : ScoredDoc} (hc : c ∈ skippedContributions docs query k blockSize) :
    c ∈ contributions docs query :=
  (contributions_split docs query k blockSize).mem_iff.mp (List.mem_append_right _ hc)

theorem total_skipped_nonneg (hdocs : ∀ d ∈ docs, d.2.Nonneg) (hquery : query.Nonneg)
    (d : DocId) : 0 ≤ total d (skippedContributions docs query k blockSize) := by
  refine List.sum_nonneg fun s hs => ?_
  obtain ⟨c, hc, rfl⟩ := List.mem_map.mp hs
  exact contributions_nonneg hdocs hquery (skipped_subset (List.mem_filter.mp hc).1)

theorem total_skipped_eq_zero_iff (hdocs : ∀ d ∈ docs, d.2.Nonneg) (hquery : query.Nonneg)
    (d : DocId) : total d (skippedContributions docs query k blockSize) = 0 ↔
      ¬ ∃ c ∈ skippedContributions docs query k blockSize, c.1 = d ∧ 0 < c.2 := by
  have hnonneg : ∀ c ∈ skippedContributions docs query k blockSize, 0 ≤ c.2 :=
    fun c hc => contributions_nonneg hdocs hquery (skipped_subset hc)
  constructor
  · rintro hzero ⟨c, hc, rfl, hpos⟩
    have hmem : c.2 ∈ ((skippedContributions docs query k blockSize).filter
        (fun c' => c'.1 = c.1)).map Prod.snd :=
      List.mem_map_of_mem (List.mem_filter.mpr ⟨hc, by simp⟩)
    have hle := List.single_le_sum (fun s hs => by
      obtain ⟨c', hc', rfl⟩ := List.mem_map.mp hs
      exact hnonneg c' (List.mem_filter.mp hc').1) _ hmem
    exact absurd (hle.trans_eq hzero) (not_le.mpr hpos)
  · intro hnone
    refine total_eq_zero fun c hc hcd => ?_
    refine le_antisymm (not_lt.mp fun hpos => hnone ⟨c, hc, hcd, hpos⟩) (hnonneg c hc)

/-- **The entries the pruned table lacks** are those of the losing documents. -/
theorem not_mem_read_iff (hdocs : ∀ d ∈ docs, d.2.Nonneg) (hquery : query.Nonneg)
    {p : ScoredDoc} (hp : p ∈ tally (contributions docs query)) :
    p ∉ tally (readContributions docs query k blockSize) ↔
      Loses (BlockMaxIndex.build blockSize docs) query k p.1 := by
  obtain ⟨d, s⟩ := p
  obtain ⟨hd, rfl⟩ := mem_tally.mp hp
  have hkeys : ∀ l : List ScoredDoc, (∃ c ∈ l, c.1 = d) ↔ d ∈ l.map Prod.fst :=
    fun l => List.mem_map.symm
  have hsplit : d ∉ (readContributions docs query k blockSize).map Prod.fst →
      d ∈ (skippedContributions docs query k blockSize).map Prod.fst := by
    intro hread
    have := ((contributions_split docs query k blockSize).map Prod.fst).mem_iff.mpr hd
    rw [List.map_append, List.mem_append] at this
    exact this.resolve_left hread
  rw [Loses, exists_contribution_iff, exists_contribution_iff, exists_contribution_iff,
    ← readContributions, ← skippedContributions, hkeys, hkeys, mem_tally,
    total_split docs query k blockSize]
  have hzero : total d (skippedContributions docs query k blockSize) = 0 ↔ _ :=
    total_skipped_eq_zero_iff hdocs hquery d
  constructor
  · intro hmiss
    by_cases hread : d ∈ (readContributions docs query k blockSize).map Prod.fst
    · left
      by_contra hnone
      exact hmiss ⟨hread, by rw [hzero.mpr hnone, add_zero]⟩
    · exact .inr ⟨hsplit hread, hread⟩
  · rintro (hlost | ⟨-, hunread⟩) ⟨hread, hsum⟩
    · exact hzero.mp (add_eq_left.mp hsum) hlost
    · exact hunread hread

/-- A losing document shares a term with the query. -/
theorem Loses.mem_keys {d : DocId} (h : Loses (BlockMaxIndex.build blockSize docs) query k d) :
    d ∈ (contributions docs query).map Prod.fst := by
  rw [Loses, exists_contribution_iff, exists_contribution_iff, exists_contribution_iff,
    ← skippedContributions] at h
  rcases h with ⟨c, hc, rfl, -⟩ | ⟨⟨c, hc, rfl⟩, -⟩
  · exact List.mem_map_of_mem (skipped_subset hc)
  · exact List.mem_map_of_mem (skipped_subset hc)

theorem read_underestimates (hdocs : ∀ d ∈ docs, d.2.Nonneg) (hquery : query.Nonneg) :
    Underestimates (tally (readContributions docs query k blockSize))
      (tally (contributions docs query)) := by
  rintro ⟨d, s⟩ hp
  obtain ⟨hd, rfl⟩ := mem_tally.mp hp
  refine ⟨_, mem_tally.mpr ⟨?_, rfl⟩, ?_⟩
  · refine ((contributions_split docs query k blockSize).map Prod.fst).mem_iff.mp ?_
    rw [List.map_append]
    exact List.mem_append_left _ hd
  · rw [total_split docs query k blockSize]
    exact le_add_of_nonneg_right (total_skipped_nonneg hdocs hquery d)

/-- The entries both tables hold, counted from a score on, are the rivals at that score. -/
theorem reach_kept_eq_rivals (hids : (docs.map Prod.fst).Nodup)
    (hdocs : ∀ d ∈ docs, d.2.Nonneg) (hquery : query.Nonneg) (d : DocId × SparseVec) :
    reach (kept (tally (readContributions docs query k blockSize))
      (tally (contributions docs query))) (query.dot d.2) =
      (rivals (BlockMaxIndex.build blockSize docs) docs query k d).length := by
  have hinj : (docs.map fun e => (e.1, query.dot e.2)).Nodup := by
    refine List.Nodup.of_map Prod.fst ?_
    rw [List.map_map]
    exact hids
  have hperm : ((kept (tally (readContributions docs query k blockSize))
      (tally (contributions docs query))).filter (fun p => query.dot d.2 ≤ p.2)).Perm
      ((rivals (BlockMaxIndex.build blockSize docs) docs query k d).map
        fun e => (e.1, query.dot e.2)) := by
    refine (List.perm_ext_iff_of_nodup ?_ ?_).mpr ?_
    · exact ((List.Nodup.of_map _ (nodup_keys_tally _)).filter _).filter _
    · exact hinj.sublist (List.filter_sublist.map _)
    · rintro ⟨e, s⟩
      simp only [kept, rivals, List.mem_filter, List.mem_map, decide_eq_true_eq, Prod.mk.injEq]
      constructor
      · rintro ⟨⟨hread, hall⟩, hle⟩
        obtain ⟨v, hv, hshare, rfl⟩ := (mem_exhaustive hids).mp hall
        have hkeeps := (not_congr (not_mem_read_iff hdocs hquery hall)).mp (not_not.mpr hread)
        exact ⟨(e, v), ⟨hv, hshare, hkeeps, hle⟩, rfl, rfl⟩
      · rintro ⟨⟨e', v⟩, ⟨hv, hshare, hkeeps, hle⟩, rfl, rfl⟩
        have hall := (mem_exhaustive hids).mpr ⟨v, hv, hshare, rfl⟩
        exact ⟨⟨not_not.mp ((not_congr (not_mem_read_iff hdocs hquery hall)).mpr hkeeps), hall⟩,
          hle⟩
  rw [reach, List.countP_eq_length_filter, hperm.length_eq, List.length_map]

/-- Exact entries with the exhaustive scores leave out no better document. -/
theorem lossless_of_best (hids : (docs.map Prod.fst).Nodup) (hdocs : ∀ d ∈ docs, d.2.Nonneg)
    (hquery : query.Nonneg) (hq : query.entries ≠ []) (hk : k ≠ 0) {result : List ScoredDoc}
    (hnodup : result.Nodup) (hsub : ∀ r ∈ result, r ∈ tally (contributions docs query))
    (hscores : result.map Prod.snd = (best k (tally (contributions docs query))).map Prod.snd) :
    Lossless docs query k result where
  exact := by
    intro r hr
    obtain ⟨v, hv, -, heq⟩ := (mem_exhaustive hids).mp (hsub r hr)
    exact ⟨v, hv, heq⟩
  omitted := by
    rintro ⟨d, v⟩ hd hout r hr
    by_contra hlt
    rw [not_le] at hlt
    have hpos : 0 ≤ r.2 := by
      obtain ⟨hr, heq⟩ := mem_tally.mp (hsub r hr)
      rw [heq]
      refine List.sum_nonneg fun s hs => ?_
      obtain ⟨c, hc, rfl⟩ := List.mem_map.mp hs
      exact contributions_nonneg hdocs hquery (List.mem_filter.mp hc).1
    -- a document that shares no term scores zero
    have hshare : query.Shares v := by
      by_contra hnone
      have hzero : query.dot v = 0 := by
        rw [← total_contributions hids hd query]
        refine total_eq_zero fun c hc hcd => ?_
        obtain ⟨v', hv', hs⟩ := mem_keys_contributions.mp (List.mem_map_of_mem hc)
        have := List.inj_on_of_nodup_map hids hv' hd hcd
        exact absurd ((Prod.mk.inj this).2 ▸ hs) hnone
      exact absurd (hpos.trans_lt hlt) (by simp [hzero])
    have hall := (mem_exhaustive hids).mpr ⟨v, hd, hshare, rfl⟩
    exact hout (List.mem_map_of_mem (mem_of_best_scores hnodup hsub hscores hall hr hlt))
  scores := by rw [search_eq_best docs query k hids hq hk, hscores]

/-- For the best entries of what was read, being lossless is being exact with the best scores. -/
theorem lossless_best_iff (hids : (docs.map Prod.fst).Nodup) (hdocs : ∀ d ∈ docs, d.2.Nonneg)
    (hquery : query.Nonneg) (hq : query.entries ≠ []) (hk : k ≠ 0) :
    Lossless docs query k (best k (tally (readContributions docs query k blockSize))) ↔
      (∀ p ∈ best k (tally (readContributions docs query k blockSize)),
        p ∈ tally (contributions docs query)) ∧
      (best k (tally (readContributions docs query k blockSize))).map Prod.snd =
        (best k (tally (contributions docs query))).map Prod.snd := by
  constructor
  · rintro ⟨hexact, -, hscores⟩
    refine ⟨fun p hp => ?_, by rw [hscores, search_eq_best docs query k hids hq hk]⟩
    obtain ⟨v, hv, heq⟩ := hexact p hp
    obtain ⟨s, hs, -⟩ := read_underestimates hdocs hquery p (mem_of_mem_best hp)
    obtain ⟨v', hv', -, rfl⟩ := (mem_exhaustive hids).mp hs
    have hvv := List.inj_on_of_nodup_map hids hv hv' rfl
    rw [← (Prod.mk.inj hvv).2, ← heq] at hs
    exact hs
  · rintro ⟨hsub, hscores⟩
    exact lossless_of_best hids hdocs hquery hq hk (nodup_best (nodup_keys_tally _)) hsub hscores

end Exact

/-- **When a search was lossless**: exactly when every document that lost something to a skipped
block can be replaced by `k` documents that lost nothing and score at least as much. -/
theorem searchTopk_lossless_iff (blockSize k : ℕ) (docs : Docs) (query : SparseVec)
    (hids : (docs.map Prod.fst).Nodup) (hdocs : ∀ d ∈ docs, d.2.Nonneg)
    (hquery : query.Nonneg) :
    Lossless docs query k ((BlockMaxIndex.build blockSize docs).searchTopk query k) ↔
      ∀ d ∈ docs, Loses (BlockMaxIndex.build blockSize docs) query k d.1 →
        k ≤ (rivals (BlockMaxIndex.build blockSize docs) docs query k d).length := by
  by_cases htriv : query.entries = [] ∨ k = 0
  · have hsearch : (BlockMaxIndex.build blockSize docs).searchTopk query k = [] := if_pos htriv
    have hexact : (SpladeIndex.build docs).search query k = [] := if_pos htriv
    have hlossless : Lossless docs query k [] := ⟨by simp, by simp, by rw [hexact]⟩
    rw [hsearch]
    refine ⟨fun _ d _ hloses => ?_, fun _ => hlossless⟩
    rcases htriv with hq | rfl
    · -- no query term, no visit
      simp [Loses, skippedVisits, BlockMaxIndex.queryTerms, hq, BlockMaxIndex.visits,
        skipped] at hloses
    · exact Nat.zero_le _
  · have hsearch : (BlockMaxIndex.build blockSize docs).searchTopk query k =
        best k (tally (readContributions docs query k blockSize)) := by
      rw [BlockMaxIndex.searchTopk, if_neg htriv, scan_scores]
    rw [not_or] at htriv
    obtain ⟨hq, hk⟩ := htriv
    have hbest :=
      best_exact_iff (k := k) (nodup_keys_tally (readContributions docs query k blockSize))
        (nodup_keys_tally (contributions docs query)) (read_underestimates hdocs hquery)
    rw [hsearch, lossless_best_iff hids hdocs hquery hq hk, hbest]
    constructor
    · rintro h ⟨d, v⟩ hd hloses
      obtain ⟨v', hv', hshare⟩ := mem_keys_contributions.mp hloses.mem_keys
      have hvv := List.inj_on_of_nodup_map hids hd hv' rfl
      rw [← (Prod.mk.inj hvv).2] at hshare
      have hall := (mem_exhaustive hids).mpr ⟨v, hd, hshare, rfl⟩
      rw [← reach_kept_eq_rivals hids hdocs hquery]
      exact h _ hall ((not_mem_read_iff hdocs hquery hall).mpr hloses)
    · rintro h ⟨d, s⟩ hp hmiss
      obtain ⟨v, hv, -, rfl⟩ := (mem_exhaustive hids).mp hp
      have := h (d, v) hv ((not_mem_read_iff hdocs hquery hp).mp hmiss)
      rwa [← reach_kept_eq_rivals hids hdocs hquery] at this

/-! ## The documents that may lose something

Which blocks are skipped depends on the heap, which has stale scores of a search that skipped
others. A search that reads everything goes through greater scores, and more of them: where it has
not met `k` scores that reach the bound of a block, the block is read. -/

/-- The scores that the documents of some contributions go through, after others. -/
def partialSums (before : List ScoredDoc) : List ScoredDoc → List ℚ
  | [] => []
  | c :: rest => (total c.1 before + c.2) :: partialSums (before ++ [c]) rest

theorem partialSums_append (before cs cs' : List ScoredDoc) :
    partialSums before (cs ++ cs') = partialSums before cs ++ partialSums (before ++ cs) cs' := by
  induction cs generalizing before with
  | nil => rw [List.nil_append, partialSums, List.nil_append, List.append_nil]
  | cons c rest ih =>
    rw [List.cons_append, partialSums, partialSums, ih, List.append_assoc]
    rfl

/-- Its block may be skipped: `k` of the scores before it reach its upper bound. -/
def Visit.Doubtful (k : ℕ) (before : List ScoredDoc) (v : Visit) : Prop :=
  k ≤ (partialSums [] before).countP (v.blockUpper ≤ ·)

instance (k : ℕ) (before : List ScoredDoc) (v : Visit) : Decidable (v.Doubtful k before) :=
  inferInstanceAs (Decidable (_ ≤ _))

/-- The visits that may be skipped. -/
def doubtful (k : ℕ) (before : List ScoredDoc) : List Visit → List Visit
  | [] => []
  | v :: rest =>
    if v.Doubtful k before then v :: doubtful k (before ++ v.contributions) rest
    else doubtful k (before ++ v.contributions) rest

/-- The visits that are read whatever becomes of the others. -/
def settled (k : ℕ) (before : List ScoredDoc) : List Visit → List Visit
  | [] => []
  | v :: rest =>
    if v.Doubtful k before then settled k (before ++ v.contributions) rest
    else v :: settled k (before ++ v.contributions) rest

section MayLose

variable (idx : BlockMaxIndex) (query : SparseVec) (k : ℕ)

/-- A document may lose something: a doubtful block holds a positive contribution for it, or every
block that mentions it is doubtful. -/
def MayLose (d : DocId) : Prop :=
  (∃ v ∈ doubtful k [] (idx.visits (idx.queryTerms query)),
      ∃ c ∈ v.contributions, c.1 = d ∧ 0 < c.2) ∨
    ((∃ v ∈ doubtful k [] (idx.visits (idx.queryTerms query)), ∃ c ∈ v.contributions, c.1 = d) ∧
      ¬∃ v ∈ settled k [] (idx.visits (idx.queryTerms query)), ∃ c ∈ v.contributions, c.1 = d)

instance (d : DocId) : Decidable (MayLose idx query k d) := inferInstanceAs (Decidable (_ ∨ _))

end MayLose

/-- The documents that can surely replace `d`. -/
def sureRivals (idx : BlockMaxIndex) (docs : Docs) (query : SparseVec) (k : ℕ)
    (d : DocId × SparseVec) : Docs :=
  docs.filter fun e =>
    query.Shares e.2 ∧ ¬MayLose idx query k e.1 ∧ query.dot d.2 ≤ query.dot e.2

theorem HeapEntry.le_of_le {a b : HeapEntry} (h : a.le b) : a.1 ≤ b.1 := by
  rcases h with h | ⟨h, -⟩
  · exact h.le
  · exact h.le

theorem HeapEntry.le_of_not_le {a b : HeapEntry} (h : ¬a.le b) : b.1 ≤ a.1 := by
  by_contra hlt
  exact h (.inl (not_le.mp hlt))

/-- The heap is sorted by score. -/
def Heap.Sorted (heap : Heap) : Prop := heap.Pairwise fun a b => a.1 ≤ b.1

theorem Heap.Sorted.push {heap : Heap} (h : heap.Sorted) (e : HeapEntry) :
    (heap.push e).Sorted := by
  induction heap with
  | nil => exact List.pairwise_singleton _ e
  | cons x rest ih =>
    obtain ⟨hx, hrest⟩ := List.pairwise_cons.mp h
    rw [Heap.push, List.orderedInsert_cons]
    split
    next hle =>
      refine List.pairwise_cons.mpr ⟨List.forall_mem_cons.mpr
        ⟨HeapEntry.le_of_le hle, fun y hy => ?_⟩, h⟩
      exact (HeapEntry.le_of_le hle).trans (hx y hy)
    next hnot =>
      refine List.pairwise_cons.mpr ⟨fun y hy => ?_, ih hrest⟩
      rcases List.mem_cons.mp ((List.perm_orderedInsert _ e rest).subset hy) with rfl | hy
      · exact HeapEntry.le_of_not_le hnot
      · exact hx y hy

theorem Heap.trim_suffix (limit : ℕ) (heap : Heap) : Heap.trim limit heap <:+ heap := by
  induction heap with
  | nil => exact List.suffix_rfl
  | cons e rest ih =>
    rw [Heap.trim]
    split
    · exact ih.trans (List.suffix_cons e rest)
    · exact List.suffix_rfl

/-- A sorted heap with its least score above a bound is above it. -/
theorem Heap.Sorted.countP {heap : Heap} (h : heap.Sorted) {u : ℚ} (hmin : u ≤ heap.min) :
    heap.countP (fun e => u ≤ e.1) = heap.length := by
  cases heap with
  | nil => rfl
  | cons e rest =>
    refine List.countP_eq_length.mpr fun x hx => decide_eq_true ?_
    rcases List.mem_cons.mp hx with rfl | hx
    · exact hmin
    · exact hmin.trans ((List.pairwise_cons.mp h).1 x hx)

theorem lookup_cons_ite (e : DocId) (p : ScoredDoc) (t : List ScoredDoc) :
    (p :: t).lookup e = if p.1 = e then some p.2 else t.lookup e := by
  rw [List.lookup_cons]
  by_cases h : p.1 = e
  · rw [if_pos h, beq_iff_eq.mpr h.symm]
  · rw [if_neg h, beq_eq_false_iff_ne.mpr (Ne.symm h)]

/-- The score of a document after an addition. -/
theorem lookup_add (d e : DocId) (c : ℚ) (t : List ScoredDoc) :
    ((add d c t).lookup e).getD 0 = (t.lookup e).getD 0 + if d = e then c else 0 := by
  induction t with
  | nil =>
    rw [add, lookup_cons_ite, List.lookup_nil]
    split <;> simp
  | cons p rest ih =>
    obtain ⟨x, s⟩ := p
    by_cases hx : x = d
    · subst hx
      rw [add, if_pos rfl, lookup_cons_ite, lookup_cons_ite]
      split <;> simp
    · rw [add, if_neg hx, lookup_cons_ite, lookup_cons_ite]
      split
      next he => simp [show ¬d = e from fun h => hx (he.trans h.symm)]
      next => exact ih

/-- A search has no greater scores than one that reads everything, nor more of them. -/
structure Follows (st : SearchState) (before : List ScoredDoc) : Prop where
  score : ∀ d, (st.scores.lookup d).getD 0 ≤ total d before
  heap : ∀ u : ℚ, st.heap.countP (fun e => u ≤ e.1) ≤ (partialSums [] before).countP (u ≤ ·)
  sorted : st.heap.Sorted

section Follows

variable {st : SearchState} {before : List ScoredDoc} {k : ℕ}

/-- **Skipping** leaves the search behind. -/
theorem Follows.skip (h : Follows st before) {cs : List ScoredDoc} (hcs : ∀ c ∈ cs, 0 ≤ c.2) :
    Follows st (before ++ cs) where
  score d := by
    rw [total_append]
    refine (h.score d).trans (le_add_of_nonneg_right (List.sum_nonneg fun s hs => ?_))
    obtain ⟨c, hc, rfl⟩ := List.mem_map.mp hs
    exact hcs c (List.mem_filter.mp hc).1
  heap u := by
    rw [partialSums_append, List.countP_append]
    exact (h.heap u).trans (Nat.le_add_right _ _)
  sorted := h.sorted

/-- **Reading** a posting adds no more to its score than to the full one. -/
theorem Follows.readPosting (h : Follows st before) (qw : ℚ) (p : Posting) :
    Follows (Visit.readPosting k qw st p) (before ++ [(p.1, qw * p.2)]) := by
  have hsingle : ∀ d, total d [(p.1, qw * p.2)] = if p.1 = d then qw * p.2 else 0 := by
    intro d
    rw [total_cons, total_nil, add_zero]
  have hscore : ∀ d, ((add p.1 (qw * p.2) st.scores).lookup d).getD 0 ≤
      total d (before ++ [(p.1, qw * p.2)]) := by
    intro d
    rw [lookup_add, total_append, hsingle]
    exact add_le_add_left (h.score d) _
  have hpushed : ∀ u : ℚ, (st.heap.push
      (((add p.1 (qw * p.2) st.scores).lookup p.1).getD 0, p.1)).countP (fun e => u ≤ e.1) ≤
        (partialSums [] (before ++ [(p.1, qw * p.2)])).countP (u ≤ ·) := by
    intro u
    have hnew := hscore p.1
    rw [total_append, hsingle, if_pos rfl] at hnew
    rw [Heap.push, (List.perm_orderedInsert _ _ _).countP_eq, List.countP_cons, partialSums_append,
      List.countP_append, List.nil_append]
    refine Nat.add_le_add (h.heap u) ?_
    rw [partialSums, partialSums, List.countP_singleton]
    split
    next hu => rw [if_pos (decide_eq_true ((of_decide_eq_true hu).trans hnew))]
    next => exact Nat.zero_le _
  have hkept : ∀ u : ℚ, st.heap.countP (fun e => u ≤ e.1) ≤
      (partialSums [] (before ++ [(p.1, qw * p.2)])).countP (u ≤ ·) := by
    intro u
    rw [partialSums_append, List.countP_append]
    exact (h.heap u).trans (Nat.le_add_right _ _)
  rw [Visit.readPosting]
  refine ⟨hscore, ?_, ?_⟩
  · intro u
    dsimp only
    split
    · exact hpushed u
    · split
      · exact ((Heap.trim_suffix _ _).sublist.countP_le).trans (hpushed u)
      · exact hkept u
  · dsimp only
    split
    · exact h.sorted.push _
    · split
      · exact (h.sorted.push _).sublist (Heap.trim_suffix _ _).sublist
      · exact h.sorted

theorem Follows.readBlock (h : Follows st before) (v : Visit) :
    Follows (v.read k st) (before ++ v.contributions) := by
  rw [Visit.read, Visit.contributions]
  induction v.block.postings generalizing st before with
  | nil => simpa using h
  | cons p rest ih =>
    rw [List.foldl_cons, List.map_cons, List.append_cons]
    exact ih (h.readPosting v.qw p)

/-- **What is skipped is doubtful.** -/
theorem Follows.doubtful_of_skips (h : Follows st before) {v : Visit}
    (hskips : v.skips k st = true) : v.Doubtful k before := by
  obtain ⟨hk, hmin⟩ := Bool.and_eq_true_iff.mp hskips
  have hheap := h.sorted.countP (of_decide_eq_true hmin)
  exact (of_decide_eq_true hk).trans (hheap.ge.trans (h.heap _))

/-- **Along the visits** the skipped ones are doubtful, and the settled ones are read. -/
theorem Follows.skipped_subset (h : Follows st before) {vs : List Visit}
    (hvs : ∀ v ∈ vs, ∀ c ∈ v.contributions, 0 ≤ c.2) :
    skipped k st vs ⊆ doubtful k before vs ∧ settled k before vs ⊆ read k st vs := by
  induction vs generalizing st before with
  | nil => exact ⟨List.Subset.refl _, List.Subset.refl _⟩
  | cons v rest ih =>
    obtain ⟨hv, hrest⟩ := List.forall_mem_cons.mp hvs
    rw [skipped, doubtful, settled, read]
    by_cases hskips : v.skips k st = true
    · obtain ⟨hsub, hsub'⟩ := ih (h.skip hv) hrest
      rw [if_pos hskips, if_pos hskips, if_pos (h.doubtful_of_skips hskips),
        if_pos (h.doubtful_of_skips hskips)]
      exact ⟨List.cons_subset_cons v hsub, hsub'⟩
    · obtain ⟨hsub, hsub'⟩ := ih (h.readBlock v) hrest
      rw [if_neg hskips, if_neg hskips]
      split
      · exact ⟨List.subset_cons_of_subset v hsub, List.subset_cons_of_subset v hsub'⟩
      · exact ⟨hsub, List.cons_subset_cons v hsub'⟩

end Follows

/-- Documents that lose something may. -/
theorem Loses.mayLose {blockSize k : ℕ} {docs : Docs} {query : SparseVec}
    (hdocs : ∀ d ∈ docs, d.2.Nonneg) (hquery : query.Nonneg) {d : DocId}
    (h : Loses (BlockMaxIndex.build blockSize docs) query k d) :
    MayLose (BlockMaxIndex.build blockSize docs) query k d := by
  have hstart : Follows { scores := [], heap := [] } [] :=
    ⟨fun _ => le_refl _, fun _ => le_refl _, List.Pairwise.nil⟩
  have hnonneg : ∀ v ∈ (BlockMaxIndex.build blockSize docs).visits
      ((BlockMaxIndex.build blockSize docs).queryTerms query), ∀ c ∈ v.contributions, 0 ≤ c.2 :=
    fun v hv c hc => contributions_nonneg hdocs hquery
      ((contributions_visits_perm blockSize docs query).subset (List.mem_flatMap.mpr ⟨v, hv, hc⟩))
  obtain ⟨hskipped, hread⟩ := hstart.skipped_subset (k := k) hnonneg
  rcases h with ⟨v, hv, hpos⟩ | ⟨⟨v, hv, hmention⟩, hunread⟩
  · exact .inl ⟨v, hskipped hv, hpos⟩
  · refine .inr ⟨⟨v, hskipped hv, hmention⟩, ?_⟩
    rintro ⟨v', hv', hmention'⟩
    exact hunread ⟨v', hread hv', hmention'⟩

/-- **Pruning is lossless** if each document that may lose something can be replaced by `k` that
surely lose nothing and score at least as much. -/
theorem searchTopk_lossless (blockSize k : ℕ) (docs : Docs) (query : SparseVec)
    (hids : (docs.map Prod.fst).Nodup) (hdocs : ∀ d ∈ docs, d.2.Nonneg) (hquery : query.Nonneg)
    (h : ∀ d ∈ docs, MayLose (BlockMaxIndex.build blockSize docs) query k d.1 →
      k ≤ (sureRivals (BlockMaxIndex.build blockSize docs) docs query k d).length) :
    Lossless docs query k ((BlockMaxIndex.build blockSize docs).searchTopk query k) := by
  rw [searchTopk_lossless_iff blockSize k docs query hids hdocs hquery]
  intro d hd hloses
  refine (h d hd (hloses.mayLose hdocs hquery)).trans ?_
  -- who surely loses nothing loses nothing
  refine (List.monotone_filter_right docs fun e he => ?_).length_le
  obtain ⟨hshare, hkeeps, hle⟩ := of_decide_eq_true he
  exact decide_eq_true ⟨hshare, fun hlost => hkeeps (hlost.mayLose hdocs hquery), hle⟩

/-! ## A loss -/

/-- A document with one heavy term, and one whose two lighter terms add up to more. -/
def heavyAndSpread : Docs :=
  [(1, ⟨[(0, 3)], by decide⟩), (2, ⟨[(0, 2), (1, 2)], by decide⟩)]

/-- The query for both terms. -/
def bothTerms : SparseVec := ⟨[(0, 1), (1, 1)], by decide⟩

/-- The query for the first term alone. -/
def firstTerm : SparseVec := ⟨[(0, 1)], by decide⟩

/-- Looking for the best document, the block of the second term is skipped because `2 ≤ 3`,
although its document has already accumulated `2`. -/
theorem searchTopk_not_lossless :
    (heavyAndSpread.map Prod.fst).Nodup ∧ (∀ d ∈ heavyAndSpread, d.2.Nonneg) ∧ bothTerms.Nonneg ∧
      ¬ Lossless heavyAndSpread bothTerms 1
        ((BlockMaxIndex.build 128 heavyAndSpread).searchTopk bothTerms 1) := by
  refine ⟨by decide, by decide +kernel, by decide +kernel, fun h => ?_⟩
  have hscores := h.scores
  revert hscores
  decide +kernel

/-- With blocks of one posting and the first term alone, the second document is skipped and the
answer is exact all the same. -/
theorem searchTopk_lossless_firstTerm :
    Loses (BlockMaxIndex.build 1 heavyAndSpread) firstTerm 1 2 ∧
      Lossless heavyAndSpread firstTerm 1
        ((BlockMaxIndex.build 1 heavyAndSpread).searchTopk firstTerm 1) :=
  ⟨by decide +kernel, searchTopk_lossless 1 1 heavyAndSpread firstTerm (by decide)
    (by decide +kernel) (by decide +kernel) (by decide +kernel)⟩

end Splade

end SynapseMemory
