import SynapseMemory.Decompose

/-!
# The recall of the pipeline

`pipeline_recall` asks the store once for each part of the query, and once more for a hypothetical
answer if that was too little. The hits are fused by their ranks and sorted by the fused score, and
the first of them are returned. With a floor for the relevance each is graded before that. Those
below the floor are dropped, and the others get a blend of fused score and grade, in the order of
the fused scores as before.

So without a floor the best are returned in order, and with one they are as long as no grade makes
up for a fused score. Hits of one score come in the order in which a hash map is read, so this is
asked of the ranks and grades of the recalled hits, for every such order (`returnsBest_iff`).
-/

namespace SynapseMemory.Recall

open Text Temporal

/-- A hit. Its fields but these three are not looked at. -/
structure Hit (S R : Type) where
  id : ℤ
  text : Text
  score : S
  rest : R
  deriving DecidableEq

/-- The parameters of a recall, as far as the pipeline reads them. -/
structure Params (P : Type) where
  query : Text
  k : ℕ
  rest : P
  deriving DecidableEq

/-- The hooks that the recall calls. -/
structure Hooks (ε S : Type) where
  decompose : Text → Outcome ε (List Text)
  grade : Text → Text → Except ε S
  hyde : Text → Except ε Text

/-- The order in which a `HashMap` is read. -/
class ValuesOrder (α : Type) where
  values : List α → List α
  perm : ∀ l, (values l).Perm l

/-- The order of the insertions. -/
@[reducible] def ValuesOrder.inserted (α : Type) : ValuesOrder α := ⟨id, List.Perm.refl⟩

section Source

variable {ε S R P : Type} [LinearOrder S] [Add S] [Mul S] [Div S] [NatCast S] [OfScientific S]

/-! ## The rules without a model -/

/-- The long words of the query. -/
def gradeWords [Lowercase] (query : Text) : List Text :=
  ((splitWhitespace (toLowercase query)).filter fun t => 2 < len t).dedup

/-- The share of the long words of the query that occur in the text. -/
def gradeByWords [Lowercase] (query doc : Text) : S :=
  let q := gradeWords query
  if q.isEmpty then 0.5
  else
    let dl := toLowercase doc
    let hits := q.countP fun t => containsStr dl t
    min ((hits : S) / (q.length : S)) 1.0

/-- `hyde` of `RuleHooks` -/
def hydeByRule (query : Text) : Text :=
  "The answer to '".toList ++ trim query ++ "' is as follows. ".toList ++ trim query ++
    " relates to specific facts and recent context.".toList

/-- `RuleHooks` -/
def ruleHooks [Lowercase] : Hooks ε S where
  decompose := Decompose.decompose
  grade query doc := .ok (gradeByWords query doc)
  hyde query := .ok (hydeByRule query)

/-! ## The pipeline -/

/-- What the store has for each part of the query. -/
def recallParts (storeRecall : Params P → Outcome ε (List (Hit S R))) (params : Params P) :
    List Text → Outcome ε (List (Hit S R))
  | [] => .ok []
  | sub :: subs => do
    let hits ← storeRecall { params with query := sub }
    let all ← recallParts storeRecall params subs
    .ok (hits ++ all)

/-- All hits, with those for a hypothetical answer if there are too few. -/
def recallAll (storeRecall : Params P → Outcome ε (List (Hit S R))) (hooks : Hooks ε S)
    (params : Params P) (hydeThreshold : ℕ) : Outcome ε (List (Hit S R)) := do
  let subs ← hooks.decompose params.query
  let all ← recallParts storeRecall params subs
  if all.length < hydeThreshold then do
    let hypo ← Outcome.ofExcept (hooks.hyde params.query)
    let extra ← storeRecall { params with query := hypo }
    .ok (all ++ extra)
  else .ok all

/-- An entry of the map by ids: the first hit, and the sum of what its ranks bring. -/
def noteRank (rrf : S) (hit : Hit S R) : List (Hit S R × S) → List (Hit S R × S)
  | [] => [(hit, rrf)]
  | e :: bag => if e.1.id = hit.id then (e.1, e.2 + rrf) :: bag else e :: noteRank rrf hit bag

/-- Higher fused scores come first. -/
def fuse [ValuesOrder (Hit S R × S)] (all : List (Hit S R)) : List (Hit S R × S) :=
  let bag := all.zipIdx.foldl
    (fun bag hit => noteRank (1.0 / (60.0 + (hit.2 : S) + 1.0)) hit.1 bag) []
  (ValuesOrder.values bag).mergeSort fun a b => b.2 ≤ a.2

/-- The grade of a hit, which is a half if the hook fails. -/
def gradeOf (hooks : Hooks ε S) (query : Text) (hit : Hit S R) : S :=
  match hooks.grade query hit.text with
  | .ok g => g
  | .error _ => 0.5

/-- Fused score and grade. -/
def blend (hooks : Hooks ε S) (query : Text) (e : Hit S R × S) : S :=
  0.6 * e.2 + 0.4 * gradeOf hooks query e.1

/-- The hits that reach the floor, with their new scores. -/
def gradeAll (hooks : Hooks ε S) (query : Text) (floor : S) :
    List (Hit S R × S) → List (Hit S R)
  | [] => []
  | e :: rest =>
    if gradeOf hooks query e.1 < floor then gradeAll hooks query floor rest
    else { e.1 with score := blend hooks query e } :: gradeAll hooks query floor rest

/-- The hits with their final scores. -/
def graded (hooks : Hooks ε S) (query : Text) (relevanceFloor : S)
    (fused : List (Hit S R × S)) : List (Hit S R) :=
  if relevanceFloor ≤ 0.0 then fused.map fun e => { e.1 with score := e.2 }
  else gradeAll hooks query relevanceFloor fused

variable [ValuesOrder (Hit S R × S)]

/-- The hits before the list is cut. -/
def candidates (storeRecall : Params P → Outcome ε (List (Hit S R))) (hooks : Hooks ε S)
    (params : Params P) (relevanceFloor : S) (hydeThreshold : ℕ) : Outcome ε (List (Hit S R)) := do
  let all ← recallAll storeRecall hooks params hydeThreshold
  .ok (graded hooks params.query relevanceFloor (fuse all))

/-- `pipeline_recall` -/
def pipelineRecall (storeRecall : Params P → Outcome ε (List (Hit S R))) (hooks : Hooks ε S)
    (params : Params P) (relevanceFloor : S) (hydeThreshold : ℕ) : Outcome ε (List (Hit S R)) := do
  let hits ← candidates storeRecall hooks params relevanceFloor hydeThreshold
  .ok (hits.take params.k)

end Source

/-! ## What is best -/

section BestFirst

variable {S R : Type} [LinearOrder S]

/-- The first hits are in order, and none after them has a greater score. -/
def BestFirst (k : ℕ) (hits : List (Hit S R)) : Prop :=
  (hits.take k).Pairwise (fun a b => b.score ≤ a.score) ∧
    ∀ a ∈ hits.take k, ∀ b ∈ hits.drop k, b.score ≤ a.score

theorem bestFirst_zero (hits : List (Hit S R)) : BestFirst 0 hits := by
  simp [BestFirst]

theorem bestFirst_succ {k : ℕ} {a : Hit S R} {hits : List (Hit S R)} :
    BestFirst (k + 1) (a :: hits) ↔ (∀ b ∈ hits, b.score ≤ a.score) ∧ BestFirst k hits := by
  have hall : (∀ b ∈ hits, b.score ≤ a.score) ↔
      (∀ b ∈ hits.take k, b.score ≤ a.score) ∧ ∀ b ∈ hits.drop k, b.score ≤ a.score := by
    rw [← List.forall_mem_append, List.take_append_drop]
  rw [BestFirst, BestFirst, List.take_succ_cons, List.drop_succ_cons, List.pairwise_cons,
    List.forall_mem_cons, hall]
  tauto

/-- A sorted list has the best first. -/
theorem bestFirst_of_pairwise {hits : List (Hit S R)}
    (h : hits.Pairwise fun a b => b.score ≤ a.score) (k : ℕ) : BestFirst k hits := by
  rw [← List.take_append_drop k hits] at h
  obtain ⟨hsorted, -, hbeats⟩ := List.pairwise_append.mp h
  exact ⟨hsorted, hbeats⟩

end BestFirst

/-! ## Grades -/

section Grades

variable {ε S R : Type} [LinearOrder S] [Add S] [Mul S] [OfScientific S]

/-- The floor lets the entry pass. -/
def passes (hooks : Hooks ε S) (query : Text) (floor : S) (e : Hit S R × S) : Bool :=
  floor ≤ gradeOf hooks query e.1

/-- Of two entries that pass, the first of them among the first `k`, the other has no greater
blend. -/
def GradesKeepOrder (hooks : Hooks ε S) (query : Text) (floor : S) (k : ℕ)
    (fused : List (Hit S R × S)) : Prop :=
  ∀ before a between b after, fused = before ++ a :: (between ++ b :: after) →
    passes hooks query floor a = true → passes hooks query floor b = true →
    before.countP (passes hooks query floor) < k → blend hooks query b ≤ blend hooks query a

/-- Whether the grades keep the order, hit by hit. -/
theorem keepOrder_cons {hooks : Hooks ε S} {query : Text} {floor : S} {k : ℕ}
    {e : Hit S R × S} {rest : List (Hit S R × S)} (he : passes hooks query floor e = true) :
    GradesKeepOrder hooks query floor (k + 1) (e :: rest) ↔
      (∀ b ∈ rest, passes hooks query floor b = true →
        blend hooks query b ≤ blend hooks query e) ∧
      GradesKeepOrder hooks query floor k rest := by
  constructor
  · intro h
    refine ⟨fun b hb hpass => ?_, ?_⟩
    · obtain ⟨between, after, rfl⟩ := List.append_of_mem hb
      exact h [] e between b after rfl he hpass (Nat.succ_pos k)
    · rintro before a between b after rfl ha hb hcount
      refine h (e :: before) a between b after rfl ha hb ?_
      rw [List.countP_cons_of_pos he]
      omega
  · rintro ⟨hfirst, hrest⟩ before a between b after heq ha hb hcount
    cases before with
    | nil =>
      obtain ⟨rfl, rfl⟩ := List.cons.inj heq
      exact hfirst b (by simp) hb
    | cons e' before =>
      obtain ⟨rfl, hrest'⟩ := List.cons.inj heq
      rw [List.countP_cons_of_pos he] at hcount
      exact hrest before a between b after hrest' ha hb (by omega)

/-- An entry that does not pass takes no place. -/
theorem keepOrder_skip {hooks : Hooks ε S} {query : Text} {floor : S} {k : ℕ}
    {e : Hit S R × S} {rest : List (Hit S R × S)} (he : ¬passes hooks query floor e = true) :
    GradesKeepOrder hooks query floor k (e :: rest) ↔
      GradesKeepOrder hooks query floor k rest := by
  constructor
  · rintro h before a between b after rfl ha hb hcount
    refine h (e :: before) a between b after rfl ha hb ?_
    rwa [List.countP_cons_of_neg he]
  · rintro h before a between b after heq ha hb hcount
    cases before with
    | nil =>
      obtain ⟨rfl, -⟩ := List.cons.inj heq
      exact absurd ha he
    | cons e' before =>
      obtain ⟨rfl, hrest⟩ := List.cons.inj heq
      rw [List.countP_cons_of_neg he] at hcount
      exact h before a between b after hrest ha hb hcount

/-- The graded hits are those that pass the floor. -/
theorem mem_gradeAll {hooks : Hooks ε S} {query : Text} {floor : S}
    {fused : List (Hit S R × S)} {hit : Hit S R} :
    hit ∈ gradeAll hooks query floor fused ↔ ∃ e ∈ fused, passes hooks query floor e = true ∧
      { e.1 with score := blend hooks query e } = hit := by
  induction fused with
  | nil => simp [gradeAll]
  | cons e rest ih =>
    rw [gradeAll]
    split
    next hlt =>
      have he : ¬passes hooks query floor e = true := by simpa [passes] using hlt
      simp [ih, he]
    next hle =>
      have he : passes hooks query floor e = true := by simpa [passes] using hle
      rw [List.mem_cons, ih, eq_comm]
      simp [he]

/-- **Where the blends are in order.** -/
theorem bestFirst_gradeAll {hooks : Hooks ε S} {query : Text} {floor : S} {k : ℕ}
    {fused : List (Hit S R × S)} :
    BestFirst k (gradeAll hooks query floor fused) ↔
      GradesKeepOrder hooks query floor k fused := by
  induction fused generalizing k with
  | nil =>
    refine iff_of_true (by simp [gradeAll, BestFirst]) ?_
    rintro before a between b after heq
    exact absurd heq (List.ne_nil_of_length_pos (by simp)).symm
  | cons e rest ih =>
    rw [gradeAll]
    split
    next hlt =>
      have he : ¬passes hooks query floor e = true := by simpa [passes] using hlt
      rw [ih, keepOrder_skip he]
    next hle =>
      have he : passes hooks query floor e = true := by simpa [passes] using hle
      cases k with
      | zero =>
        refine iff_of_true (bestFirst_zero _) ?_
        rintro before a between b after - - - hcount
        exact absurd hcount (Nat.not_lt_zero _)
      | succ k =>
        rw [bestFirst_succ, keepOrder_cons he, ih]
        refine and_congr_left' ⟨fun h b hb hpass => ?_, fun h hit hmem => ?_⟩
        · exact h _ (mem_gradeAll.mpr ⟨b, hb, hpass, rfl⟩)
        · obtain ⟨b, hb, hpass, rfl⟩ := mem_gradeAll.mp hmem
          exact h b hb hpass

end Grades

/-! ## What is returned -/

section Returned

variable {ε S R P : Type} [LinearOrder S] [Add S] [Mul S] [Div S] [NatCast S] [OfScientific S]
  [ValuesOrder (Hit S R × S)]

/-- What is returned is in order, and nothing that was cut off has a greater score than what is
returned. -/
def ReturnsBest (storeRecall : Params P → Outcome ε (List (Hit S R))) (hooks : Hooks ε S)
    (params : Params P) (relevanceFloor : S) (hydeThreshold : ℕ) : Prop :=
  ∀ hits out, candidates storeRecall hooks params relevanceFloor hydeThreshold = .ok hits →
    pipelineRecall storeRecall hooks params relevanceFloor hydeThreshold = .ok out →
      out.Pairwise (fun a b => b.score ≤ a.score) ∧
        ∀ a ∈ out, ∀ b ∈ hits.drop params.k, b.score ≤ a.score

omit [Mul S] in
/-- The fused hits come in the order of their scores. -/
theorem fuse_sorted (all : List (Hit S R)) :
    (fuse all).Pairwise fun a b => b.2 ≤ a.2 := by
  refine (List.pairwise_mergeSort ?_ ?_ _).imp of_decide_eq_true
  · intro a b c hab hbc
    simp only [decide_eq_true_eq] at hab hbc ⊢
    exact hbc.trans hab
  · intro a b
    simp only [Bool.or_eq_true, decide_eq_true_eq]
    exact le_total _ _

/-- When the answer is the best of the graded hits. -/
theorem returnsBest_bestFirst {storeRecall : Params P → Outcome ε (List (Hit S R))}
    {hooks : Hooks ε S} {params : Params P} {relevanceFloor : S} {hydeThreshold : ℕ} :
    ReturnsBest storeRecall hooks params relevanceFloor hydeThreshold ↔
      ∀ all, recallAll storeRecall hooks params hydeThreshold = .ok all →
        BestFirst params.k (graded hooks params.query relevanceFloor (fuse all)) := by
  constructor
  · intro h all hall
    refine h _ _ ?_ ?_
    · rw [candidates, hall, Outcome.ok_bind]
    · rw [pipelineRecall, candidates, hall, Outcome.ok_bind, Outcome.ok_bind]
  · intro h hits out hhits hout
    rw [pipelineRecall, hhits, Outcome.ok_bind] at hout
    cases hout
    obtain ⟨all, hall, hgraded⟩ := Outcome.bind_eq_ok.mp hhits
    cases hgraded
    exact h all hall

/-- With one order of the map, the grades have to keep the order of the fused list. -/
theorem returnsBest_iff_keepOrder (storeRecall : Params P → Outcome ε (List (Hit S R)))
    (hooks : Hooks ε S)
    (params : Params P) (relevanceFloor : S) (hydeThreshold : ℕ) :
    ReturnsBest storeRecall hooks params relevanceFloor hydeThreshold ↔ relevanceFloor ≤ 0.0 ∨
      ∀ all, recallAll storeRecall hooks params hydeThreshold = .ok all →
        GradesKeepOrder hooks params.query relevanceFloor params.k (fuse all) := by
  rw [returnsBest_bestFirst]
  by_cases hfloor : relevanceFloor ≤ 0.0
  · refine iff_of_true (fun all _ => ?_) (.inl hfloor)
    rw [graded, if_pos hfloor]
    exact bestFirst_of_pairwise (List.pairwise_map.mpr (fuse_sorted all)) params.k
  · rw [or_iff_right hfloor]
    refine forall₂_congr fun all _ => ?_
    rw [graded, if_neg hfloor, bestFirst_gradeAll]

/-! ## Ranks and grades of the recalled hits -/

/-- What a rank brings. -/
def rankShare (i : ℕ) : S := 1.0 / (60.0 + (i : S) + 1.0)

/-- Each document of some hits with their ranks: its first hit, and the sum of what its ranks
bring. -/
def documents : List (Hit S R × ℕ) → List (Hit S R × S)
  | [] => []
  | h :: rest =>
    (h.1, (rest.filter (·.1.id = h.1.id)).foldl (fun s g => s + rankShare g.2) (rankShare h.2)) ::
      documents (rest.filter (·.1.id ≠ h.1.id))
termination_by hits => hits.length
decreasing_by
  rw [List.length_unattach]
  exact Nat.lt_succ_of_le ((List.length_filter_le _ _).trans_eq List.length_attach)

/-- The documents that were recalled. -/
def recalled (all : List (Hit S R)) : List (Hit S R × S) := documents all.zipIdx

omit [LinearOrder S] [Mul S] [ValuesOrder (Hit S R × S)] in
/-- The map adds to its first entry what is of this id, and makes entries of the rest. -/
theorem foldl_noteRank_cons (hits : List (Hit S R × ℕ)) (e : Hit S R × S)
    (bag : List (Hit S R × S)) :
    hits.foldl (fun bag hit => noteRank (rankShare hit.2) hit.1 bag) (e :: bag) =
      (e.1, (hits.filter (·.1.id = e.1.id)).foldl (fun s g => s + rankShare g.2) e.2) ::
        (hits.filter (·.1.id ≠ e.1.id)).foldl
          (fun bag hit => noteRank (rankShare hit.2) hit.1 bag) bag := by
  induction hits generalizing e bag with
  | nil => rfl
  | cons h rest ih =>
    rw [List.foldl_cons, noteRank]
    by_cases hid : e.1.id = h.1.id
    · rw [if_pos hid, ih]
      simp [hid]
    · rw [if_neg hid, ih]
      simp [Ne.symm hid]

omit [LinearOrder S] [Mul S] [ValuesOrder (Hit S R × S)] in
theorem foldl_noteRank : (hits : List (Hit S R × ℕ)) →
    hits.foldl (fun bag hit => noteRank (rankShare hit.2) hit.1 bag) [] = documents hits
  | [] => by rw [documents, List.foldl_nil]
  | h :: rest => by
    rw [List.foldl_cons, noteRank, foldl_noteRank_cons,
      foldl_noteRank (rest.filter (·.1.id ≠ h.1.id)), documents]
termination_by hits => hits.length
decreasing_by exact Nat.lt_succ_of_le (List.length_filter_le _ rest)

omit [Mul S] in
theorem fuse_perm (all : List (Hit S R)) : (fuse all).Perm (recalled all) := by
  refine (List.mergeSort_perm _ _).trans ((ValuesOrder.perm _).trans ?_)
  rw [recalled, ← foldl_noteRank]
  exact List.Perm.refl _

omit [LinearOrder S] [Mul S] [ValuesOrder (Hit S R × S)] in
/-- A document has the id of a hit. -/
theorem id_of_mem_documents : (hits : List (Hit S R × ℕ)) → ∀ e ∈ documents hits,
    ∃ h ∈ hits, h.1.id = e.1.id
  | [] => by
    rw [documents]
    nofun
  | h :: rest => by
    rw [documents]
    rintro e (_ | ⟨_, he⟩)
    · exact ⟨h, List.mem_cons_self, rfl⟩
    · obtain ⟨g, hg, hid⟩ := id_of_mem_documents (rest.filter (·.1.id ≠ h.1.id)) e he
      exact ⟨g, List.mem_cons_of_mem h (List.mem_of_mem_filter hg), hid⟩
termination_by hits => hits.length
decreasing_by exact Nat.lt_succ_of_le (List.length_filter_le _ rest)

omit [LinearOrder S] [Mul S] [ValuesOrder (Hit S R × S)] in
theorem nodup_documents : (hits : List (Hit S R × ℕ)) →
    (documents hits).Pairwise fun a b => a.1.id ≠ b.1.id
  | [] => by
    rw [documents]
    exact List.Pairwise.nil
  | h :: rest => by
    rw [documents]
    refine List.pairwise_cons.mpr ⟨fun e he hid => ?_,
      nodup_documents (rest.filter (·.1.id ≠ h.1.id))⟩
    obtain ⟨g, hg, hgid⟩ := id_of_mem_documents _ e he
    exact of_decide_eq_true (List.mem_filter.mp hg).2 (hgid.trans hid.symm)
termination_by hits => hits.length
decreasing_by exact Nat.lt_succ_of_le (List.length_filter_le _ rest)

/-- Of two recalled documents that reach the floor, and with less than `k` others of a greater
fused score that do, the one with the greater fused score has the greater blend. -/
def GradesRespectRanks (hooks : Hooks ε S) (query : Text) (floor : S) (k : ℕ)
    (all : List (Hit S R)) : Prop :=
  ∀ x ∈ recalled all, ∀ y ∈ recalled all, passes hooks query floor x = true →
    passes hooks query floor y = true → y.2 ≤ x.2 →
    ((recalled all).countP fun z => passes hooks query floor z && x.2 < z.2) < k →
    blend hooks query y ≤ blend hooks query x

/-- Grades that respect the ranks keep the order. -/
theorem GradesRespectRanks.keepOrder {hooks : Hooks ε S} {query : Text} {floor : S} {k : ℕ}
    {all : List (Hit S R)} (h : GradesRespectRanks hooks query floor k all) :
    GradesKeepOrder hooks query floor k (fuse all) := by
  intro before a between b after heq ha hb hcount
  have hperm := fuse_perm all
  have hsorted := fuse_sorted all
  rw [heq] at hperm hsorted
  obtain ⟨-, hafter, -⟩ := List.pairwise_append.mp hsorted
  have hle := (List.pairwise_cons.mp hafter).1
  refine h a (hperm.subset (by simp)) b (hperm.subset (by simp)) ha hb (hle b (by simp)) ?_
  -- what has a greater score is before it
  have hnone : ((a :: (between ++ b :: after)).countP fun z =>
      passes hooks query floor z && a.2 < z.2) = 0 := by
    refine List.countP_eq_zero.mpr fun z hz hlt => ?_
    have hlt := of_decide_eq_true (Bool.and_eq_true_iff.mp hlt).2
    rcases List.mem_cons.mp hz with rfl | hz
    · exact lt_irrefl _ hlt
    · exact (hle z hz).not_gt hlt
  rw [← hperm.countP_eq, List.countP_append, hnone, Nat.add_zero]
  refine lt_of_le_of_lt (List.countP_mono_left fun z _ hz => ?_) hcount
  exact (Bool.and_eq_true_iff.mp hz).1

end Returned

section EveryOrder

variable {ε S R P : Type} [LinearOrder S] [Add S] [Mul S] [Div S] [NatCast S] [OfScientific S]

/-- The order that reads the entries of one id first. -/
@[reducible] def ValuesOrder.first (id : ℤ) : ValuesOrder (Hit S R × S) where
  values l := l.filter (·.1.id = id) ++ l.filter (·.1.id ≠ id)
  perm l := by
    simpa using List.filter_append_perm (fun e : Hit S R × S => decide (e.1.id = id)) l

omit [Mul S] in
/-- The document that is read first comes before all others of its score. -/
theorem fuse_first {all : List (Hit S R)} {x : Hit S R × S} (hx : x ∈ recalled all) :
    ∃ before after, @fuse S R _ _ _ _ _ (.first x.1.id) all = before ++ x :: after ∧
      ∀ z ∈ before, x.2 < z.2 := by
  obtain ⟨l, l', hcut⟩ := List.append_of_mem hx
  have hids : (l ++ x :: l').Pairwise fun a b => a.1.id ≠ b.1.id :=
    hcut ▸ nodup_documents all.zipIdx
  obtain ⟨-, hafter, hbefore⟩ := List.pairwise_append.mp hids
  have hfirst : (recalled all).filter (·.1.id = x.1.id) = [x] := by
    have hnone : ∀ z ∈ l, ¬decide (z.1.id = x.1.id) = true := fun z hz heq =>
      hbefore z hz x List.mem_cons_self (of_decide_eq_true heq)
    have hnone' : ∀ z ∈ l', ¬decide (z.1.id = x.1.id) = true := fun z hz heq =>
      (List.pairwise_cons.mp hafter).1 z hz (of_decide_eq_true heq).symm
    rw [hcut, List.filter_append, List.filter_cons, if_pos (decide_eq_true rfl),
      List.filter_eq_nil_iff.mpr hnone, List.filter_eq_nil_iff.mpr hnone', List.nil_append]
  have htrans : ∀ a b c : Hit S R × S,
      decide (b.2 ≤ a.2) = true → decide (c.2 ≤ b.2) = true → decide (c.2 ≤ a.2) = true :=
    fun a b c hab hbc => decide_eq_true ((of_decide_eq_true hbc).trans (of_decide_eq_true hab))
  have htotal : ∀ a b : Hit S R × S, (decide (b.2 ≤ a.2) || decide (a.2 ≤ b.2)) = true :=
    fun a b => by simpa using le_total b.2 a.2
  obtain ⟨before, after, hsort, -, hgreater⟩ :=
    List.mergeSort_cons htrans htotal x ((recalled all).filter (·.1.id ≠ x.1.id))
  refine ⟨before, after, ?_, fun z hz => by simpa using hgreater z hz⟩
  rw [← hsort]
  refine congrArg (List.mergeSort · _) ?_
  change _ ++ _ = [x] ++ _
  rw [← hfirst, recalled, ← foldl_noteRank]
  rfl

/-- **The best are returned in order**, in whatever order the map is read, exactly if there is no
floor, or the grades of the recalled hits respect their ranks. -/
theorem returnsBest_iff (storeRecall : Params P → Outcome ε (List (Hit S R))) (hooks : Hooks ε S)
    (params : Params P) (relevanceFloor : S) (hydeThreshold : ℕ) :
    (∀ _ : ValuesOrder (Hit S R × S),
        ReturnsBest storeRecall hooks params relevanceFloor hydeThreshold) ↔
      relevanceFloor ≤ 0.0 ∨ ∀ all, recallAll storeRecall hooks params hydeThreshold = .ok all →
        GradesRespectRanks hooks params.query relevanceFloor params.k all := by
  constructor
  · intro h
    by_cases hfloor : relevanceFloor ≤ 0.0
    · exact .inl hfloor
    refine .inr fun all hall x hx y hy hxpass hypass hle hcount => ?_
    have hkeep := ((@returnsBest_iff_keepOrder _ _ _ _ _ _ _ _ _ _ (.first x.1.id) storeRecall hooks
      params relevanceFloor hydeThreshold).mp (h (.first x.1.id))).resolve_left hfloor all hall
    obtain ⟨before, after, hfused, hbefore⟩ := fuse_first hx
    rw [hfused] at hkeep
    have hperm := @fuse_perm _ _ _ _ _ _ _ (.first x.1.id) all
    rw [hfused] at hperm
    rcases List.mem_append.mp (hperm.symm.subset hy) with hin | hin
    · exact absurd (hbefore y hin) hle.not_gt
    rcases List.mem_cons.mp hin with rfl | hin
    · exact le_refl _
    obtain ⟨between, rest, rfl⟩ := List.append_of_mem hin
    refine hkeep before x between y rest rfl hxpass hypass (lt_of_le_of_lt ?_ hcount)
    -- what is before it has a greater score
    rw [← hperm.countP_eq, List.countP_append]
    refine (List.countP_mono_left fun z hz hpass => ?_).trans (Nat.le_add_right _ _)
    exact Bool.and_eq_true_iff.mpr ⟨hpass, decide_eq_true (hbefore z hz)⟩
  · rintro hmeets order
    refine (returnsBest_iff_keepOrder storeRecall hooks params relevanceFloor hydeThreshold).mpr ?_
    exact hmeets.imp_right fun hall all hok => (hall all hok).keepOrder

end EveryOrder

/-! ## A grade that makes up for the rank -/

section HotDogs

/-- The first text has both words of the query, one of them in another form. -/
def runningDogs : Hit ℚ Unit := ⟨1, "run run dogs".toList, 0, ()⟩

/-- The second one has both as parts of other words. -/
def hotDogs : Hit ℚ Unit := ⟨2, "hotdogs frontrunning dogs".toList, 0, ()⟩

/-- A store with these texts, which finds them for one query. -/
def dogStore (params : Params Unit) : Outcome Unit (List (Hit ℚ Unit)) :=
  .ok (if params.query = "dogs & running".toList then [runningDogs, hotDogs].take params.k else [])

/-- A query about dogs that run. -/
def dogParams : Params Unit := ⟨"dogs & running".toList, 2, ()⟩

/-- The hooks by rule, which know only the ASCII letters. -/
@[reducible] def dogHooks : Hooks Unit ℚ := @ruleHooks Unit ℚ _ _ _ _ Lowercase.asciiOnly

theorem fuse_dogs : @fuse ℚ Unit _ _ _ _ _ (ValuesOrder.inserted _) [runningDogs, hotDogs] =
    [(runningDogs, 1 / 61), (hotDogs, 1 / 62)] := by
  have hbag : [runningDogs, hotDogs].zipIdx.foldl
      (fun bag hit => noteRank (1.0 / (60.0 + (hit.2 : ℚ) + 1.0)) hit.1 bag) [] =
        [(runningDogs, 1 / 61), (hotDogs, 1 / 62)] := by
    decide +kernel
  unfold fuse
  rw [hbag]
  refine List.mergeSort_of_pairwise ?_
  show [(runningDogs, (1 / 61 : ℚ)), (hotDogs, (1 / 62 : ℚ))].Pairwise _
  norm_num

theorem graded_dogs : graded dogHooks dogParams.query 0.1
    [(runningDogs, 1 / 61), (hotDogs, 1 / 62)] =
      [{ runningDogs with score := 0.6 * (1 / 61) + 0.4 * 0.5 },
        { hotDogs with score := 0.6 * (1 / 62) + 0.4 * 1 }] := by
  decide +kernel

/-- The second one is graded 1 and the first one 0.5, and they are returned in this order. -/
theorem hotDogs_second :
    ¬@ReturnsBest Unit ℚ Unit Unit _ _ _ _ _ _ (ValuesOrder.inserted _) dogStore dogHooks dogParams
      0.1 0 := by
  let _ := ValuesOrder.inserted (Hit ℚ Unit × ℚ)
  intro h
  have hall : recallAll dogStore dogHooks dogParams 0 = .ok [runningDogs, hotDogs] := by
    decide +kernel
  rw [returnsBest_bestFirst] at h
  obtain ⟨hsorted, -⟩ := h _ hall
  rw [fuse_dogs, graded_dogs] at hsorted
  have hle : (0.6 * (1 / 62) + 0.4 * 1 : ℚ) ≤ 0.6 * (1 / 61) + 0.4 * 0.5 :=
    (List.pairwise_cons.mp hsorted).1 _ (List.mem_singleton_self _)
  norm_num at hle

end HotDogs

end SynapseMemory.Recall
