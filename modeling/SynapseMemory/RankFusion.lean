import SynapseMemory.Outcome
import SynapseMemory.ScoreTable

/-!
# Reciprocal rank fusion

The model of `rrf_merge_neon`, with exact scores. A hit of rank `r` in one of two lists brings
`1 / (60 + r)` for its id. The contributions are sorted by id, runs of one id are added up, and of
the sums the greatest are selected and sorted.

The sorts of the source are unstable, so the class `UnstableSorts` says no more of them than that
they sort. Whatever they do with equal elements, the result is a **fusion** of the two lists
(`Fused`): the best ids, each once and with its sum. A limit of zero is the exception. The pivot of
the selection is the element before the limit, and there is none (`rrf_fused_iff`).
-/

namespace SynapseMemory.RankFusion

open ScoreTable (total)

/-! ## Sorting -/

/-- A comparison that sorts can work with. -/
structure TotalOrder {α : Type} (le : α → α → Bool) : Prop where
  trans : ∀ a b c, le a b = true → le b c = true → le a c = true
  total : ∀ a b, (le a b || le b a) = true

/-- `sort_unstable_by` and `select_nth_unstable_by`. -/
class UnstableSorts where
  sort {α : Type} (le : α → α → Bool) (l : List α) : List α
  selectNth {α : Type} (le : α → α → Bool) (index : ℕ) (l : List α) : List α
  sort_perm {α : Type} (le : α → α → Bool) (l : List α) : (sort le l).Perm l
  sort_pairwise {α : Type} {le : α → α → Bool} (h : TotalOrder le) (l : List α) :
    (sort le l).Pairwise fun a b => le a b = true
  selectNth_perm {α : Type} (le : α → α → Bool) (index : ℕ) (l : List α) :
    (selectNth le index l).Perm l
  /-- the element at the index has nothing greater before it and nothing smaller after it -/
  selectNth_spec {α : Type} {le : α → α → Bool} (h : TotalOrder le) {index : ℕ} {l : List α}
    (hlt : index < l.length) : ∃ before pivot after,
      selectNth le index l = before ++ pivot :: after ∧ before.length = index ∧
        (∀ a ∈ before, le a pivot = true) ∧ ∀ b ∈ after, le pivot b = true

/-- The stable sort in both places. -/
@[reducible] def UnstableSorts.stable : UnstableSorts where
  sort le l := l.mergeSort le
  selectNth le _ l := l.mergeSort le
  sort_perm le l := l.mergeSort_perm le
  sort_pairwise h l := List.pairwise_mergeSort h.trans h.total l
  selectNth_perm le _ l := l.mergeSort_perm le
  selectNth_spec {α le} h {index l} hlt := by
    have hsorted := List.pairwise_mergeSort h.trans h.total l
    have hlen : index < (l.mergeSort le).length := by rwa [List.length_mergeSort]
    rw [← List.take_append_drop index (l.mergeSort le), List.drop_eq_getElem_cons hlen] at hsorted
    obtain ⟨-, hafter, hbefore⟩ := List.pairwise_append.mp hsorted
    refine ⟨_, _, _, ?_, List.length_take_of_le hlen.le, fun a ha => ?_,
      (List.pairwise_cons.mp hafter).1⟩
    · rw [← List.drop_eq_getElem_cons hlen, List.take_append_drop]
    · exact hbefore a ha _ List.mem_cons_self

/-! ## The source -/

/-- A hit. Its fields but the id and the score are not looked at. -/
structure Hit (R : Type) where
  id : ℤ
  score : ℚ
  rest : R
  deriving DecidableEq

/-- `RRF_K` -/
def rrfK : ℚ := 60

/-- The score of the hit at a position. -/
def reciprocal (i : ℕ) : ℚ := 1 / (rrfK + (i + 1))

/-- Four ranks at a time. The estimate of the reciprocals that is refined in two steps stands for
the reciprocals. -/
def lanes (i : ℕ) : List ℚ :=
  let base : ℚ := i + 1
  [1 / (rrfK + base), 1 / (rrfK + (base + 1)), 1 / (rrfK + (base + 2)), 1 / (rrfK + (base + 3))]

/-- `compute_rrf_scores` from a position on: blocks of four, and then the tail. -/
def computeRrfScores (n i : ℕ) : List ℚ :=
  if i + 4 ≤ n then lanes i ++ computeRrfScores n (i + 4)
  else (List.range' i (n - i)).map reciprocal
termination_by n - i

/-- The scores of a list of hits, on a processor with vector lanes or without. -/
def rrfScores (aarch64 : Bool) (n : ℕ) : List ℚ :=
  if aarch64 then computeRrfScores n 0 else (List.range n).map reciprocal

/-- An id with a score and the place of a hit. -/
structure Pair where
  id : ℤ
  score : ℚ
  index : ℕ
  /-- 0 for the lexical list, 1 for the other one -/
  tag : ℕ
  deriving DecidableEq

variable {R : Type}

/-- The pairs of a list of hits: the id, the score, the place and the number of the list. -/
def pairsOf (hits : List (Hit R)) (scores : List ℚ) (tag : ℕ) : List Pair :=
  hits.zipIdx.map fun (h, i) => ⟨h.id, scores.getD i 0, i, tag⟩

/-- The linear merge: a run of one id becomes its first pair, with the scores of the others
added. -/
def mergeRuns : List Pair → List Pair
  | [] => []
  | p :: rest =>
    { p with score := (rest.takeWhile (·.id = p.id)).foldl (fun s q => s + q.score) p.score } ::
      mergeRuns (rest.dropWhile (·.id = p.id))
termination_by l => l.length
decreasing_by
  exact Nat.lt_succ_of_le (List.length_dropWhile_le _ _)

/-- Higher scores come first. -/
def byScore (a b : Pair) : Bool := b.score ≤ a.score

section Source

variable [UnstableSorts]

/-- The pairs that are kept. With `limit = 0` the index of the pivot is below zero. -/
def topK (merged : List Pair) (limit : ℕ) : Outcome Unit (List Pair) :=
  let k := min limit merged.length
  if k < merged.length then do
    let pivot ← Outcome.minus k 1
    .ok ((UnstableSorts.selectNth byScore pivot merged).take k)
  else .ok merged

/-- The hits of the pairs, each taken out of its slot. -/
def takeHits : List Pair → List (Option (Hit R)) → List (Option (Hit R)) → List (Hit R)
  | [], _, _ => []
  | p :: rest, lexOpt, vecOpt =>
    let (slot, lexOpt, vecOpt) :=
      if p.tag = 0 then (lexOpt[p.index]?, lexOpt.set p.index none, vecOpt)
      else (vecOpt[p.index]?, lexOpt, vecOpt.set p.index none)
    match slot.join with
    | some h => { h with score := p.score } :: takeHits rest lexOpt vecOpt
    | none => takeHits rest lexOpt vecOpt

/-- `rrf_merge_neon` -/
def rrfMergeNeon (aarch64 : Bool) (lex vec : List (Hit R)) (limit : ℕ) :
    Outcome Unit (List (Hit R)) :=
  if lex.length + vec.length = 0 then .ok []
  else do
    let pairs := pairsOf lex (rrfScores aarch64 lex.length) 0 ++
      pairsOf vec (rrfScores aarch64 vec.length) 1
    let merged := mergeRuns (UnstableSorts.sort (fun a b => a.id ≤ b.id) pairs)
    let merged ← topK merged limit
    .ok (takeHits (UnstableSorts.sort byScore merged) (lex.map some) (vec.map some))

end Source

/-! ## What a fusion is -/

/-- What a list gives to the ids in it: to each, a share for the rank that it has. -/
def shares (hits : List (Hit R)) : List (ℤ × ℚ) :=
  hits.zipIdx.map fun (h, i) => (h.id, reciprocal i)

/-- The score of an id in two lists. -/
def rrfScore (lex vec : List (Hit R)) (id : ℤ) : ℚ := total id (shares lex) + total id (shares vec)

/-- The best ids of two lists, up to a limit. -/
structure Fused (lex vec : List (Hit R)) (limit : ℕ) (out : List (Hit R)) : Prop where
  /-- the distinct ids, or as many as the limit allows -/
  length : out.length = min limit ((lex ++ vec).map Hit.id).toFinset.card
  nodup : (out.map Hit.id).Nodup
  /-- a hit of one of the lists, with the score of its id -/
  hit : ∀ h ∈ out, ∃ h' ∈ lex ++ vec, h = { h' with score := rrfScore lex vec h'.id }
  best : ∀ x ∈ lex ++ vec, x.id ∉ out.map Hit.id → ∀ h ∈ out, rrfScore lex vec x.id ≤ h.score
  sorted : out.Pairwise fun a b => b.score ≤ a.score

/-- In a list without repetitions, an id has the share of its rank. -/
theorem total_shares {hits : List (Hit R)} (hnodup : (hits.map Hit.id).Nodup) {i : ℕ} {h : Hit R}
    (hget : hits[i]? = some h) : total h.id (shares hits) = reciprocal i := by
  obtain ⟨hlt, hh⟩ := List.getElem?_eq_some_iff.mp hget
  have hcut : hits = hits.take i ++ h :: hits.drop (i + 1) := by
    rw [← hh, ← List.drop_eq_getElem_cons hlt, List.take_append_drop]
  have hlen : (hits.take i).length = i := List.length_take_of_le hlt.le
  generalize hits.take i = before at hcut hlen
  generalize hits.drop (i + 1) = after at hcut
  subst hcut
  rw [List.map_append, List.nodup_append, List.map_cons, List.nodup_cons] at hnodup
  obtain ⟨-, ⟨hafter, -⟩, hbefore⟩ := hnodup
  have hzero : ∀ (xs : List (Hit R)) (k : ℕ), h.id ∉ xs.map Hit.id →
      total h.id ((xs.zipIdx k).map fun (h, i) => (h.id, reciprocal i)) = 0 := by
    intro xs k hnot
    refine ScoreTable.total_eq_zero fun c hc hid => ?_
    obtain ⟨⟨x, i⟩, hx, rfl⟩ := List.mem_map.mp hc
    exact absurd (List.mem_map.mpr ⟨x, List.fst_mem_of_mem_zipIdx hx, hid⟩) hnot
  rw [shares, List.zipIdx_append, List.zipIdx_cons, List.map_append, List.map_cons,
    ScoreTable.total_append, ScoreTable.total_cons, hzero _ _ hafter,
    hzero _ _ fun hmem => hbefore _ hmem _ List.mem_cons_self rfl, if_pos rfl, zero_add, add_zero,
    zero_add, hlen]

/-! ### One list -/

/-- A later rank has a smaller share. -/
theorem reciprocal_lt {i j : ℕ} (h : i < j) : reciprocal j < reciprocal i := by
  have hlt : (i : ℚ) < j := by exact_mod_cast h
  rw [reciprocal, reciprocal, rrfK]
  apply one_div_lt_one_div_of_lt
  · positivity
  · linarith

/-- The hits of one list with the scores of their ranks. -/
def rescored (hits : List (Hit R)) : List (Hit R) :=
  hits.zipIdx.map fun (h, i) => { h with score := reciprocal i }

/-- The hits with their new scores. -/
theorem mem_rescored {hits : List (Hit R)} {x : Hit R} :
    x ∈ rescored hits ↔
      ∃ (i : ℕ) (h : Hit R), hits[i]? = some h ∧ x = { h with score := reciprocal i } := by
  rw [rescored, List.mem_map]
  constructor
  · rintro ⟨⟨h, i⟩, hi, rfl⟩
    exact ⟨i, h, List.mk_mem_zipIdx_iff_getElem?.mp hi, rfl⟩
  · rintro ⟨i, h, hi, rfl⟩
    exact ⟨(h, i), List.mk_mem_zipIdx_iff_getElem?.mpr hi, rfl⟩

theorem sorted_rescored (hits : List (Hit R)) :
    (rescored hits).Pairwise fun a b => b.score ≤ a.score := by
  rw [rescored, List.pairwise_map, List.pairwise_iff_getElem]
  intro i j hi hj hij
  simp only [List.getElem_zipIdx, zero_add]
  exact (reciprocal_lt hij).le

theorem rrfScore_nil {vec : List (Hit R)} (hnodup : (vec.map Hit.id).Nodup) {i : ℕ} {x : Hit R}
    (hx : vec[i]? = some x) : rrfScore [] vec x.id = reciprocal i := by
  rw [rrfScore, total_shares hnodup hx]
  exact zero_add _

/-- The fusion of one list has the first hits. -/
theorem Fused.lt_of_mem {vec out : List (Hit R)} {limit : ℕ} (h : Fused [] vec limit out)
    (hnodup : (vec.map Hit.id).Nodup) {i : ℕ} {y : Hit R} (hi : vec[i]? = some y)
    (hy : { y with score := rrfScore [] vec y.id } ∈ out) : i < limit := by
  by_contra hlt
  -- else all hits before it have greater scores, and they fill the list without it
  have hbetter : ∀ z ∈ vec.take limit, rrfScore [] vec y.id < rrfScore [] vec z.id := by
    intro z hz
    obtain ⟨j, hj⟩ := List.mem_iff_getElem?.mp hz
    rw [List.getElem?_take] at hj
    split at hj
    next hjlt =>
      rw [rrfScore_nil hnodup hi, rrfScore_nil hnodup hj]
      exact reciprocal_lt (hjlt.trans_le (not_lt.mp hlt))
    next => cases hj
  have hall : y.id :: (vec.take limit).map Hit.id ⊆ out.map Hit.id := by
    refine List.cons_subset.mpr ⟨List.mem_map.mpr ⟨_, hy, rfl⟩, fun id hin => ?_⟩
    obtain ⟨z, hz, rfl⟩ := List.mem_map.mp hin
    by_contra hnot
    have hle := h.best z (List.mem_of_mem_take hz) hnot _ hy
    exact hle.not_gt (hbetter z hz)
  have hnew : (y.id :: (vec.take limit).map Hit.id).Nodup := by
    refine List.nodup_cons.mpr ⟨fun hid => ?_, hnodup.sublist ((List.take_sublist _ _).map _)⟩
    obtain ⟨z, hz, hzy⟩ := List.mem_map.mp hid
    exact (hbetter z hz).ne (by rw [hzy])
  have hle := (hnew.subperm hall).length_le
  have hi' := (List.getElem?_eq_some_iff.mp hi).1
  rw [List.length_cons, List.length_map, List.length_map, List.length_take, h.length,
    List.nil_append, List.toFinset_card_of_nodup hnodup, List.length_map] at hle
  omega

/-- **The fusion of one list** is its beginning. -/
theorem Fused.eq_rescored {vec out : List (Hit R)} {limit : ℕ} (h : Fused [] vec limit out)
    (hnodup : (vec.map Hit.id).Nodup) : out = rescored (vec.take limit) := by
  have hsub : out ⊆ rescored (vec.take limit) := by
    intro x hx
    obtain ⟨y, hy, rfl⟩ := h.hit x hx
    obtain ⟨i, hi⟩ : ∃ i : ℕ, vec[i]? = some y := List.mem_iff_getElem?.mp hy
    refine mem_rescored.mpr ⟨i, y, ?_, by rw [rrfScore_nil hnodup hi]⟩
    rw [List.getElem?_take, if_pos (h.lt_of_mem hnodup hi hx), hi]
  have hperm : out.Perm (rescored (vec.take limit)) := by
    refine (h.nodup.of_map.subperm hsub).perm_of_length_le ?_
    rw [rescored, List.length_map, List.length_zipIdx, List.length_take, h.length, List.nil_append,
      List.toFinset_card_of_nodup hnodup, List.length_map]
  refine hperm.eq_of_pairwise ?_ h.sorted (sorted_rescored _)
  intro a b ha hb hab hba
  obtain ⟨i, x, hx, rfl⟩ := mem_rescored.mp (hsub ha)
  obtain ⟨j, y, hy, rfl⟩ := mem_rescored.mp hb
  obtain rfl : i = j := by
    rcases lt_trichotomy i j with hlt | heq | hgt
    · exact absurd hba (reciprocal_lt hlt).not_ge
    · exact heq
    · exact absurd hab (reciprocal_lt hgt).not_ge
  rw [Option.some.inj (hx.symm.trans hy)]

/-! ## The scores -/

theorem lanes_eq (i : ℕ) : lanes i = (List.range' i 4).map reciprocal := by
  simp only [lanes, reciprocal, List.range', List.map_cons, List.map_nil]
  push_cast
  ring_nf

/-- The blocks and the tail are the reciprocals of all ranks. -/
theorem computeRrfScores_eq {n i : ℕ} (hi : i ≤ n) :
    computeRrfScores n i = (List.range' i (n - i)).map reciprocal := by
  induction i using computeRrfScores.induct n with
  | case1 i hle ih =>
    have hcut : List.range' i (n - i) = List.range' i 4 ++ List.range' (i + 4) (n - (i + 4)) := by
      rw [List.range'_append_1]
      congr 1
      omega
    rw [computeRrfScores, if_pos hle, ih hle, lanes_eq, hcut, List.map_append]
  | case2 i hlt => rw [computeRrfScores, if_neg hlt]

/-- Both kernels give the same scores. -/
theorem rrfScores_eq (aarch64 : Bool) (n : ℕ) :
    rrfScores aarch64 n = (List.range n).map reciprocal := by
  cases aarch64 with
  | false => rfl
  | true =>
    rw [rrfScores, if_pos rfl, computeRrfScores_eq n.zero_le, Nat.sub_zero, List.range_eq_range']

/-- What a pair brings for its id. -/
def Pair.share (p : Pair) : ℤ × ℚ := (p.id, p.score)

/-- The shares of the pairs. -/
theorem map_share_pairsOf (aarch64 : Bool) (hits : List (Hit R)) (tag : ℕ) :
    (pairsOf hits (rrfScores aarch64 hits.length) tag).map Pair.share = shares hits := by
  rw [pairsOf, List.map_map, shares]
  refine List.map_congr_left ?_
  rintro ⟨h, i⟩ hx
  have hlt : i < hits.length := List.snd_lt_of_mem_zipIdx hx
  have hscore : (rrfScores aarch64 hits.length).getD i 0 = reciprocal i := by
    rw [rrfScores_eq, List.getD_eq_getElem _ _ (by simpa using hlt), List.getElem_map,
      List.getElem_range]
  exact congrArg (Prod.mk h.id) hscore

/-! ## The linear merge -/

/-- What the merge leaves of pairs that are sorted by id. -/
structure Merged (l merged : List Pair) : Prop where
  pairwise : merged.Pairwise fun a b => a.id < b.id
  place : ∀ m ∈ merged, ∃ p ∈ l, p.id = m.id ∧ p.index = m.index ∧ p.tag = m.tag
  score : ∀ m ∈ merged, m.score = total m.id (l.map Pair.share)
  complete : ∀ p ∈ l, p.id ∈ merged.map Pair.id

theorem foldl_score (run : List Pair) (s : ℚ) :
    run.foldl (fun s q => s + q.score) s = s + (run.map Pair.score).sum := by
  induction run generalizing s with
  | nil => rw [List.foldl_nil, List.map_nil, List.sum_nil, add_zero]
  | cons q run ih => rw [List.foldl_cons, ih, List.map_cons, List.sum_cons, add_assoc]

/-- Pairs of one id bring all their scores. -/
theorem total_run {run : List Pair} {id : ℤ} (h : ∀ q ∈ run, q.id = id) :
    total id (run.map Pair.share) = (run.map Pair.score).sum := by
  induction run with
  | nil => rfl
  | cons q run ih =>
    obtain ⟨hq, hrun⟩ := List.forall_mem_cons.mp h
    rw [List.map_cons, ScoreTable.total_cons, ih hrun, List.map_cons, List.sum_cons]
    exact congrArg (· + _) (if_pos hq)

theorem total_other {l : List Pair} {id : ℤ} (h : ∀ q ∈ l, q.id ≠ id) :
    total id (l.map Pair.share) = 0 := by
  refine ScoreTable.total_eq_zero fun c hc hid => ?_
  obtain ⟨q, hq, rfl⟩ := List.mem_map.mp hc
  exact absurd hid (h q hq)

/-- After the run of an id the ids are greater. -/
theorem lt_of_mem_dropWhile {p : Pair} {rest : List Pair}
    (h : (p :: rest).Pairwise fun a b => a.id ≤ b.id) :
    ∀ q ∈ rest.dropWhile (·.id = p.id), p.id < q.id := by
  obtain ⟨hp, hrest⟩ := List.pairwise_cons.mp h
  have hsuffix := List.dropWhile_suffix (l := rest) fun q : Pair => decide (q.id = p.id)
  cases hlater : rest.dropWhile (·.id = p.id) with
  | nil => nofun
  | cons q later =>
    rw [hlater] at hsuffix
    have hne : q.id ≠ p.id := by
      have := List.head?_dropWhile_not (fun q : Pair => decide (q.id = p.id)) rest
      rw [hlater] at this
      simpa using this
    have hlt : p.id < q.id := lt_of_le_of_ne (hp q (hsuffix.subset List.mem_cons_self)) hne.symm
    have hsorted := hrest.sublist hsuffix.sublist
    rintro x (_ | ⟨_, hx⟩)
    · exact hlt
    · exact hlt.trans_le ((List.pairwise_cons.mp hsorted).1 x hx)

/-- **The linear merge adds up.** -/
theorem merged_mergeRuns {l : List Pair} (h : l.Pairwise fun a b => a.id ≤ b.id) :
    Merged l (mergeRuns l) := by
  induction l using mergeRuns.induct with
  | case1 =>
    rw [mergeRuns]
    exact ⟨.nil, nofun, nofun, nofun⟩
  | case2 p rest ih =>
    obtain ⟨hp, hrest⟩ := List.pairwise_cons.mp h
    have hlt := lt_of_mem_dropWhile h
    have hrun : ∀ q ∈ rest.takeWhile (·.id = p.id), q.id = p.id := fun q hq => by
      simpa using List.mem_takeWhile_imp hq
    have hmerged := ih (hrest.sublist (List.dropWhile_sublist _))
    have hcut : rest.takeWhile (·.id = p.id) ++ rest.dropWhile (·.id = p.id) = rest :=
      List.takeWhile_append_dropWhile
    rw [mergeRuns]
    generalize rest.takeWhile (·.id = p.id) = run at hrun hcut
    generalize rest.dropWhile (·.id = p.id) = later at hlt hmerged hcut
    subst hcut
    have hids : ∀ m ∈ mergeRuns later, p.id < m.id := by
      intro m hm
      obtain ⟨q, hq, hid, -⟩ := hmerged.place m hm
      exact hid ▸ hlt q hq
    refine ⟨List.pairwise_cons.mpr ⟨hids, hmerged.pairwise⟩, ?_, ?_, ?_⟩
    · rintro m (_ | ⟨_, hm⟩)
      · exact ⟨p, List.mem_cons_self, rfl, rfl, rfl⟩
      · obtain ⟨q, hq, hplace⟩ := hmerged.place m hm
        exact ⟨q, List.mem_cons_of_mem _ (List.mem_append_right _ hq), hplace⟩
    · rintro m (_ | ⟨_, hm⟩)
      · dsimp only
        rw [foldl_score, List.map_cons, ScoreTable.total_cons, List.map_append,
          ScoreTable.total_append, total_run hrun, total_other fun q hq => (hlt q hq).ne', add_zero]
        exact congrArg (· + _) (if_pos rfl).symm
      · have hne := (hids m hm).ne
        rw [hmerged.score m hm, List.map_cons, ScoreTable.total_cons, List.map_append,
          ScoreTable.total_append, total_other fun q hq => (hrun q hq).trans_ne hne, zero_add]
        exact (add_eq_right.mpr (if_neg hne)).symm
    · rintro q (_ | ⟨_, hq⟩)
      · exact List.mem_cons_self
      · rcases List.mem_append.mp hq with hq | hq
        · exact List.mem_cons.mpr (.inl (hrun q hq))
        · exact List.mem_cons_of_mem _ (hmerged.complete q hq)

/-! ## The selection -/

theorem totalOrder_byScore : TotalOrder byScore where
  trans a b c hab hbc :=
    decide_eq_true ((of_decide_eq_true hbc).trans (of_decide_eq_true hab))
  total a b := by
    simpa [byScore] using le_total b.score a.score

theorem totalOrder_byId : TotalOrder fun a b : Pair => a.id ≤ b.id where
  trans a b c hab hbc :=
    decide_eq_true ((of_decide_eq_true hab).trans (of_decide_eq_true hbc))
  total a b := by
    simpa using le_total a.id b.id

variable [UnstableSorts]

/-- The pairs that are kept are as many as the limit allows, and the others score no more. -/
theorem topK_ok {merged : List Pair} {limit : ℕ} (h : 0 < limit ∨ merged = []) :
    ∃ kept dropped, topK merged limit = .ok kept ∧ (kept ++ dropped).Perm merged ∧
      kept.length = min limit merged.length ∧
      ∀ m ∈ dropped, ∀ x ∈ kept, m.score ≤ x.score := by
  by_cases hlt : min limit merged.length < merged.length
  · have hpos : 1 ≤ min limit merged.length := by
      rcases h with h | rfl
      · omega
      · exact absurd hlt (by simp)
    obtain ⟨before, pivot, after, hselect, hlen, hbefore, hafter⟩ :=
      UnstableSorts.selectNth_spec totalOrder_byScore
        (show min limit merged.length - 1 < merged.length by omega)
    have hkept : (before ++ pivot :: after).take (min limit merged.length) = before ++ [pivot] := by
      rw [List.append_cons]
      exact List.take_left' (by rw [List.length_append, hlen, List.length_singleton]; omega)
    refine ⟨before ++ [pivot], after, ?_, ?_, ?_, fun m hm x hx => ?_⟩
    · rw [topK, if_pos hlt, Outcome.minus_of hpos, Outcome.ok_bind, hselect, hkept]
    · rw [List.append_assoc, List.singleton_append, ← hselect]
      exact UnstableSorts.selectNth_perm _ _ _
    · rw [List.length_append, hlen, List.length_singleton]
      omega
    · have hm : m.score ≤ pivot.score := of_decide_eq_true (hafter m hm)
      rcases List.mem_append.mp hx with hx | hx
      · exact hm.trans (of_decide_eq_true (hbefore x hx))
      · rwa [List.mem_singleton.mp hx]
  · refine ⟨merged, [], ?_, by rw [List.append_nil], by omega, nofun⟩
    rw [topK, if_neg hlt]

theorem topK_zero {merged : List Pair} (h : merged ≠ []) : topK merged 0 = .panic := by
  have hpos := List.length_pos_of_ne_nil h
  rw [topK, if_pos (by omega), Outcome.minus_of_lt (by omega), Outcome.panic_bind]

/-! ## The slots -/

/-- The hit of a pair, in its own list. -/
def hitOf (lex vec : List (Hit R)) (p : Pair) : Option (Hit R) :=
  (if p.tag = 0 then lex else vec)[p.index]?

omit [UnstableSorts] in
/-- Each pair finds its hit, since no two of them have one slot. -/
theorem takeHits_eq {lex vec : List (Hit R)} {pairs : List Pair}
    {lexOpt vecOpt : List (Option (Hit R))}
    (hslots : ∀ p ∈ pairs, ((if p.tag = 0 then lexOpt else vecOpt)[p.index]?).join =
      hitOf lex vec p)
    (hapart : pairs.Pairwise fun a b => (a.index, a.tag = 0) ≠ (b.index, b.tag = 0)) :
    takeHits pairs lexOpt vecOpt =
      pairs.filterMap fun p => (hitOf lex vec p).map fun h => { h with score := p.score } := by
  induction pairs generalizing lexOpt vecOpt with
  | nil => rfl
  | cons p rest ih =>
    obtain ⟨hp, hrest⟩ := List.pairwise_cons.mp hapart
    obtain ⟨hslot, hslots⟩ := List.forall_mem_cons.mp hslots
    by_cases htag : p.tag = 0
    · rw [if_pos htag] at hslot
      have htail : takeHits rest (lexOpt.set p.index none) vecOpt = _ := ih (fun q hq => by
        rw [← hslots q hq]
        by_cases hqtag : q.tag = 0
        · have hne : p.index ≠ q.index := fun heq =>
            hp q hq (Prod.ext heq (by simp [htag, hqtag]))
          rw [if_pos hqtag, if_pos hqtag, List.getElem?_set_ne hne]
        · rw [if_neg hqtag, if_neg hqtag]) hrest
      rw [takeHits]
      simp only [htag, if_true, hslot, htail, List.filterMap_cons]
      cases hitOf lex vec p <;> rfl
    · rw [if_neg htag] at hslot
      have htail : takeHits rest lexOpt (vecOpt.set p.index none) = _ := ih (fun q hq => by
        rw [← hslots q hq]
        by_cases hqtag : q.tag = 0
        · rw [if_pos hqtag, if_pos hqtag]
        · have hne : p.index ≠ q.index := fun heq =>
            hp q hq (Prod.ext heq (by simp [htag, hqtag]))
          rw [if_neg hqtag, if_neg hqtag, List.getElem?_set_ne hne]) hrest
      rw [takeHits]
      simp only [htag, if_false, hslot, htail, List.filterMap_cons]
      cases hitOf lex vec p <;> rfl

/-! ## The merge is a fusion -/

section Fusion

variable (aarch64 : Bool) (lex vec : List (Hit R))

/-- The pairs of both lists. -/
abbrev pairs : List Pair :=
  pairsOf lex (rrfScores aarch64 lex.length) 0 ++ pairsOf vec (rrfScores aarch64 vec.length) 1

/-- The pairs, sorted and merged. -/
abbrev sums : List Pair :=
  mergeRuns (UnstableSorts.sort (fun a b => a.id ≤ b.id) (pairs aarch64 lex vec))

omit [UnstableSorts] in
/-- A pair has a hit. -/
theorem hitOf_of_mem_pairs {p : Pair} (hp : p ∈ pairs aarch64 lex vec) :
    ∃ h ∈ lex ++ vec, hitOf lex vec p = some h ∧ h.id = p.id := by
  rcases List.mem_append.mp hp with hp | hp
  · obtain ⟨⟨h, i⟩, hi, rfl⟩ := List.mem_map.mp hp
    have hget : lex[i]? = some h := List.mk_mem_zipIdx_iff_getElem?.mp hi
    exact ⟨h, List.mem_append_left _ (List.mem_of_getElem? hget), hget, rfl⟩
  · obtain ⟨⟨h, i⟩, hi, rfl⟩ := List.mem_map.mp hp
    have hget : vec[i]? = some h := List.mk_mem_zipIdx_iff_getElem?.mp hi
    exact ⟨h, List.mem_append_right _ (List.mem_of_getElem? hget), hget, rfl⟩

omit [UnstableSorts] in
/-- A hit has a pair. -/
theorem exists_pair_of_mem {h : Hit R} (hmem : h ∈ lex ++ vec) :
    ∃ p ∈ pairs aarch64 lex vec, p.id = h.id := by
  rcases List.mem_append.mp hmem with hmem | hmem
  · obtain ⟨i, hi⟩ := List.mem_iff_getElem?.mp hmem
    exact ⟨_, List.mem_append_left _ (List.mem_map.mpr
      ⟨(h, i), List.mk_mem_zipIdx_iff_getElem?.mpr hi, rfl⟩), rfl⟩
  · obtain ⟨i, hi⟩ := List.mem_iff_getElem?.mp hmem
    exact ⟨_, List.mem_append_right _ (List.mem_map.mpr
      ⟨(h, i), List.mk_mem_zipIdx_iff_getElem?.mpr hi, rfl⟩), rfl⟩

theorem merged_sums :
    Merged (UnstableSorts.sort (fun a b => a.id ≤ b.id) (pairs aarch64 lex vec))
      (sums aarch64 lex vec) :=
  merged_mergeRuns ((UnstableSorts.sort_pairwise totalOrder_byId _).imp of_decide_eq_true)

/-- Each sum is the score of its id, and has a hit of that id. -/
theorem sums_spec {m : Pair} (hm : m ∈ sums aarch64 lex vec) :
    m.score = rrfScore lex vec m.id ∧
      ∃ h ∈ lex ++ vec, hitOf lex vec m = some h ∧ h.id = m.id := by
  have hmerged := merged_sums aarch64 lex vec
  have hperm := UnstableSorts.sort_perm (fun a b : Pair => a.id ≤ b.id) (pairs aarch64 lex vec)
  constructor
  · rw [hmerged.score m hm, ScoreTable.total_perm (hperm.map _), List.map_append,
      ScoreTable.total_append, map_share_pairsOf, map_share_pairsOf, rrfScore]
  · obtain ⟨p, hp, hid, hindex, htag⟩ := hmerged.place m hm
    obtain ⟨h, hmem, hhit, hh⟩ := hitOf_of_mem_pairs aarch64 lex vec (hperm.subset hp)
    refine ⟨h, hmem, ?_, hh.trans hid⟩
    rw [← hhit, hitOf, hitOf, hindex, htag]

theorem mem_ids_sums {h : Hit R} (hmem : h ∈ lex ++ vec) :
    h.id ∈ (sums aarch64 lex vec).map Pair.id := by
  obtain ⟨p, hp, hid⟩ := exists_pair_of_mem aarch64 lex vec hmem
  have hperm := UnstableSorts.sort_perm (fun a b : Pair => a.id ≤ b.id) (pairs aarch64 lex vec)
  exact hid ▸ (merged_sums aarch64 lex vec).complete p (hperm.symm.subset hp)

theorem nodup_ids_sums : ((sums aarch64 lex vec).map Pair.id).Nodup :=
  List.pairwise_map.mpr ((merged_sums aarch64 lex vec).pairwise.imp ne_of_lt)

/-- There are as many sums as different ids. -/
theorem length_sums :
    (sums aarch64 lex vec).length = ((lex ++ vec).map Hit.id).toFinset.card := by
  rw [← List.length_map (f := Pair.id), ← List.toFinset_card_of_nodup (nodup_ids_sums _ _ _)]
  congr 1
  ext id
  rw [List.mem_toFinset, List.mem_toFinset]
  constructor
  · intro hid
    obtain ⟨m, hm, rfl⟩ := List.mem_map.mp hid
    obtain ⟨-, h, hmem, -, hh⟩ := sums_spec aarch64 lex vec hm
    exact List.mem_map.mpr ⟨h, hmem, hh⟩
  · intro hid
    obtain ⟨h, hmem, rfl⟩ := List.mem_map.mp hid
    exact mem_ids_sums aarch64 lex vec hmem

/-- The hits of some of the sums, whichever way they are put. -/
theorem takeHits_sums {final : List Pair} (hsub : final ⊆ sums aarch64 lex vec)
    (hnodup : (final.map Pair.id).Nodup) :
    (takeHits final (lex.map some) (vec.map some)).map Hit.id = final.map Pair.id ∧
      (takeHits final (lex.map some) (vec.map some)).map Hit.score = final.map Pair.score ∧
      ∀ h ∈ takeHits final (lex.map some) (vec.map some),
        ∃ h' ∈ lex ++ vec, h = { h' with score := rrfScore lex vec h'.id } := by
  have hhit : ∀ m ∈ final, m.score = rrfScore lex vec m.id ∧
      ∃ h ∈ lex ++ vec, hitOf lex vec m = some h ∧ h.id = m.id :=
    fun m hm => sums_spec aarch64 lex vec (hsub hm)
  rw [takeHits_eq (fun p _ => ?_) ?_]
  · rw [List.map_filterMap, List.map_filterMap]
    refine ⟨?_, ?_, fun h hh => ?_⟩
    · rw [← List.filterMap_eq_map]
      refine List.filterMap_congr fun m hm => ?_
      obtain ⟨-, h, -, hget, hid⟩ := hhit m hm
      rw [hget, Option.map_some, Option.map_some]
      exact congrArg some hid
    · rw [← List.filterMap_eq_map]
      refine List.filterMap_congr fun m hm => ?_
      obtain ⟨-, h, -, hget, -⟩ := hhit m hm
      rw [hget]
      rfl
    · obtain ⟨m, hm, hget⟩ := List.mem_filterMap.mp hh
      obtain ⟨hscore, h', hmem, hget', hid⟩ := hhit m hm
      rw [hget', Option.map_some] at hget
      refine ⟨h', hmem, ?_⟩
      rw [← Option.some.inj hget, hscore, hid]
  · refine (List.pairwise_map.mp hnodup).imp_of_mem fun {a b} ha hb hne heq => hne ?_
    obtain ⟨hindex, htag⟩ := Prod.mk.inj heq
    obtain ⟨-, x, -, hx, hxid⟩ := hhit a ha
    obtain ⟨-, y, -, hy, hyid⟩ := hhit b hb
    have hsame : hitOf lex vec a = hitOf lex vec b := by
      simp only [hitOf, hindex, htag]
    rw [hx, hy] at hsame
    rw [← hxid, ← hyid, Option.some.inj hsame]
  · have hjoin : ∀ hits : List (Hit R), ((hits.map some)[p.index]?).join = hits[p.index]? := by
      intro hits
      rw [List.getElem?_map]
      cases hits[p.index]? <;> rfl
    rw [hitOf]
    split
    · exact hjoin lex
    · exact hjoin vec

/-- The fusion of hits, at least one. -/
theorem rrfMergeNeon_of_ne (hempty : ¬(lex = [] ∧ vec = [])) (limit : ℕ) :
    rrfMergeNeon aarch64 lex vec limit = topK (sums aarch64 lex vec) limit >>= fun merged =>
      .ok (takeHits (UnstableSorts.sort byScore merged) (lex.map some) (vec.map some)) := by
  rw [rrfMergeNeon, if_neg]
  rwa [Nat.add_eq_zero_iff, List.length_eq_zero_iff, List.length_eq_zero_iff]

/-- With a hit there is no limit of zero. -/
theorem rrfMergeNeon_zero (hempty : ¬(lex = [] ∧ vec = [])) :
    rrfMergeNeon aarch64 lex vec 0 = .panic := by
  have hsums : sums aarch64 lex vec ≠ [] := by
    intro hnil
    obtain ⟨h, hmem⟩ := List.exists_mem_of_ne_nil (lex ++ vec) (by simpa using hempty)
    have := mem_ids_sums aarch64 lex vec hmem
    rw [hnil] at this
    cases this
  rw [rrfMergeNeon_of_ne _ _ _ hempty, topK_zero hsums, Outcome.panic_bind]

/-- With room for a hit the merge is a fusion. -/
theorem rrfMergeNeon_fused {limit : ℕ} (hempty : ¬(lex = [] ∧ vec = [])) (hlimit : 0 < limit) :
    ∃ out, rrfMergeNeon aarch64 lex vec limit = .ok out ∧ Fused lex vec limit out := by
  obtain ⟨kept, dropped, hkept, hperm, hkeptlen, hbest⟩ :=
    topK_ok (.inl hlimit)
  have hsort := UnstableSorts.sort_perm byScore kept
  have hsub : UnstableSorts.sort byScore kept ⊆ sums aarch64 lex vec := fun m hm =>
    hperm.subset (List.mem_append_left _ (hsort.subset hm))
  have hnodup : ((UnstableSorts.sort byScore kept).map Pair.id).Nodup := by
    rw [(hsort.map _).nodup_iff]
    refine List.Nodup.sublist ((List.sublist_append_left kept dropped).map _) ?_
    exact (hperm.map _).nodup_iff.mpr (nodup_ids_sums aarch64 lex vec)
  have hsorted : ((UnstableSorts.sort byScore kept).map Pair.score).Pairwise fun a b => b ≤ a :=
    List.pairwise_map.mpr ((UnstableSorts.sort_pairwise totalOrder_byScore kept).imp
      of_decide_eq_true)
  obtain ⟨hids, hscores, hhit⟩ := takeHits_sums aarch64 lex vec hsub hnodup
  rw [← hids] at hnodup
  rw [← hscores] at hsorted
  refine ⟨_, by rw [rrfMergeNeon_of_ne _ _ _ hempty, hkept]; rfl, ?_, hnodup, hhit,
    fun x hx hnot h hh => ?_, List.pairwise_map.mp hsorted⟩
  · rw [← length_sums aarch64, ← hkeptlen, ← hsort.length_eq, ← List.length_map (f := Pair.id),
      ← hids, List.length_map]
  · -- an id that is left out is that of a dropped sum
    obtain ⟨m, hm, hid⟩ := List.mem_map.mp (mem_ids_sums aarch64 lex vec hx)
    rw [← hid, ← (sums_spec aarch64 lex vec hm).1]
    rcases List.mem_append.mp (hperm.symm.subset hm) with hm | hm
    · rw [hids] at hnot
      exact absurd (List.mem_map.mpr ⟨m, hsort.symm.subset hm, hid⟩) hnot
    · have hscore : h.score ∈ (UnstableSorts.sort byScore kept).map Pair.score :=
        hscores ▸ List.mem_map_of_mem hh
      obtain ⟨k, hk, hkscore⟩ := List.mem_map.mp hscore
      rw [← hkscore]
      exact hbest m hm k (hsort.subset hk)

/-- **When the merge is a fusion.** -/
theorem rrf_fused_iff (limit : ℕ) :
    (∃ out, rrfMergeNeon aarch64 lex vec limit = .ok out ∧ Fused lex vec limit out) ↔
      0 < limit ∨ lex = [] ∧ vec = [] := by
  by_cases hempty : lex = [] ∧ vec = []
  · obtain ⟨rfl, rfl⟩ := hempty
    exact iff_of_true ⟨[], rfl, (Nat.min_zero _).symm, .nil, nofun, nofun, .nil⟩ (.inr ⟨rfl, rfl⟩)
  constructor
  · rintro ⟨out, hout, -⟩
    refine .inl (Nat.pos_of_ne_zero fun hzero => ?_)
    rw [hzero, rrfMergeNeon_zero _ _ _ hempty] at hout
    cases hout
  · intro hlimit
    exact rrfMergeNeon_fused aarch64 lex vec hempty
      (hlimit.resolve_right fun h => absurd h hempty)

end Fusion

omit [UnstableSorts] in
/-- One hit, and no room for it. -/
theorem noRoom_panics :
    let _ := UnstableSorts.stable
    ¬∀ (lex vec : List (Hit Unit)) (limit : ℕ),
      ∃ out, rrfMergeNeon false lex vec limit = .ok out ∧ Fused lex vec limit out := by
  intro _ h
  obtain ⟨out, hout, -⟩ := h [⟨7, 0, ()⟩] [] 0
  rw [rrfMergeNeon_zero _ _ _ (by simp)] at hout
  cases hout

end SynapseMemory.RankFusion
