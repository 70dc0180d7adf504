import SynapseMemory.Store
import SynapseMemory.Text

/-!
# Search in the document store

`Store::search` asks the full-text index, the vector index or both, reads the rows of the ids it
got, and merges the two lists by reciprocal rank. The indexes are a parameter (`SearchEngine`): a
build takes one of several of each, and all of them answer with ids and scores, best first. The
arithmetic of the scores is a parameter too.

Every hit is a row of `docs` at the time of the search (`mem_search`). Nothing here looks at the
`meta` of a row.
-/

namespace SynapseMemory

open Proto

/-- The indexes behind a search, and the arithmetic of scores. -/
class SearchEngine where
  /-- The rows that match an expression, best first. -/
  lexical : List Store.FtsCommand → Text → ℕ → Except String (List (ℤ × F64))
  /-- The rows whose vectors are nearest, nearest first. -/
  nearest : List (ℤ × List F32) → List F32 → ℕ → Except String (List (ℤ × F64))
  Score : Type
  /-- `1 / (60 + rank)` -/
  reciprocal : ℕ → Score
  add : Score → Score → Score
  /-- `partial_cmp` -/
  cmp : Score → Score → Option Ordering
  toF64 : Score → F64

/-- The rows that were indexed and not removed since, by the words of their texts, in the order they
came in. There are no vectors, and scores are in millionths. -/
@[reducible] def SearchEngine.scan : SearchEngine where
  lexical log query limit :=
    let rows := log.foldl (fun rows command =>
      match command with
      | .insert id _ text => rows ++ [(id, text)]
      | .delete id _ text => rows.erase (id, text)) []
    let found := rows.filter fun row => (Text.splitWhitespace row.2.toList).contains query
    .ok ((found.map fun row => (row.1, 0)).take limit)
  nearest _ _ _ := .ok []
  Score := ℕ
  reciprocal n := 10 ^ 6 / (60 + n)
  add a b := a + b
  cmp a b := some (compare a b)
  toF64 _ := 0

namespace Search

/-! ## The query -/

/-- A character of a token. -/
def isTokenChar (c : Char) : Bool := c.isAlphanum || c == '_'

/-- `char::is_ascii_whitespace` -/
def isAsciiWhitespace (c : Char) : Bool :=
  c == ' ' || c == '\t' || c == '\n' || c == Char.ofNat 12 || c == '\r'

/-- The token loop: at most sixteen tokens of at least two characters. -/
def scanTokens : List Text → Text → Text → List Text
  | tokens, token, [] =>
    if 1 < Text.len token && tokens.length < 16 then tokens ++ [token] else tokens
  | tokens, token, c :: rest =>
    if isTokenChar c then scanTokens tokens (token ++ [c]) rest
    else if 1 < Text.len token then
      if 16 ≤ tokens.length + 1 then tokens ++ [token]
      else scanTokens (tokens ++ [token]) [] rest
    else scanTokens tokens [] rest

/-- The `MATCH` expression for what a user typed: the words themselves, or the tokens quoted and
joined by `OR` when there is anything but words. -/
def fts5MatchQuery (q : Text) : Option Text :=
  let trimmed := Text.trim q
  if trimmed.isEmpty then none
  else if trimmed.all fun c => isTokenChar c || isAsciiWhitespace c then some trimmed
  else
    let tokens := scanTokens [] [] trimmed
    if tokens.isEmpty then none
    else
      some (" OR ".toList.intercalate (tokens.map fun t => Char.ofNat 34 :: t ++ [Char.ofNat 34]))

/-! ## Hits -/

/-- A row as a hit. -/
def hitOf (d : Doc) (score : F64) : Hit where
  id := d.id
  uri := d.uri
  title := d.title
  text := d.text
  score := score
  meta_ := d.meta_
  ts := some d.ts

/-- Read the rows of the ids; an id without a row is skipped. -/
def hydrate (docs : List Doc) (found : List (ℤ × F64)) : List Hit :=
  found.filterMap fun (id, score) => (docs.find? (·.id = id)).map (hitOf · score)

theorem mem_hydrate {docs : List Doc} {found : List (ℤ × F64)} {h : Hit}
    (hmem : h ∈ hydrate docs found) :
    ∃ d ∈ docs, ∃ score, (d.id, score) ∈ found ∧ h = hitOf d score := by
  obtain ⟨⟨id, score⟩, hfound, heq⟩ := List.mem_filterMap.mp hmem
  obtain ⟨d, hd, rfl⟩ := Option.map_eq_some_iff.mp heq
  have hid : d.id = id := by simpa using List.find?_some hd
  exact ⟨d, List.mem_of_find?_eq_some hd, score, hid ▸ hfound, rfl⟩

/-- What is in a result that counts as empty when it failed is in a result that did not. -/
theorem mem_toOption_getD {α : Type} {r : Except String (List α)} {x : α}
    (h : x ∈ r.toOption.getD []) : ∃ xs, r = .ok xs ∧ x ∈ xs := by
  match r with
  | .ok xs => exact ⟨xs, rfl, h⟩
  | .error e => cases h

/-! ## Reciprocal rank fusion -/

section Rrf

variable [E : SearchEngine]

/-- An id with its score and the place of its first hit. -/
structure Ranked where
  id : ℤ
  score : E.Score
  /-- in the lexical list, or in the other one -/
  lexical : Bool
  index : ℕ

/-- Add up the scores of neighbours with the same id; the first of them stays. -/
def mergeRun (merged : List Ranked) (r : Ranked) : List Ranked :=
  match merged with
  | last :: before =>
    if last.id = r.id then { last with score := E.add last.score r.score } :: before
    else r :: merged
  | [] => [r]

/-- The hits of one list with their scores. -/
def rankHits (lexical : Bool) (hits : List Hit) : List Ranked :=
  hits.zipIdx.map fun (h, i) => ⟨h.id, E.reciprocal (i + 1), lexical, i⟩

/-- The hit of an id, with the score of the merged list. -/
def rankedHit (lex vec : List Hit) (r : Ranked) : Option Hit :=
  ((if r.lexical then lex else vec)[r.index]?).map fun h => { h with score := E.toF64 r.score }

/-- Higher scores come first. -/
def byScore (a b : Ranked) : Bool := (E.cmp b.score a.score).getD .eq != .gt

/-- `rrf_merge_neon`. A limit of zero with hits to merge is left out: the source panics there, and
its callers have no hits then. -/
def rrfMerge (lex vec : List Hit) (limit : ℕ) : List Hit :=
  let pairs := rankHits true lex ++ rankHits false vec
  let merged := ((pairs.mergeSort fun a b => a.id ≤ b.id).foldl mergeRun []).reverse
  ((merged.mergeSort byScore).take limit).filterMap (rankedHit lex vec)

/-- A merged hit is a hit of one of the lists, with another score. -/
theorem mem_rrfMerge {lex vec : List Hit} {limit : ℕ} {h : Hit}
    (hmem : h ∈ rrfMerge lex vec limit) :
    ∃ h', (h' ∈ lex ∨ h' ∈ vec) ∧ ∃ score, h = { h' with score := score } := by
  obtain ⟨r, -, heq⟩ := List.mem_filterMap.mp hmem
  obtain ⟨h', hget, rfl⟩ := Option.map_eq_some_iff.mp heq
  refine ⟨h', ?_, E.toF64 r.score, rfl⟩
  split at hget
  next => exact .inl (List.mem_of_getElem? hget)
  next => exact .inr (List.mem_of_getElem? hget)

/-- What a run of neighbours adds: the first of them stands for its id. -/
theorem mergeRun_cases (merged : List Ranked) (r : Ranked) :
    (mergeRun merged r = r :: merged ∧ ∀ last ∈ merged.head?, last.id ≠ r.id) ∨
      ∃ last before, merged = last :: before ∧ last.id = r.id ∧
        mergeRun merged r = { last with score := E.add last.score r.score } :: before := by
  cases merged with
  | nil => exact .inl ⟨rfl, nofun⟩
  | cons last before =>
    rw [mergeRun]
    by_cases hid : last.id = r.id
    · exact .inr ⟨last, before, rfl, hid, if_pos hid⟩
    · refine .inl ⟨if_neg hid, fun x hx => ?_⟩
      obtain rfl := Option.some.inj hx
      exact hid

/-- What holds of the place of each hit holds of what is left of them. -/
theorem forall_mem_foldl_mergeRun {P : ℤ → Bool → ℕ → Prop} {rs acc : List Ranked}
    (hrs : ∀ r ∈ rs, P r.id r.lexical r.index) (hacc : ∀ r ∈ acc, P r.id r.lexical r.index) :
    ∀ r ∈ rs.foldl mergeRun acc, P r.id r.lexical r.index := by
  induction rs generalizing acc with
  | nil => exact hacc
  | cons r rs ih =>
    obtain ⟨hr, hrs⟩ := List.forall_mem_cons.mp hrs
    refine ih hrs ?_
    rcases mergeRun_cases acc r with ⟨heq, -⟩ | ⟨last, before, rfl, -, heq⟩
    · rw [heq]
      exact List.forall_mem_cons.mpr ⟨hr, hacc⟩
    · rw [heq]
      obtain ⟨hlast, hbefore⟩ := List.forall_mem_cons.mp hacc
      exact List.forall_mem_cons.mpr ⟨hlast, hbefore⟩

/-- No id is lost. -/
theorem mem_ids_foldl_mergeRun {rs acc : List Ranked} {id : ℤ}
    (h : id ∈ (rs.map Ranked.id) ∨ id ∈ acc.map Ranked.id) :
    id ∈ (rs.foldl mergeRun acc).map Ranked.id := by
  induction rs generalizing acc with
  | nil => exact h.resolve_left List.not_mem_nil
  | cons r rs ih =>
    refine ih ?_
    rcases mergeRun_cases acc r with ⟨heq, -⟩ | ⟨last, before, rfl, hid, heq⟩
    · rw [heq, List.map_cons, List.mem_cons]
      rw [List.map_cons, List.mem_cons] at h
      tauto
    · rw [heq, List.map_cons, List.mem_cons]
      rw [List.map_cons, List.mem_cons, List.map_cons, List.mem_cons, hid] at h
      rw [hid]
      tauto

/-- Of hits in the order of their ids, one is left for each id. -/
theorem pairwise_foldl_mergeRun {rs acc : List Ranked}
    (hrs : rs.Pairwise fun a b => a.id ≤ b.id) (hacc : acc.Pairwise fun a b => b.id < a.id)
    (hle : ∀ a ∈ acc, ∀ r ∈ rs, a.id ≤ r.id) :
    (rs.foldl mergeRun acc).Pairwise fun a b => b.id < a.id := by
  induction rs generalizing acc with
  | nil => exact hacc
  | cons r rs ih =>
    obtain ⟨hr, hrs⟩ := List.pairwise_cons.mp hrs
    have hlast : ∀ a ∈ acc, a.id ≤ r.id := fun a ha => hle a ha r List.mem_cons_self
    have hrest : ∀ a ∈ acc, ∀ x ∈ rs, a.id ≤ x.id := fun a ha x hx =>
      hle a ha x (List.mem_cons_of_mem r hx)
    rcases mergeRun_cases acc r with ⟨heq, hne⟩ | ⟨last, before, rfl, -, heq⟩
    · rw [List.foldl_cons, heq]
      refine ih hrs (List.pairwise_cons.mpr ⟨fun a ha => ?_, hacc⟩)
        (List.forall_mem_cons.mpr ⟨hr, hrest⟩)
      obtain ⟨last, before, rfl⟩ := List.exists_cons_of_ne_nil (List.ne_nil_of_mem ha)
      have hlt : last.id < r.id := lt_of_le_of_ne (hlast last List.mem_cons_self) (hne last rfl)
      rcases List.mem_cons.mp ha with rfl | ha
      · exact hlt
      · exact ((List.pairwise_cons.mp hacc).1 a ha).trans hlt
    · rw [List.foldl_cons, heq]
      obtain ⟨hfirst, hbefore⟩ := List.pairwise_cons.mp hacc
      exact ih hrs (List.pairwise_cons.mpr ⟨hfirst, hbefore⟩)
        (List.forall_mem_cons.mpr (List.forall_mem_cons.mp hrest))

theorem length_foldl_mergeRun_le (rs acc : List Ranked) :
    (rs.foldl mergeRun acc).length ≤ acc.length + rs.length := by
  induction rs generalizing acc with
  | nil => exact le_refl _
  | cons r rs ih =>
    refine (ih _).trans ?_
    rw [List.length_cons]
    rcases mergeRun_cases acc r with ⟨heq, -⟩ | ⟨last, before, rfl, -, heq⟩
    · rw [heq, List.length_cons]
      omega
    · rw [heq, List.length_cons, List.length_cons]
      omega

theorem length_rrfMerge_le (lex vec : List Hit) (limit : ℕ) :
    (rrfMerge lex vec limit).length ≤ lex.length + vec.length := by
  refine (List.length_filterMap_le _ _).trans ((List.length_take_le' _ _).trans ?_)
  rw [List.length_mergeSort, List.length_reverse]
  refine (length_foldl_mergeRun_le _ _).trans ?_
  simp [rankHits]

theorem mem_ids_rankHits {lexical : Bool} {hits : List Hit} {h : Hit} (hmem : h ∈ hits) :
    h.id ∈ (rankHits lexical hits).map Ranked.id := by
  obtain ⟨i, hi⟩ := List.mem_iff_getElem?.mp hmem
  rw [rankHits, List.map_map, List.mem_map]
  exact ⟨(h, i), List.mk_mem_zipIdx_iff_getElem?.mpr hi, rfl⟩

/-- The place of a ranked id has a hit with that id. -/
theorem of_mem_rankHits {lex vec : List Hit} :
    ∀ r ∈ rankHits true lex ++ rankHits false vec,
      ∃ h ∈ (if r.lexical then lex else vec)[r.index]?, h.id = r.id := by
  intro r hr
  rcases List.mem_append.mp hr with hr | hr
  · obtain ⟨⟨h, i⟩, hi, rfl⟩ := List.mem_map.mp hr
    exact ⟨h, List.mk_mem_zipIdx_iff_getElem?.mp hi, rfl⟩
  · obtain ⟨⟨h, i⟩, hi, rfl⟩ := List.mem_map.mp hr
    exact ⟨h, List.mk_mem_zipIdx_iff_getElem?.mp hi, rfl⟩

/-- **A merge with room for all ids** has every id of the two lists. -/
theorem exists_mem_rrfMerge (lex vec : List Hit) {limit : ℕ} (ids : List ℤ)
    (hids : ∀ h ∈ lex ++ vec, h.id ∈ ids) (hroom : ids.length ≤ limit) {h : Hit}
    (hmem : h ∈ lex ++ vec) : ∃ h' ∈ rrfMerge lex vec limit, h'.id = h.id := by
  let pairs := (rankHits true lex ++ rankHits false vec).mergeSort fun a b => a.id ≤ b.id
  have hperm : pairs.Perm (rankHits true lex ++ rankHits false vec) := List.mergeSort_perm _ _
  have hsorted : pairs.Pairwise fun a b => a.id ≤ b.id := by
    refine List.Pairwise.imp of_decide_eq_true (List.pairwise_mergeSort ?_ ?_ _)
    · intro a b c hab hbc
      exact decide_eq_true ((of_decide_eq_true hab).trans (of_decide_eq_true hbc))
    · intro a b
      simpa using le_total a.id b.id
  have hplace : ∀ r ∈ pairs.foldl mergeRun [],
      ∃ h ∈ (if r.lexical then lex else vec)[r.index]?, h.id = r.id :=
    forall_mem_foldl_mergeRun
      (P := fun id lexical i => ∃ h ∈ (if lexical then lex else vec)[i]?, h.id = id)
      (fun r hr => of_mem_rankHits r (hperm.mem_iff.mp hr)) nofun
  have hfound : h.id ∈ (pairs.foldl mergeRun []).map Ranked.id := by
    refine mem_ids_foldl_mergeRun (.inl ((hperm.map _).mem_iff.mpr ?_))
    rw [List.map_append, List.mem_append]
    exact (List.mem_append.mp hmem).imp mem_ids_rankHits mem_ids_rankHits
  have hnodup : ((pairs.foldl mergeRun []).map Ranked.id).Nodup :=
    List.pairwise_map.mpr ((pairwise_foldl_mergeRun hsorted List.Pairwise.nil nofun).imp ne_of_gt)
  have hlen : ((pairs.foldl mergeRun []).reverse.mergeSort byScore).length ≤ limit := by
    rw [List.length_mergeSort, List.length_reverse, ← List.length_map (f := Ranked.id)]
    refine (hnodup.subperm fun id hid => ?_).length_le.trans hroom
    obtain ⟨r, hr, rfl⟩ := List.mem_map.mp hid
    obtain ⟨x, hx, hxid⟩ := hplace r hr
    rw [← hxid]
    refine hids x ?_
    split at hx
    · exact List.mem_append_left _ (List.mem_of_getElem? hx)
    · exact List.mem_append_right _ (List.mem_of_getElem? hx)
  obtain ⟨r, hr, hrid⟩ := List.mem_map.mp hfound
  obtain ⟨x, hx, hxid⟩ := hplace r hr
  refine ⟨{ x with score := E.toF64 r.score }, List.mem_filterMap.mpr ⟨r, ?_, ?_⟩,
    hxid.trans hrid⟩
  · rw [List.take_of_length_le hlen]
    exact List.mem_mergeSort.mpr (List.mem_reverse.mpr hr)
  · rw [rankedHit, Option.mem_def.mp hx]
    rfl

end Rrf

end Search

/-! ## The store -/

namespace Store

open Search

variable [Blake3] [E : SearchEngine]

/-- `search_lex` -/
def searchLex (s : Store) (q : Text) (limit : ℕ) : Except String (List Hit) :=
  match fts5MatchQuery q with
  | none => .ok []
  | some query => do
    let found ← E.lexical s.fts query limit
    .ok (hydrate s.docs.rows found)

/-- `search_vec` -/
def searchVec (s : Store) (emb : List F32) (limit : ℕ) : Except String (List Hit) :=
  if emb.length ≠ embedDim then
    .error ("dim mismatch: expected " ++ toString embedDim ++ ", got " ++ toString emb.length)
  else do
    let found ← E.nearest s.vecs emb limit
    .ok (hydrate s.docs.rows found)

/-- `search_hybrid`: an error of one side counts as no hits. -/
def searchHybrid (s : Store) (q : Text) (emb : List F32) (limit : ℕ) : List Hit :=
  let k := limit * 3 % 2 ^ 64
  rrfMerge ((s.searchLex q k).toOption.getD []) ((s.searchVec emb k).toOption.getD []) limit

/-- `search` -/
def search (s : Store) (q : Text) (mode : SearchMode) (emb : Option (List F32)) (limit : ℕ) :
    Except String (List Hit) :=
  match mode, emb with
  | .lex, _ => s.searchLex q limit
  | .vec, some emb => s.searchVec emb limit
  | .vec, none => .error "other: vec search needs embedding"
  | .hybrid, some emb => .ok (s.searchHybrid q emb limit)
  | .hybrid, none => .error "other: hybrid needs embedding"

/-- How many rows a search asks each index for. -/
def depth (mode : SearchMode) (limit : ℕ) : ℕ :=
  if mode = .hybrid then limit * 3 % 2 ^ 64 else limit

/-- The full-text index answers a query with a row. -/
def FindsLex (s : Store) (q : Text) (limit : ℕ) (id : ℤ) : Prop :=
  ∃ query found score, fts5MatchQuery q = some query ∧ E.lexical s.fts query limit = .ok found ∧
    (id, score) ∈ found

/-- The vector index answers a query with a row. -/
def FindsVec (s : Store) (emb : List F32) (limit : ℕ) (id : ℤ) : Prop :=
  ∃ found score, E.nearest s.vecs emb limit = .ok found ∧ (id, score) ∈ found

/-- A lexical hit was found, and is a document. -/
theorem mem_searchLex {s : Store} {q : Text} {limit : ℕ} {hits : List Hit} {h : Hit}
    (hok : s.searchLex q limit = .ok hits) (hmem : h ∈ hits) :
    s.FindsLex q limit h.id ∧ ∃ d ∈ s.docs.rows, ∃ score, h = hitOf d score := by
  rw [searchLex] at hok
  split at hok
  next =>
    cases hok
    cases hmem
  next query hquery =>
    obtain ⟨found, hfound, hok⟩ := bind_eq_ok.mp hok
    cases hok
    obtain ⟨d, hd, score, hpair, rfl⟩ := mem_hydrate hmem
    exact ⟨⟨query, found, score, hquery, hfound, hpair⟩, d, hd, score, rfl⟩

theorem mem_searchVec {s : Store} {emb : List F32} {limit : ℕ} {hits : List Hit} {h : Hit}
    (hok : s.searchVec emb limit = .ok hits) (hmem : h ∈ hits) :
    s.FindsVec emb limit h.id ∧ ∃ d ∈ s.docs.rows, ∃ score, h = hitOf d score := by
  rw [searchVec] at hok
  split at hok
  next => cases hok
  next =>
    obtain ⟨found, hfound, hok⟩ := bind_eq_ok.mp hok
    cases hok
    obtain ⟨d, hd, score, hpair, rfl⟩ := mem_hydrate hmem
    exact ⟨⟨found, score, hfound, hpair⟩, d, hd, score, rfl⟩

/-- **Hits are rows.** A hit of any search is a row that one of the indexes answered with. -/
theorem mem_search {s : Store} {q : Text} {mode : SearchMode} {emb : Option (List F32)}
    {limit : ℕ} {hits : List Hit} {h : Hit} (hok : s.search q mode emb limit = .ok hits)
    (hmem : h ∈ hits) :
    (s.FindsLex q (depth mode limit) h.id ∨
        ∃ e ∈ emb, s.FindsVec e (depth mode limit) h.id) ∧
      ∃ d ∈ s.docs.rows, ∃ score, h = hitOf d score := by
  unfold search at hok
  split at hok
  next =>
    obtain ⟨hfind, hrow⟩ := mem_searchLex hok hmem
    exact ⟨.inl hfind, hrow⟩
  next e =>
    obtain ⟨hfind, hrow⟩ := mem_searchVec hok hmem
    exact ⟨.inr ⟨e, rfl, hfind⟩, hrow⟩
  next => cases hok
  next e =>
    cases hok
    obtain ⟨h', hfrom, score, rfl⟩ := mem_rrfMerge hmem
    rcases hfrom with hfrom | hfrom
    · obtain ⟨found, hok, hmem⟩ := mem_toOption_getD hfrom
      obtain ⟨hfind, d, hd, _, rfl⟩ := mem_searchLex hok hmem
      exact ⟨.inl hfind, d, hd, score, rfl⟩
    · obtain ⟨found, hok, hmem⟩ := mem_toOption_getD hfrom
      obtain ⟨hfind, d, hd, _, rfl⟩ := mem_searchVec hok hmem
      exact ⟨.inr ⟨e, rfl, hfind⟩, d, hd, score, rfl⟩
  next => cases hok

end Store

end SynapseMemory
