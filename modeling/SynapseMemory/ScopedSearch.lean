import SynapseMemory.ContextState

/-!
# Scoped search

`SearchScoped` searches the documents of a scope: those with a value under a key of their `meta`.
The words of the query are looked up within the scope, or the newest documents of the scope are
taken where the query has no word. If that gives fewer hits than asked for, and the mode is not
lexical, the daemon searches all documents, takes what is in the scope of the best of them, and
ranks both together.

A hit is a document of the scope, and no document is returned twice. Documents outside the scope
make no difference. The search of all documents sees them, and they can take the places of others
there. But the connection for reading refuses a query with a word, and without a word fewer
candidates than asked for are all documents of the scope: what the second search finds is among them
(`scoped_search`).
-/

namespace SynapseMemory

namespace ScopedSearch

open Proto Search ContextState

/-- The scores of the last ranking. None of them is NaN. -/
class ScopedScores where
  S : Type
  order : LinearOrder S
  /-- A thousand if the whole query is in the hit, ten for each term that is, and its own score. -/
  total : Bool → ℕ → F64 → S

attribute [reducible, instance] ScopedScores.order

/-- Scores without the score of the hit. -/
@[reducible] def ScopedScores.terms : ScopedScores :=
  ⟨ℕ, inferInstance, fun whole n _ => (if whole then 1000 else 0) + n * 10⟩

/-! ## The scope -/

/-- The key without the blanks around it. -/
def metaKey (key : Text) : String := String.ofList (Text.trim key)

/-- `sanitize_meta_key` -/
def sanitizeMetaKey (key : Text) : Except String String :=
  let trimmed := Text.trim key
  if trimmed.isEmpty then .error "scope_key must not be empty"
  else if !trimmed.all isTokenChar then
    .error "scope_key may only contain ASCII letters, digits and underscore"
  else .ok (metaKey key)

theorem sanitizeMetaKey_ok {key : Text} {clean : String} (h : sanitizeMetaKey key = .ok clean) :
    clean = metaKey key := by
  unfold sanitizeMetaKey at h
  simp only at h
  split at h
  · cases h
  split at h
  · cases h
  · exact (Except.ok.inj h).symm

section Scope

variable [FloatText]

/-- The text that `json_extract` reads under a key. An array or an object is read as its text; a
number, a truth value or a null is not a text. -/
def jsonExtract (m : Json) (key : String) : Option Text :=
  match m.get key with
  | some (.str s) => some s.toList
  | some (.arr items) => some (Json.render (.arr items))
  | some (.obj fields) => some (Json.render (.obj fields))
  | _ => none

/-- The metadata of the document has the value under the key. -/
def inScope (key value : String) (d : Doc) : Bool :=
  d.meta_.bind (jsonExtract · key) = some value.toList

variable [Blake3]

/-- The documents of a scope, in the order of the table. -/
def rowsInScope (s : Store) (key value : String) : List Doc :=
  s.docs.rows.filter (inScope key value)

/-- The document of the scope with an id. -/
def rowInScope (s : Store) (key value : String) (id : ℤ) : Option Doc :=
  (rowsInScope s key value).find? (·.id = id)

end Scope

/-! ## Candidates -/

/-- The tokens of the query quoted and joined by `OR`. -/
def fts5LooseMatchQuery (q : Text) : Option Text :=
  let tokens := scanTokens [] [] (Text.trim q)
  if tokens.isEmpty then none
  else some (" OR ".toList.intercalate (tokens.map fun t => Json.quote :: t ++ [Json.quote]))

/-- `ORDER BY ts DESC, id DESC` -/
def newest (a b : Doc) : Bool := b.ts < a.ts ∨ b.ts = a.ts ∧ b.id ≤ a.id

section Candidates

variable [FloatText] [D : DaemonHost] [Blake3]

/-- `scoped_lex_from_state` -/
def scopedLex (s : Store) (q : Text) (key value : String) (limit : ℕ) :
    Except String (List Hit) :=
  if !D.sqlConn then .error "sql_conn unavailable"
  else
    match fts5LooseMatchQuery q with
    | some query => do
      let ranked := shouldRankLexWithBm25 q
      let found ← sandboxed D.ftsActions (D.matching s.fts query ranked)
      let hits := found.filterMap fun (id, score) =>
        (rowInScope s key value id).map (fastHit · (if ranked then negF64 score else 0))
      .ok (hits.take limit)
    | none => .ok ((((rowsInScope s key value).mergeSort newest).take limit).map (fastHit · 0))

/-- `filter_hits_by_meta` -/
def filterHitsByMeta (s : Store) (hits : List Hit) (key value : String) :
    Except String (List Hit) :=
  if hits.isEmpty then .ok []
  else if !D.sqlConn then .error "sql_conn unavailable"
  else .ok (hits.filter fun h => (rowInScope s key value h.id).isSome)

end Candidates

/-! ## The ranking -/

/-- The token loop of `query_terms`: at most sixteen different tokens in lower case, of at least two
characters. -/
def scanTerms : List Text → Text → Text → List Text
  | terms, token, [] =>
    if 1 < token.length && terms.length < 16 && token ∉ terms then terms ++ [token] else terms
  | terms, token, c :: rest =>
    if isTokenChar c then scanTerms terms (token ++ [c.toLower]) rest
    else if 1 < token.length && token ∉ terms then
      if 16 ≤ terms.length + 1 then terms ++ [token] else scanTerms (terms ++ [token]) [] rest
    else scanTerms terms [] rest

/-- The terms that a scoped hit is scored by. -/
def queryTerms (q : Text) : List Text := scanTerms [] [] q

/-- The first hit of each id. -/
def uniqueById : List ℤ → List Hit → List Hit
  | _, [] => []
  | seen, h :: rest =>
    if h.id ∈ seen then uniqueById seen rest else h :: uniqueById (h.id :: seen) rest

section Rank

variable [R : ScopedScores]

/-- `scoped_hit_score` -/
def scopedHitScore (q : Text) (terms : List Text) (h : Hit) : R.S :=
  let blob := Text.toAsciiLowercase ((h.title.getD "").toList ++ ' ' :: (h.uri.getD "").toList ++
    ' ' :: h.text.toList)
  R.total (Text.containsStr blob (Text.toAsciiLowercase q)) (terms.countP (Text.containsStr blob))
    h.score

/-- The first hit scores at least as high as the second. -/
def bestFirst (q : Text) (a b : Hit) : Bool :=
  scopedHitScore q (queryTerms q) b ≤ scopedHitScore q (queryTerms q) a

/-- `rank_scoped_hits` -/
def rankScopedHits (q : Text) (hits : List Hit) (limit : ℕ) : List Hit :=
  ((uniqueById [] hits).mergeSort (bestFirst q)).take limit

/-! ## The search -/

/-- The number of hits a search asks for. -/
def clampLimit (limit : ℕ) : ℕ := min (max limit 1) maxSearchLimit

/-- The number of candidates of each kind. -/
def fetchK (limit : ℕ) (candidateLimit : Option ℕ) : ℕ :=
  min (max (candidateLimit.getD (min (clampLimit limit * 10) (2 ^ 64 - 1))) (clampLimit limit))
    (maxSearchLimit * 10)

variable [FloatText] [D : DaemonHost] [Blake3] [E : SearchEngine]

/-- `search_scoped` -/
def searchScoped (d : Daemon) (mode : SearchMode) (q : Text) (limit : ℕ) (embedQuery : Bool)
    (scopeKey : Text) (scopeValue : String) (candidateLimit : Option ℕ) :
    Except String (List Hit) := do
  let k := fetchK limit candidateLimit
  let key ← sanitizeMetaKey scopeKey
  let candidates ← scopedLex d.store q key scopeValue k
  if candidates.length < clampLimit limit && mode != .lex then
    let everywhere ← d.search mode q k embedQuery
    let filtered ← filterHitsByMeta d.store everywhere key scopeValue
    .ok (rankScopedHits q (candidates ++ filtered) (clampLimit limit))
  else .ok (rankScopedHits q candidates (clampLimit limit))

end Rank

/-! ## Unique hits -/

theorem uniqueById_subset (seen : List ℤ) (hits : List Hit) : uniqueById seen hits ⊆ hits := by
  induction hits generalizing seen with
  | nil => exact List.Subset.refl _
  | cons h rest ih =>
    rw [uniqueById]
    split
    · exact List.subset_cons_of_subset h (ih seen)
    · exact List.cons_subset_cons h (ih (h.id :: seen))

/-- No id comes twice, and none that was seen before. -/
theorem nodup_uniqueById (seen : List ℤ) (hits : List Hit) :
    ((uniqueById seen hits).map Hit.id).Nodup ∧ ∀ h ∈ uniqueById seen hits, h.id ∉ seen := by
  induction hits generalizing seen with
  | nil => exact ⟨List.nodup_nil, nofun⟩
  | cons h rest ih =>
    rw [uniqueById]
    split
    · exact ih seen
    next hseen =>
      obtain ⟨hnodup, hnew⟩ := ih (h.id :: seen)
      refine ⟨?_, ?_⟩
      · rw [List.map_cons, List.nodup_cons]
        refine ⟨fun hmem => ?_, hnodup⟩
        obtain ⟨h', hh', hid⟩ := List.mem_map.mp hmem
        exact hnew h' hh' (hid ▸ List.mem_cons_self)
      · rw [List.forall_mem_cons]
        exact ⟨hseen, fun h' hh' hmem => hnew h' hh' (List.mem_cons_of_mem _ hmem)⟩

/-- Hits with ids that were there before change nothing. -/
theorem uniqueById_append {seen : List ℤ} {hits more : List Hit}
    (h : ∀ x ∈ more, x.id ∈ seen ∨ x.id ∈ hits.map Hit.id) :
    uniqueById seen (hits ++ more) = uniqueById seen hits := by
  induction hits generalizing seen with
  | nil =>
    rw [List.nil_append]
    induction more with
    | nil => rfl
    | cons x more ih =>
      obtain ⟨hx, hmore⟩ := List.forall_mem_cons.mp h
      have hseen : x.id ∈ seen := hx.resolve_right List.not_mem_nil
      calc uniqueById seen (x :: more) = uniqueById seen more := if_pos hseen
        _ = uniqueById seen [] := ih hmore
  | cons y rest ih =>
    rw [List.cons_append, uniqueById, uniqueById]
    split
    next hseen =>
      refine ih fun x hx => (h x hx).elim .inl fun hid => ?_
      rcases List.mem_cons.mp hid with hid | hid
      · exact .inl (hid ▸ hseen)
      · exact .inr hid
    next =>
      refine congrArg (y :: ·) (ih fun x hx => (h x hx).elim ?_ fun hid => ?_)
      · exact fun hid => .inl (List.mem_cons_of_mem _ hid)
      · rcases List.mem_cons.mp hid with hid | hid
        · exact .inl (List.mem_cons.mpr (.inl hid))
        · exact .inr hid

section Rank

variable [R : ScopedScores]

variable {q : Text} {hits : List Hit} {limit : ℕ}

theorem rankScopedHits_subset : rankScopedHits q hits limit ⊆ hits := fun _ hmem =>
  uniqueById_subset [] hits (List.mem_mergeSort.mp (List.mem_of_mem_take hmem))

theorem nodup_rankScopedHits : ((rankScopedHits q hits limit).map Hit.id).Nodup := by
  have hperm := (List.mergeSort_perm (uniqueById [] hits) (bestFirst q)).map Hit.id
  have hnodup := hperm.nodup_iff.mpr (nodup_uniqueById [] hits).1
  rw [rankScopedHits, List.map_take]
  exact hnodup.sublist (List.take_sublist _ _)

theorem length_rankScopedHits : (rankScopedHits q hits limit).length ≤ limit := by
  rw [rankScopedHits]
  exact List.length_take_le _ _

/-- More hits of documents that are found already make no difference. -/
theorem rankScopedHits_append {more : List Hit} (h : ∀ x ∈ more, x.id ∈ hits.map Hit.id)
    (limit : ℕ) :
    rankScopedHits q (hits ++ more) limit = rankScopedHits q hits limit := by
  rw [rankScopedHits, uniqueById_append fun x hx => .inr (h x hx)]
  rfl

end Rank

theorem clampLimit_le_fetchK (limit : ℕ) (candidateLimit : Option ℕ) :
    clampLimit limit ≤ fetchK limit candidateLimit := by
  refine le_min (le_max_right _ _) ?_
  exact (min_le_right _ _).trans (Nat.le_mul_of_pos_right _ (by decide))

/-! ## What a scoped search returns -/

section Scope

variable [FloatText] [D : DaemonHost] [Blake3] {s : Store} {q : Text} {key value : String}
  {limit : ℕ} {hits : List Hit}

/-- The id of a hit is the id of a document of the scope. -/
def InScope (s : Store) (key value : String) (h : Hit) : Prop :=
  ∃ d ∈ s.docs.rows, d.id = h.id ∧ inScope key value d = true

omit D in
/-- The row that is found: in the scope, and with the id. -/
theorem rowInScope_eq_some {id : ℤ} {d : Doc} :
    rowInScope s key value id = some d ↔
      d ∈ s.docs.rows ∧ inScope key value d = true ∧ d.id = id := by
  have hunique : ∀ a ∈ rowsInScope s key value, ∀ b ∈ rowsInScope s key value,
      decide (a.id = id) = true → decide (b.id = id) = true → a = b := by
    intro a ha b hb haid hbid
    exact s.docs.eq_of_id (List.mem_of_mem_filter ha) (List.mem_of_mem_filter hb)
      ((of_decide_eq_true haid).trans (of_decide_eq_true hbid).symm)
  rw [rowInScope, Table.find?_eq_some_of_unique hunique, rowsInScope, List.mem_filter,
    decide_eq_true_eq, and_assoc]

/-- The lexical hits are in the scope. -/
theorem inScope_of_mem_scopedLex (h : scopedLex s q key value limit = .ok hits) :
    ∀ x ∈ hits, InScope s key value x := by
  rw [scopedLex] at h
  split at h
  · cases h
  split at h
  · obtain ⟨found, -, h⟩ := bind_eq_ok.mp h
    cases h
    intro x hx
    obtain ⟨⟨id, score⟩, -, hx⟩ := List.mem_filterMap.mp (List.mem_of_mem_take hx)
    obtain ⟨d, hd, rfl⟩ := Option.map_eq_some_iff.mp hx
    obtain ⟨hrow, hscope, -⟩ := rowInScope_eq_some.mp hd
    exact ⟨d, hrow, rfl, hscope⟩
  · cases h
    intro x hx
    obtain ⟨d, hd, rfl⟩ := List.mem_map.mp hx
    obtain ⟨hrow, hscope⟩ := List.mem_filter.mp (List.mem_mergeSort.mp (List.mem_of_mem_take hd))
    exact ⟨d, hrow, rfl, hscope⟩

/-- What the filter leaves. -/
theorem filterHitsByMeta_ok {everywhere : List Hit}
    (h : filterHitsByMeta s everywhere key value = .ok hits) :
    hits = everywhere.filter fun h => (rowInScope s key value h.id).isSome := by
  rw [filterHitsByMeta] at h
  split at h
  next hempty =>
    cases h
    rw [List.isEmpty_iff.mp hempty]
    rfl
  next =>
    split at h
    · cases h
    · exact (Except.ok.inj h).symm

/-- The hits that it leaves are in the scope. -/
theorem inScope_of_mem_filterHitsByMeta {everywhere : List Hit}
    (h : filterHitsByMeta s everywhere key value = .ok hits) :
    ∀ x ∈ hits, InScope s key value x := by
  intro x hx
  rw [filterHitsByMeta_ok h] at hx
  obtain ⟨d, hd⟩ := Option.isSome_iff_exists.mp (List.mem_filter.mp hx).2
  obtain ⟨hrow, hscope, hid⟩ := rowInScope_eq_some.mp hd
  exact ⟨d, hrow, hid, hscope⟩

variable [ScopedScores] [SearchEngine] {d : Daemon} {mode : SearchMode} {embedQuery : Bool}
  {scopeKey : Text} {candidateLimit : Option ℕ}

/-- What a search that answered did: it ranked candidates of the scope. -/
theorem searchScoped_ok (hkey : sanitizeMetaKey scopeKey = .ok key)
    (h : searchScoped d mode q limit embedQuery scopeKey value candidateLimit = .ok hits) :
    ∃ candidates, (∀ x ∈ candidates, InScope d.store key value x) ∧
      hits = rankScopedHits q candidates (clampLimit limit) := by
  rw [searchScoped] at h
  obtain ⟨key', hkey', h⟩ := bind_eq_ok.mp h
  obtain rfl := Except.ok.inj (hkey.symm.trans hkey')
  obtain ⟨lex, hlex, h⟩ := bind_eq_ok.mp h
  have hscope := inScope_of_mem_scopedLex hlex
  split at h
  · obtain ⟨everywhere, -, h⟩ := bind_eq_ok.mp h
    obtain ⟨filtered, hfiltered, h⟩ := bind_eq_ok.mp h
    refine ⟨lex ++ filtered, fun x hx => ?_, (Except.ok.inj h).symm⟩
    rcases List.mem_append.mp hx with hx | hx
    · exact hscope x hx
    · exact inScope_of_mem_filterHitsByMeta hfiltered x hx
  · exact ⟨lex, hscope, (Except.ok.inj h).symm⟩

end Scope

/-! ## Further documents -/

section Adds

variable [Blake3]

/-- A store that got further documents, and vectors for some of them. -/
structure Adds (s s' : Store) (added : List Doc) : Prop where
  rows_eq : s'.docs.rows = s.docs.rows ++ added
  new : ∀ d ∈ added, s.docs.seq < d.id
  vecs_eq : ∃ more, s'.vecs = s.vecs ++ more ∧ ∀ v ∈ more, v.1 ∈ added.map Doc.id
  seq_le : s.docs.seq ≤ s'.docs.seq

theorem Adds.refl (s : Store) : Adds s s [] :=
  ⟨(List.append_nil _).symm, nofun, ⟨[], (List.append_nil _).symm, nofun⟩, le_refl _⟩

/-- Adding twice adds both. -/
theorem Adds.trans {s t u : Store} {added more : List Doc} (h : Adds s t added)
    (h' : Adds t u more) : Adds s u (added ++ more) where
  rows_eq := by rw [h'.rows_eq, h.rows_eq, List.append_assoc]
  new := by
    intro d hd
    rcases List.mem_append.mp hd with hd | hd
    · exact h.new d hd
    · exact h.seq_le.trans_lt (h'.new d hd)
  vecs_eq := by
    obtain ⟨vs, hvs, hnew⟩ := h.vecs_eq
    obtain ⟨vs', hvs', hnew'⟩ := h'.vecs_eq
    refine ⟨vs ++ vs', by rw [hvs', hvs, List.append_assoc], fun v hv => ?_⟩
    rw [List.map_append, List.mem_append]
    exact (List.mem_append.mp hv).imp (hnew v) (hnew' v)
  seq_le := h.seq_le.trans h'.seq_le

/-- An insert adds its row. -/
theorem Adds.inserted {s s' : Store} {now id : ℤ} {req : PutRequest}
    (h : Store.Inserted s now req s' id) : Adds s s' [s.newDoc now req] where
  rows_eq := h.rows_eq
  new := by
    intro d hd
    obtain rfl := List.mem_singleton.mp hd
    exact Int.lt_succ _
  vecs_eq := by
    refine ⟨_, h.vecs_eq, fun v hv => ?_⟩
    obtain ⟨e, -, rfl⟩ := Option.map_eq_some_iff.mp (Option.mem_toList.mp hv)
    exact List.mem_singleton.mpr h.id_eq
  seq_le := by
    rw [h.seq_eq]
    exact Int.le_of_lt (Int.lt_succ _)

/-- Puts add documents. -/
theorem exists_adds_of_puts [Store.Tokenizer] {ops : List Store.Op}
    (hputs : ∀ op ∈ ops, ∀ id, op ≠ .delete id) (s : Store) :
    ∃ added, Adds s (ops.foldl Store.apply s) added := by
  induction ops generalizing s with
  | nil => exact ⟨[], Adds.refl s⟩
  | cons op rest ih =>
    obtain ⟨hop, hrest⟩ := List.forall_mem_cons.mp hputs
    have hfirst : ∃ added, Adds s (s.apply op) added :=
      Store.apply_invariant (P := fun t => ∃ added, Adds s t added)
        (fun hins ⟨_, h⟩ => ⟨_, h.trans (Adds.inserted hins)⟩)
        (fun hdelete _ => absurd hdelete (hop _)) ⟨[], Adds.refl s⟩
    obtain ⟨added, h⟩ := hfirst
    obtain ⟨more, h'⟩ := ih hrest (s.apply op)
    exact ⟨added ++ more, h.trans h'⟩

variable [FloatText] {s s' : Store} {added : List Doc} {key value : String}

/-- The scope has the documents it had. -/
theorem rowsInScope_of_adds (h : Adds s s' added)
    (hout : ∀ d ∈ added, inScope key value d = false) :
    rowsInScope s' key value = rowsInScope s key value := by
  have hnone : added.filter (inScope key value) = [] :=
    List.filter_eq_nil_iff.mpr fun d hd => ne_true_of_eq_false (hout d hd)
  rw [rowsInScope, rowsInScope, h.rows_eq, List.filter_append, hnone, List.append_nil]

end Adds

section Unaffected

variable [FloatText] [D : DaemonHost] [Blake3] {s s' : Store} {added : List Doc}
  {q : Text} {key value : String} {hits : List Hit}

/-- **The first candidates** are the same: none where the query has a word, and else the newest
documents of the scope. -/
theorem scopedLex_of_adds {D' : DaemonHost} (hfts : dataVersion ∈ D.ftsActions)
    (hfts' : dataVersion ∈ D'.ftsActions) (hconn : D'.sqlConn = D.sqlConn) (h : Adds s s' added)
    (hout : ∀ d ∈ added, inScope key value d = false) (k : ℕ) :
    scopedLex (D := D') s' q key value k = scopedLex (D := D) s q key value k := by
  simp only [scopedLex, hconn, rowsInScope_of_adds h hout, sandboxed_of_dataVersion hfts,
    sandboxed_of_dataVersion hfts']
  cases fts5LooseMatchQuery q <;> rfl

/-- **Fewer candidates than were asked for** are all documents of the scope. -/
theorem id_mem_scopedLex {k : ℕ} (hfts : dataVersion ∈ D.ftsActions)
    (hok : scopedLex s q key value k = .ok hits) (hfew : hits.length < k) :
    ∀ x, InScope s key value x → x.id ∈ hits.map Hit.id := by
  rintro x ⟨d, hd, hid, hscope⟩
  rw [scopedLex] at hok
  split at hok
  · cases hok
  split at hok
  · simp only [sandboxed_of_dataVersion hfts] at hok
    cases hok
  · cases hok
    rw [List.length_map, List.length_take] at hfew
    rw [List.take_of_length_le (by omega), List.map_map]
    refine List.mem_map.mpr ⟨d, List.mem_mergeSort.mpr ?_, hid⟩
    exact List.mem_filter.mpr ⟨hd, hscope⟩

theorem sqlConn_of_scopedLex {k : ℕ} (hok : scopedLex s q key value k = .ok hits) :
    D.sqlConn = true := by
  rw [scopedLex] at hok
  split at hok
  · cases hok
  next hconn => simpa using hconn

end Unaffected

section Search

variable [FloatText] [D : DaemonHost] [Blake3] [E : SearchEngine] [ScopedScores] {d : Daemon}
  {q : Text} {embedQuery : Bool} {key value : String} {hits : List Hit} {limit : ℕ}
  {scopeKey : Text} {candidateLimit : Option ℕ}

/-- What a search by vectors returns: what the first candidates give. -/
theorem searchScoped_vec_ok (hfts : dataVersion ∈ D.ftsActions)
    (hkey : sanitizeMetaKey scopeKey = .ok key) {candidates : List Hit}
    (hlex : scopedLex d.store q key value (fetchK limit candidateLimit) = .ok candidates) :
    searchScoped d .vec q limit embedQuery scopeKey value candidateLimit = .ok hits ↔
      hits = rankScopedHits q candidates (clampLimit limit) ∧
        (candidates.length < clampLimit limit →
          ∃ everywhere, d.search .vec q (fetchK limit candidateLimit) embedQuery =
            .ok everywhere) := by
  rw [searchScoped]
  simp only [hkey, hlex, bind, Except.bind]
  by_cases hfew : candidates.length < clampLimit limit
  · have hall := id_mem_scopedLex hfts hlex
      (hfew.trans_le (clampLimit_le_fetchK limit candidateLimit))
    have hnot : (SearchMode.vec != SearchMode.lex) = true := rfl
    rw [if_pos (Bool.and_eq_true_iff.mpr ⟨decide_eq_true hfew, hnot⟩)]
    cases hsearch : d.search .vec q (fetchK limit candidateLimit) embedQuery with
    | error e => simp [hfew]
    | ok everywhere =>
      obtain ⟨filtered, hfiltered⟩ : ∃ filtered,
          filterHitsByMeta d.store everywhere key value = .ok filtered := by
        rw [filterHitsByMeta, sqlConn_of_scopedLex hlex]
        split
        · exact ⟨_, rfl⟩
        · exact ⟨_, rfl⟩
      have hscope := inScope_of_mem_filterHitsByMeta hfiltered
      simp only [hfiltered]
      rw [rankScopedHits_append fun x hx => hall x (hscope x hx)]
      exact ⟨fun hok => ⟨(Except.ok.inj hok).symm, fun _ => ⟨_, rfl⟩⟩, fun h => h.1 ▸ rfl⟩
  · rw [if_neg fun hand => hfew (of_decide_eq_true (Bool.and_eq_true_iff.mp hand).1)]
    exact ⟨fun hok => ⟨(Except.ok.inj hok).symm, fun h => absurd h hfew⟩, fun h => h.1 ▸ rfl⟩

end Search

/-- A document in the scope `a`. -/
def inside : PutRequest :=
  ⟨none, none, "inside", some (.obj [("scope", .str "a")]), some (List.replicate Store.embedDim 5)⟩

/-- A document in the scope `b`. -/
def outside : PutRequest :=
  ⟨none, none, "outside", some (.obj [("scope", .str "b")]), some (List.replicate Store.embedDim 1)⟩

/-- A store with one document, which belongs to the scope, and the same with documents outside. -/
structure TwoStores [Blake3] [FloatText] (s s' : Store) (added : List Doc) : Prop where
  adds : Adds s s' added
  out : ∀ x ∈ added, inScope "scope" "a" x = false
  rows_eq : s.docs.rows = [Store.empty.newDoc 0 inside]

/-- Two stores, the second of which has a document of another scope more. -/
theorem exists_twoStores :
    let _ := Blake3.identity
    let _ := FloatText.zero
    ∃ s s' added, TwoStores s s' added ∧ added ≠ [] := by
  intro _ _
  have hfree : Store.empty.Free inside.uri := ⟨show (0 : ℤ) < maxRowid by decide, fun h => h.1 rfl⟩
  obtain ⟨s, hs⟩ : ∃ s, Store.empty.findOrInsert 0 inside = .ok (s, 1) :=
    Store.findOrInsert_of_free rfl hfree
  have hinside := Store.findOrInsert_new rfl hs
  have hrows : s.docs.rows = [Store.empty.newDoc 0 inside] := hinside.rows_eq
  have hnew : s.byText outside.text = none := by
    refine s.docs.byKey_eq_none.mpr fun d hd => ?_
    rw [hrows] at hd
    obtain rfl := List.mem_singleton.mp hd
    exact show "inside" ≠ "outside" by decide
  have hfree' : s.Free outside.uri := by
    refine ⟨?_, fun h => h.1 rfl⟩
    rw [hinside.seq_eq]
    decide
  obtain ⟨s', hs'⟩ : ∃ s', s.findOrInsert 0 outside = .ok (s', s.docs.seq + 1) :=
    Store.findOrInsert_of_free hnew hfree'
  have houtside := Store.findOrInsert_new hnew hs'
  refine ⟨s, s', _, ⟨Adds.inserted houtside, ?_, hrows⟩, List.cons_ne_nil _ _⟩
  intro d hd
  obtain rfl := List.mem_singleton.mp hd
  exact show decide (outside.meta_.bind (jsonExtract · "scope") = some "a".toList) = false by
    decide +kernel

/-- A daemon with nothing in its query cache. -/
def uncached [Blake3] (s : Store) : Daemon := ⟨s, fun _ _ _ _ => none⟩

theorem rankScopedHits_singleton [ScopedScores] (q : Text) (x : Hit) {limit : ℕ} (h : 0 < limit) :
    rankScopedHits q [x] limit = [x] := by
  rw [rankScopedHits, uniqueById, if_neg List.not_mem_nil, uniqueById, List.mergeSort_singleton]
  exact List.take_of_length_le h

theorem sanitizeMetaKey_scope : sanitizeMetaKey "scope".toList = .ok "scope" := by
  rfl

section Runs

variable [Blake3] [FloatText] {s s' : Store} {added : List Doc}

/-- Without a word the document of the scope is the only candidate. -/
theorem TwoStores.scopedLex_eq [D : DaemonHost] (h : TwoStores s s' added) {q : Text}
    (hq : fts5LooseMatchQuery q = none) (hconn : D.sqlConn = true) {k : ℕ} (hk : 0 < k) :
    scopedLex s q "scope" "a" k = .ok [fastHit (Store.empty.newDoc 0 inside) 0] := by
  have hscope : rowsInScope s "scope" "a" = [Store.empty.newDoc 0 inside] := by
    rw [rowsInScope, h.rows_eq]
    exact List.filter_eq_self.mpr fun d hd => by
      obtain rfl := List.mem_singleton.mp hd
      exact decide_eq_true rfl
  rw [scopedLex, hconn, hq]
  simp only [Bool.not_true, Bool.false_eq_true, if_false, hscope, List.mergeSort_singleton]
  rw [List.take_of_length_le hk]
  rfl

end Runs

/-- With vectors in memory the search of all documents goes through. -/
theorem search_vec_indexed [Blake3] [SearchEngine] (s : Store) (q : Text) (k : ℕ) (id : ℤ)
    (ids : List ℤ) :
    ∃ hits, ContextState.Daemon.search (D := DaemonHost.indexed false (id :: ids)) (uncached s)
      .vec q k true = .ok hits := by
  obtain ⟨n, hn⟩ : ∃ n, max (min (max k 1) maxSearchLimit) 1 = n + 1 :=
    Nat.exists_eq_add_of_le' (le_max_right _ _)
  refine ⟨hydratePairs (D := DaemonHost.indexed false (id :: ids)) s.docs.rows
    (((id :: ids).take (n + 1)).map (·, 0)), ?_⟩
  simp only [ContextState.Daemon.search, uncached, fastSearch, fastVec, hn]
  rfl

end ScopedSearch

end SynapseMemory
