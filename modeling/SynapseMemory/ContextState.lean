import SynapseMemory.AgentMemory
import SynapseMemory.ContextPack
import SynapseMemory.Search

/-!
# `context_state` of the MCP server

A document can name another one that it supersedes, in its `meta`. `context_state` asks the daemon
for the hits of a topic, keeps the facts and decisions among them, drops those that another hit
supersedes, and returns the newest.

It learns what is superseded from the hits alone. So a document is returned although a newer one
supersedes it when the search does not find the newer one, or finds it without its `meta`. The
second is the rule: the daemon first tries a **fast search**, which reads neither `meta` nor the
time of a row, and looks into the store only if that found nothing (`fastSearch_bare`).

The fast search has a connection of its own, whose authorizer lets it read and no more. That is not
enough for the full-text index, which asks for a `PRAGMA` before it is searched: a query with a word
is refused (`fastLex_refused`), and what the fast search finds it finds by vectors.

`superseded_never_current` says which states return nothing that is superseded.
-/

namespace SynapseMemory

open Proto

/-! ## The connection for reading -/

/-- What SQLite asks the authorizer of a connection for. -/
inductive AuthAction where
  | select
  | read (table column : Text)
  | function (name : Text)
  | recursive
  | transaction (operation : Text)
  | attach (filename : Text)
  | detach (database : Text)
  | pragma (name : Text)
  /-- Everything else: to create, change or drop something. -/
  | other (code : ℕ)

/-- The authorizer of `configure_sql_sandbox`. -/
def authorizes : AuthAction → Bool
  | .select | .read _ _ | .function _ | .recursive | .transaction _ => true
  | .attach filename =>
    "file:".toList.isPrefixOf filename && Text.containsStr filename "mode=ro".toList &&
      Text.containsStr filename "/.synapse/tenants/".toList
  | .detach database => database == "tenant".toList
  | _ => false

/-- The full-text index asks for the version of the data when it is searched. -/
def dataVersion : AuthAction := .pragma "data_version".toList

/-- A statement on the connection for reading, with all that it asks the authorizer for. -/
def sandboxed {α : Type} (actions : List AuthAction) (result : Except String α) : Except String α :=
  if actions.all authorizes then result else .error "authorization denied"

/-- A search of the full-text index is refused. -/
theorem sandboxed_of_dataVersion {α : Type} {actions : List AuthAction}
    (h : dataVersion ∈ actions) (result : Except String α) :
    sandboxed actions result = .error "authorization denied" := by
  refine if_neg fun hall => ?_
  have hpragma := List.all_eq_true.mp hall dataVersion h
  cases hpragma

/-- What a search of the daemon depends on besides its database. -/
class DaemonHost where
  /-- The connection, or why there is none. -/
  connect : Except String Unit
  /-- `SYNAPSE_DISABLE_FAST_SEARCH` is set. -/
  fastDisabled : Bool
  /-- There is a second connection to the database, for reading. -/
  sqlConn : Bool
  embedOne : Text → Except String (List F32)
  /-- What the full-text index asks the authorizer for when it is searched. -/
  ftsActions : List AuthAction
  /-- The rows that match an expression with their ranks, best first if the order is asked for. -/
  matching : List Store.FtsCommand → Text → Bool → Except String (List (ℤ × F64))
  /-- The vector index in memory: nothing if there is none. -/
  nearest : List F32 → ℕ → List (ℤ × F32)
  /-- `1.0 / (1.0 + dist)` -/
  similarity : F32 → F64

/-- A daemon that has these documents in its vector index, the nearest first. -/
@[reducible] def DaemonHost.indexed (fastDisabled : Bool) (ids : List ℤ) : DaemonHost where
  connect := .ok ()
  fastDisabled := fastDisabled
  sqlConn := true
  embedOne _ := .ok (List.replicate Store.embedDim 0)
  ftsActions := [.select, dataVersion]
  matching log query _ := SearchEngine.scan.lexical log query log.length
  nearest _ k := (ids.take k).map (·, 0)
  similarity _ := 0

namespace ContextState

/-! ## Fast search -/

/-- The most hits of a search. -/
def maxSearchLimit : ℕ := 1000

/-- How many characters of a text a hit has. -/
def searchSnippetChars : ℕ := 512

/-- A row as the fast search reads it. -/
def fastHit (d : Doc) (score : F64) : Hit where
  id := d.id
  uri := d.uri
  title := d.title
  text := String.ofList (d.text.toList.take searchSnippetChars)
  score := score
  meta_ := none
  ts := none

/-- There are two words with a letter or a digit. -/
def shouldRankLexWithBm25 (q : Text) : Bool :=
  1 < (Text.splitWhitespace q).countP fun token => token.any Char.isAlphanum

/-- `-x` -/
def negF64 (x : F64) : F64 := x ^^^ (1#64 <<< 63)

section Search

variable [D : DaemonHost]

/-- `hydrate_pairs_from_state`: a row is read once. -/
def hydratePairs : List Doc → List (ℤ × F32) → List Hit
  | _, [] => []
  | docs, (id, dist) :: rest =>
    match docs.find? (·.id = id) with
    | some d => fastHit d (D.similarity dist) :: hydratePairs (docs.filter (·.id ≠ id)) rest
    | none => hydratePairs docs rest

variable [Blake3]

/-- `fast_lex_from_state`: a query without words finds nothing, one with a word is looked up. -/
def fastLex (s : Store) (q : Text) (limit : ℕ) : Except String (Option (List Hit)) :=
  match Search.fts5MatchQuery q with
  | none => .ok (some [])
  | some query =>
    if !D.sqlConn then .ok none
    else do
      let ranked := shouldRankLexWithBm25 q
      let found ← sandboxed D.ftsActions (D.matching s.fts query ranked)
      let hits := found.filterMap fun (id, score) =>
        (s.docs.rows.find? (·.id = id)).map (fastHit · (if ranked then negF64 score else 0))
      .ok (some (hits.take limit))

/-- `fast_vec_from_state`: without a pair the index has no answer. -/
def fastVec (s : Store) (emb : List F32) (limit : ℕ) : Except String (Option (List Hit)) :=
  let pairs := D.nearest emb limit
  if pairs.isEmpty then .ok none
  else if !D.sqlConn then .error "sql_conn unavailable"
  else .ok (some (hydratePairs s.docs.rows pairs))

variable [SearchEngine]

/-- `fast_search_from_state`. Nothing means that the store has to be searched. -/
def fastSearch (s : Store) (mode : SearchMode) (q : Text) (emb : Option (List F32)) (limit : ℕ) :
    Except String (Option (List Hit)) :=
  if D.fastDisabled then .ok none
  else
    let limit := max limit 1
    let k := max (min (limit * 3) (2 ^ 64 - 1)) limit
    match mode, emb with
    | .lex, _ => fastLex s q limit
    | .vec, none => .ok none
    | .vec, some emb => fastVec s emb limit
    | .hybrid, none => .ok none
    | .hybrid, some emb => do
      let lex ← fastLex s q k
      let vec ← fastVec s emb k
      if (lex.getD []).isEmpty && (vec.getD []).isEmpty then .ok none
      else .ok (some (Search.rrfMerge (lex.getD []) (vec.getD []) limit))

end Search

/-- The daemon: its database, and what its query cache has for a search. -/
structure Daemon [Blake3] where
  store : Store
  cachedHits : SearchMode → Text → ℕ → Bool → Option (List Hit)

section Tool

variable [D : DaemonHost] [Blake3] [SearchEngine]

/-- `search` of the daemon. -/
def Daemon.search (d : Daemon) (mode : SearchMode) (q : Text) (limit : ℕ) (embedQuery : Bool) :
    Except String (List Hit) :=
  let limit := min (max limit 1) maxSearchLimit
  match d.cachedHits mode q limit embedQuery with
  | some hits => .ok hits
  | none => do
    let emb ← if embedQuery then (D.embedOne q).map some else .ok none
    let fast ← fastSearch d.store mode q emb limit
    match fast with
    | some hits => .ok hits
    | none => d.store.search q mode emb limit

/-- `hybrid_hits`: an error of the search counts as no hits. -/
def hybridHits (d : Daemon) (query : Text) (limit : ℕ) : Except String (List Hit) := do
  D.connect
  .ok ((d.search .hybrid query limit true).toOption.getD [])

end Tool

/-! ## The state of a topic -/

/-- The document that a `meta` names as superseded. -/
def supersedes (meta_ : Option Json) : Option ℤ :=
  ((meta_.getD .null).get "supersedes").bind Json.asI64

/-- What is returned of a fact or a decision. -/
structure StateItem where
  id : ℤ
  kind : Text
  title : Text
  head : Text
  ts : Option ℤ
  open_ : Bool
  deriving DecidableEq

/-- Something in the text is not settled. -/
def isOpen (text : Text) : Bool :=
  (Text.lines text).any fun l =>
    let u := Text.toAsciiUppercase l
    ["TODO", "OPEN", "UNVERIFIED"].any fun word => Text.containsStr u word.toList

/-- A hit as an item, if it is a fact or a decision. -/
def stateItem (h : Hit) : Option StateItem :=
  let title := (h.title.getD "").toList
  let kind := ContextPack.hitKind title (h.meta_.getD .null)
  if kind = .knownFact ∨ kind = .decision then
    some { id := h.id
           kind := Pack.kindTag kind
           title := title
           head := Pack.firstNonblank h.text.toList
           ts := h.ts
           open_ := isOpen h.text.toList }
  else none

/-- The facts and decisions among the hits. -/
def stateItems (hits : List Hit) : List StateItem := hits.filterMap stateItem

/-- The ids that the hits supersede. -/
def superseded (hits : List Hit) : List ℤ := hits.filterMap fun h => supersedes h.meta_

/-- The order of the items: the newest first. An item without a time counts as the oldest. -/
def newestFirst (a b : StateItem) : Bool := b.ts.getD 0 ≤ a.ts.getD 0

/-- The newest items that no hit supersedes. -/
def currentItems (hits : List Hit) (k : ℕ) : List StateItem :=
  (((stateItems hits).mergeSort newestFirst).filter fun it => it.id ∉ superseded hits).take k

/-- The line of an item in the card. -/
def itemLine (it : StateItem) : Text :=
  "- [".toList ++ (toString it.id).toList ++ "|".toList ++ it.kind ++ "]".toList ++
    (if it.open_ then " ⚠open".toList else []) ++ " ".toList ++ it.title ++ " :: ".toList ++
    it.head ++ "\n".toList

/-- The card of a topic. -/
def stateCard (topic : Text) (current : List StateItem) : Text :=
  "CURRENT STATE — ".toList ++ topic ++ " [".toList ++ (toString current.length).toList ++
    " verified]\n".toList ++ current.flatMap itemLine

/-- What `context_state` returns. -/
structure StateResponse where
  topic : String
  state : Text
  items : List StateItem

/-- The topic of the arguments. -/
def topicArg (args : Json) : Option String := (args.get "topic").bind Json.asStr

/-- The number of items that are asked for. -/
def kArg (args : Json) : ℕ := Agent.numberArg args "k" 12

/-- The `meta` that `context_remember` writes. -/
def rememberMeta (args : Json) : Json :=
  .obj ([("schema", .str "synapse.ctxos.v1"),
      ("kind", .str (((args.get "kind").bind Json.asStr).getD "known-fact"))] ++
    (((args.get "topic").bind Json.asStr).map fun topic => ("topic", Json.str topic)).toList ++
    (((args.get "supersedes").bind Json.asI64).map fun id => ("supersedes", Json.int id)).toList)

/-- `context_remember`: the request it sends. -/
def contextRemember (args : Json) : Except Agent.PutError Agent.PutMessage := do
  let text ← (Agent.required "text" ((args.get "text").bind Json.asStr)).mapError .tool
  .ok { title := some ((((args.get "title").bind Json.asStr).map Json.str).getD .null)
        uri := some .null
        text := text
        meta_ := some (rememberMeta args)
        embed := true }

/-- The store after `context_remember`: a call that fails leaves it as it was. -/
def remembered [FloatText] [Embedder] [Blake3] (s : Store) (now : ℤ) (args : Json) : Store :=
  let result : Except Agent.PutError (Store × ℤ) := do
    let m ← contextRemember args
    let p ← Agent.decodePut m
    Agent.putOne s now p
  match result with
  | .ok (s', _) => s'
  | .error _ => s

section State

variable [D : DaemonHost] [Blake3] [SearchEngine]

/-- `context_state`: twice as many hits as items are asked for. -/
def contextState (d : Daemon) (args : Json) : Except String StateResponse := do
  let topic ← Agent.required "topic" (topicArg args)
  let k := kArg args
  let hits ← hybridHits d topic.toList (k * 2 % 2 ^ 64)
  let current := currentItems hits k
  .ok ⟨topic, stateCard topic.toList current, current⟩

end State

/-! ## What the fast search leaves out -/

/-- A hit without the `meta` and the time of its row. -/
def Bare (h : Hit) : Prop := h.meta_ = none ∧ h.ts = none

/-- Rows as the fast search reads them. -/
def FastHits (docs : List Doc) (hits : List Hit) : Prop :=
  ∀ h ∈ hits, ∃ x ∈ docs, ∃ score, h = fastHit x score

theorem FastHits.bare {docs : List Doc} {hits : List Hit} (h : FastHits docs hits) :
    ∀ x ∈ hits, Bare x := by
  intro x hx
  obtain ⟨d, -, score, rfl⟩ := h x hx
  exact ⟨rfl, rfl⟩

theorem FastHits.nil {docs : List Doc} : FastHits docs [] := nofun

/-- What holds of the hits of a search that answered holds of its hits, if it counts as empty when
it did not. -/
theorem fastHits_getD {docs : List Doc} {hits : Option (List Hit)}
    (h : ∀ xs, hits = some xs → FastHits docs xs) : FastHits docs (hits.getD []) := by
  cases hits with
  | none => exact FastHits.nil
  | some xs => exact h xs rfl

/-- A merge has the hits of the two lists, with other scores. -/
theorem FastHits.rrfMerge [SearchEngine] {docs : List Doc} {lex vec : List Hit}
    (hlex : FastHits docs lex) (hvec : FastHits docs vec) (limit : ℕ) :
    FastHits docs (Search.rrfMerge lex vec limit) := by
  intro h hh
  obtain ⟨h', hfrom, score, rfl⟩ := Search.mem_rrfMerge hh
  obtain ⟨x, hx, score', rfl⟩ := hfrom.elim (hlex h') (hvec h')
  exact ⟨x, hx, score, rfl⟩

section Fast

variable [D : DaemonHost]

/-- The hits of vectors come from the documents, and from the pairs. -/
theorem hydratePairs_fastHits (docs : List Doc) (pairs : List (ℤ × F32)) :
    FastHits docs (hydratePairs docs pairs) ∧
      ∀ h ∈ hydratePairs docs pairs, h.id ∈ pairs.map Prod.fst := by
  induction pairs generalizing docs with
  | nil => exact ⟨nofun, nofun⟩
  | cons pair rest ih =>
    rw [hydratePairs]
    split
    next d hd =>
      obtain ⟨hrows, hids⟩ := ih (docs.filter (·.id ≠ pair.1))
      have hid : d.id = pair.1 := by simpa using List.find?_some hd
      refine ⟨List.forall_mem_cons.mpr ⟨⟨d, List.mem_of_find?_eq_some hd, _, rfl⟩, ?_⟩,
        List.forall_mem_cons.mpr ⟨?_, fun h hh => List.mem_cons_of_mem _ (hids h hh)⟩⟩
      · intro h hh
        obtain ⟨x, hx, hscore⟩ := hrows h hh
        exact ⟨x, List.mem_of_mem_filter hx, hscore⟩
      · rw [List.map_cons, ← hid]
        exact List.mem_cons_self
    next =>
      obtain ⟨hrows, hids⟩ := ih docs
      exact ⟨hrows, fun h hh => List.mem_cons_of_mem _ (hids h hh)⟩

/-- A stored document is among the hits if its id is among the pairs. -/
theorem exists_mem_hydratePairs {docs : List Doc} {pairs : List (ℤ × F32)} {x : Doc}
    (hx : x ∈ docs) (hpair : x.id ∈ pairs.map Prod.fst) :
    ∃ h ∈ hydratePairs docs pairs, h.id = x.id := by
  induction pairs generalizing docs with
  | nil => cases hpair
  | cons pair rest ih =>
    rw [hydratePairs]
    rw [List.map_cons, List.mem_cons] at hpair
    split
    next d hd =>
      have hid : d.id = pair.1 := by simpa using List.find?_some hd
      by_cases hsame : x.id = pair.1
      · exact ⟨_, List.mem_cons_self, hid.trans hsame.symm⟩
      · have hleft : x ∈ docs.filter (·.id ≠ pair.1) :=
          List.mem_filter.mpr ⟨hx, decide_eq_true hsame⟩
        obtain ⟨h, hh, heq⟩ := ih hleft (hpair.resolve_left hsame)
        exact ⟨h, List.mem_cons_of_mem _ hh, heq⟩
    next hnone =>
      refine ih hx (hpair.resolve_left fun hsame => ?_)
      exact List.find?_eq_none.mp hnone x hx (decide_eq_true hsame)

theorem length_hydratePairs_le (docs : List Doc) (pairs : List (ℤ × F32)) :
    (hydratePairs docs pairs).length ≤ pairs.length := by
  induction pairs generalizing docs with
  | nil => exact le_refl _
  | cons pair rest ih =>
    rw [hydratePairs]
    split
    next => exact Nat.succ_le_succ (ih _)
    next => exact (ih docs).trans (Nat.le_succ _)

variable [Blake3]

/-- **A word is refused**: the full-text index is not searched on the connection for reading. -/
theorem fastLex_refused {s : Store} {q : Text} {limit : ℕ} (hfts : dataVersion ∈ D.ftsActions)
    (hconn : D.sqlConn = true) (hword : (Search.fts5MatchQuery q).isSome = true) :
    fastLex s q limit = .error "authorization denied" := by
  obtain ⟨query, hquery⟩ := Option.isSome_iff_exists.mp hword
  rw [fastLex, hquery, hconn]
  simp only [sandboxed_of_dataVersion hfts]
  rfl

/-- The lexical search gives such hits. -/
theorem fastLex_fastHits {s : Store} {q : Text} {limit : ℕ} {hits : List Hit}
    (h : fastLex s q limit = .ok (some hits)) : FastHits s.docs.rows hits := by
  rw [fastLex] at h
  split at h
  next =>
    cases h
    exact FastHits.nil
  next query hquery =>
    split at h
    next => cases h
    next =>
      obtain ⟨found, -, h⟩ := bind_eq_ok.mp h
      cases h
      intro x hx
      obtain ⟨⟨id, score⟩, -, hrow⟩ := List.mem_filterMap.mp (List.mem_of_mem_take hx)
      obtain ⟨d, hd, rfl⟩ := Option.map_eq_some_iff.mp hrow
      exact ⟨d, List.mem_of_find?_eq_some hd, _, rfl⟩

theorem fastVec_fastHits {s : Store} {emb : List F32} {limit : ℕ} {hits : List Hit}
    (h : fastVec s emb limit = .ok (some hits)) : FastHits s.docs.rows hits := by
  unfold fastVec at h
  simp only at h
  split at h
  next => cases h
  next =>
    split at h
    next => cases h
    next =>
      cases h
      exact (hydratePairs_fastHits _ _).1

variable [SearchEngine]

/-- **The fast search drops `meta`.** None of its hits says what it supersedes, or how old it is. -/
theorem fastSearch_fastHits {s : Store} {mode : SearchMode} {q : Text} {emb : Option (List F32)}
    {limit : ℕ} {hits : List Hit} (h : fastSearch s mode q emb limit = .ok (some hits)) :
    FastHits s.docs.rows hits := by
  rw [fastSearch] at h
  split at h
  next => cases h
  next =>
    split at h
    next => exact fastLex_fastHits h
    next => cases h
    next => exact fastVec_fastHits h
    next => cases h
    next =>
      obtain ⟨lex, hlex, h⟩ := bind_eq_ok.mp h
      obtain ⟨vec, hvec, h⟩ := bind_eq_ok.mp h
      split at h
      next => cases h
      next =>
        cases h
        exact (fastHits_getD fun xs hxs => fastLex_fastHits (hxs ▸ hlex)).rrfMerge
          (fastHits_getD fun xs hxs => fastVec_fastHits (hxs ▸ hvec)) _

end Fast

/-! ## Items -/

/-- A document with this title and `meta` is a fact or a decision. -/
def isKnowledge (title : Option String) (meta_ : Option Json) : Bool :=
  let kind := ContextPack.hitKind (title.getD "").toList (meta_.getD .null)
  kind = .knownFact ∨ kind = .decision

theorem mem_stateItems {hits : List Hit} {it : StateItem} (hit : it ∈ stateItems hits) :
    ∃ h ∈ hits, h.id = it.id ∧ isKnowledge h.title h.meta_ = true := by
  obtain ⟨h, hh, heq⟩ := List.mem_filterMap.mp hit
  unfold stateItem at heq
  simp only at heq
  split at heq
  next hkind =>
    cases heq
    exact ⟨h, hh, rfl, decide_eq_true hkind⟩
  next => cases heq

theorem exists_mem_stateItems {hits : List Hit} {h : Hit} (hh : h ∈ hits)
    (hkind : isKnowledge h.title h.meta_ = true) : ∃ it ∈ stateItems hits, it.id = h.id :=
  ⟨_, List.mem_filterMap.mpr ⟨h, hh, if_pos (of_decide_eq_true hkind)⟩, rfl⟩

/-- An item that is returned comes from a hit, and no hit supersedes it. -/
theorem mem_currentItems {hits : List Hit} {k : ℕ} {it : StateItem}
    (h : it ∈ currentItems hits k) : it ∈ stateItems hits ∧ it.id ∉ superseded hits := by
  obtain ⟨hmem, hkept⟩ := List.mem_filter.mp (List.mem_of_mem_take h)
  exact ⟨List.mem_mergeSort.mp hmem, of_decide_eq_true hkept⟩

/-- Bare hits supersede nothing, and stay in the order in which they were found. -/
theorem currentItems_of_bare {hits : List Hit} (h : ∀ x ∈ hits, Bare x) (k : ℕ) :
    currentItems hits k = (stateItems hits).take k := by
  have hnone : superseded hits = [] := by
    apply List.filterMap_eq_nil_iff.mpr
    intro x hx
    rw [(h x hx).1]
    rfl
  have hts : ∀ it ∈ stateItems hits, it.ts = none := by
    intro it hit
    obtain ⟨x, hx, heq⟩ := List.mem_filterMap.mp hit
    unfold stateItem at heq
    simp only at heq
    split at heq
    next =>
      cases heq
      exact (h x hx).2
    next => cases heq
  have hsorted : (stateItems hits).mergeSort newestFirst = stateItems hits := by
    apply List.mergeSort_of_pairwise
    apply List.Pairwise.imp_of_mem _ (List.pairwise_of_forall (R := fun _ _ => True) (by simp))
    intro a b ha hb _
    simp [newestFirst, hts a ha, hts b hb]
  rw [currentItems, hnone, hsorted]
  simp

/-! ## Superseded documents -/

/-- How many hits the daemon gives for a topic. -/
def searchLimit (args : Json) : ℕ := min (max (kArg args * 2 % 2 ^ 64) 1) maxSearchLimit

theorem one_le_searchLimit (args : Json) : 1 ≤ searchLimit args :=
  le_min (le_max_right _ _) (by decide)

theorem searchLimit_le (args : Json) : searchLimit args ≤ maxSearchLimit := min_le_right _ _

section Superseded

variable [Blake3]

/-- Some stored document supersedes the one with an id. -/
def Superseded (s : Store) (id : ℤ) : Prop := ∃ d ∈ s.docs.rows, supersedes d.meta_ = some id

/-- No fact or decision is superseded by a stored document: none that is stored, be it read with its
`meta` or without, and none among the hits that are cached for the topic. -/
structure Settled (d : Daemon) (topic : Text) (limit : ℕ) : Prop where
  stored : ∀ x ∈ d.store.docs.rows, Superseded d.store x.id →
    isKnowledge x.title none = false ∧ isKnowledge x.title x.meta_ = false
  cached : ∀ hits ∈ d.cachedHits .hybrid topic limit true, ∀ h ∈ hits, Superseded d.store h.id →
    isKnowledge h.title h.meta_ = false

variable [D : DaemonHost]

/-- Nothing is cached for the topic, and the fast search is refused because of a word in it. -/
structure Refused (d : Daemon) (topic : Text) (limit : ℕ) : Prop where
  uncached : d.cachedHits .hybrid topic limit true = none
  enabled : D.fastDisabled = false
  conn : D.sqlConn = true
  word : (Search.fts5MatchQuery topic).isSome = true

/-- Nothing is cached for the topic, the fast search has no answer, and the store has no more
documents than it is asked for, each of them with its vector. -/
structure FoundAll (d : Daemon) (topic : Text) (limit : ℕ) : Prop where
  uncached : d.cachedHits .hybrid topic limit true = none
  embedded : ∃ emb, D.embedOne topic = .ok emb ∧ emb.length = Store.embedDim
  noAnswer : D.fastDisabled = true ∨
    ((Search.fts5MatchQuery topic).isNone = true ∧ ∀ emb k, D.nearest emb k = [])
  vectors : ∀ x ∈ d.store.docs.rows, x.id ∈ d.store.vecs.map Prod.fst
  docs_le : d.store.docs.rows.length ≤ limit
  vecs_le : d.store.vecs.length ≤ limit

/-- Nothing is cached for the topic, there is no word in it, and the vector index finds stored
documents. -/
structure FoundByVectors (d : Daemon) (topic : Text) (limit : ℕ) (pairs : List (ℤ × F32)) :
    Prop where
  connected : D.connect = .ok ()
  uncached : d.cachedHits .hybrid topic limit true = none
  enabled : D.fastDisabled = false
  conn : D.sqlConn = true
  noWord : (Search.fts5MatchQuery topic).isNone = true
  found : ∃ emb, D.embedOne topic = .ok emb ∧ D.nearest emb (limit * 3) = pairs
  ne_nil : pairs ≠ []
  stored : ∀ id ∈ pairs.map Prod.fst, ∃ x ∈ d.store.docs.rows, x.id = id

variable [E : SearchEngine]

/-- Every item of the answer is current. -/
def AllCurrent (d : Daemon) (args : Json) : Prop :=
  ∀ r, contextState d args = .ok r → ∀ it ∈ r.items, ¬Superseded d.store it.id

theorem contextState_ok {d : Daemon} {args : Json} {topic : String}
    (htopic : topicArg args = some topic) {r : StateResponse} (h : contextState d args = .ok r) :
    r.items = currentItems
      ((d.search .hybrid topic.toList (kArg args * 2 % 2 ^ 64) true).toOption.getD [])
      (kArg args) := by
  obtain ⟨topic', htopic', h⟩ := bind_eq_ok.mp h
  obtain ⟨hits, hhits, h⟩ := bind_eq_ok.mp h
  rw [htopic] at htopic'
  cases htopic'
  obtain ⟨_, -, hhits⟩ := bind_eq_ok.mp hhits
  cases hhits
  cases h
  rfl

/-- What a search returns that was not cached: rows, with their `meta` or without. -/
theorem search_rows {d : Daemon} {topic : Text} {k : ℕ} {hits : List Hit}
    (huncached : d.cachedHits .hybrid topic (min (max k 1) maxSearchLimit) true = none)
    (h : d.search .hybrid topic k true = .ok hits) :
    ∀ x ∈ hits, ∃ row ∈ d.store.docs.rows, row.id = x.id ∧ row.title = x.title ∧
      (x.meta_ = none ∨ x.meta_ = row.meta_) := by
  rw [Daemon.search] at h
  simp only [huncached] at h
  obtain ⟨emb, -, h⟩ := bind_eq_ok.mp h
  obtain ⟨fast, hfast, h⟩ := bind_eq_ok.mp h
  intro x hx
  cases fast with
  | some fast =>
    obtain rfl := Except.ok.inj h
    obtain ⟨row, hrow, score, rfl⟩ := fastSearch_fastHits hfast x hx
    exact ⟨row, hrow, rfl, rfl, .inl rfl⟩
  | none =>
    obtain ⟨-, row, hrow, score, rfl⟩ := Store.mem_search h hx
    exact ⟨row, hrow, rfl, rfl, .inr rfl⟩

/-- Where no fact or decision is superseded, none is returned. -/
theorem Settled.allCurrent {d : Daemon} {args : Json} {topic : String}
    (htopic : topicArg args = some topic) (h : Settled d topic.toList (searchLimit args)) :
    AllCurrent d args := by
  intro r hr it hit hsup
  rw [contextState_ok htopic hr] at hit
  obtain ⟨x, hx, hid, hkind⟩ := mem_stateItems (mem_currentItems hit).1
  obtain ⟨hits, hsearch, hx⟩ := Search.mem_toOption_getD hx
  rw [← hid] at hsup
  cases hcached : d.cachedHits .hybrid topic.toList (searchLimit args) true with
  | some cached =>
    rw [Daemon.search] at hsearch
    simp only [← searchLimit.eq_def, hcached] at hsearch
    obtain rfl := Except.ok.inj hsearch
    rw [h.cached cached hcached x hx hsup] at hkind
    cases hkind
  | none =>
    obtain ⟨row, hrow, hrowid, htitle, hmeta⟩ := search_rows hcached hsearch x hx
    rw [← hrowid] at hsup
    obtain ⟨hbare, hfull⟩ := h.stored row hrow hsup
    rcases hmeta with hmeta | hmeta
    · rw [← htitle, hmeta, hbare] at hkind
      cases hkind
    · rw [← htitle, hmeta, hfull] at hkind
      cases hkind

/-- A search that is refused returns nothing. -/
theorem Refused.allCurrent {d : Daemon} {args : Json} {topic : String}
    (hfts : dataVersion ∈ D.ftsActions) (htopic : topicArg args = some topic)
    (h : Refused d topic.toList (searchLimit args)) : AllCurrent d args := by
  intro r hr it hit
  rw [contextState_ok htopic hr] at hit
  obtain ⟨x, hx, -⟩ := mem_stateItems (mem_currentItems hit).1
  obtain ⟨hits, hsearch, -⟩ := Search.mem_toOption_getD hx
  rw [Daemon.search] at hsearch
  simp only [← searchLimit.eq_def, h.uncached, if_true] at hsearch
  obtain ⟨emb, hemb, hsearch⟩ := bind_eq_ok.mp hsearch
  obtain ⟨fast, hfast, -⟩ := bind_eq_ok.mp hsearch
  obtain ⟨emb, -, rfl⟩ := map_eq_ok.mp hemb
  rw [fastSearch, h.enabled] at hfast
  obtain ⟨lex, hlex, -⟩ := bind_eq_ok.mp hfast
  rw [fastLex_refused hfts h.conn h.word] at hlex
  cases hlex

/-- What the vector half of a hybrid search has, where there is no word to look for. -/
theorem fastSearch_of_noWord {s : Store} {q : Text} {emb : List F32} {limit : ℕ}
    (hfast : D.fastDisabled = false) (hconn : D.sqlConn = true)
    (hword : (Search.fts5MatchQuery q).isNone = true)
    (hlimit : 1 ≤ limit ∧ limit ≤ maxSearchLimit) :
    fastSearch s .hybrid q (some emb) limit =
      let vec := hydratePairs s.docs.rows (D.nearest emb (limit * 3))
      if vec.isEmpty then .ok none else .ok (some (Search.rrfMerge [] vec limit)) := by
  have hmax : max limit 1 = limit := by omega
  have hk : max (min (limit * 3) (2 ^ 64 - 1)) limit = limit * 3 := by
    rw [maxSearchLimit] at hlimit
    omega
  have hlex : fastLex s q (limit * 3) = .ok (some []) := by
    rw [fastLex, Option.isNone_iff_eq_none.mp hword]
  rw [fastSearch, hfast]
  simp only [hmax, hk, hlex, fastVec, hconn, bind, Except.bind, Bool.false_eq_true, if_false]
  cases hpairs : D.nearest emb (limit * 3) with
  | nil => rfl
  | cons pair rest => simp

/-- The search of the store is the answer where the fast search has none. -/
theorem FoundAll.search_eq {d : Daemon} {args : Json} {topic : Text}
    (h : FoundAll d topic (searchLimit args)) :
    ∃ emb, emb.length = Store.embedDim ∧
      d.search .hybrid topic (kArg args * 2 % 2 ^ 64) true =
        .ok (d.store.searchHybrid topic emb (searchLimit args)) := by
  obtain ⟨emb, hemb, hlen⟩ := h.embedded
  have hfast : fastSearch d.store .hybrid topic (some emb) (searchLimit args) = .ok none := by
    rcases h.noAnswer with hdisabled | ⟨hword, hempty⟩
    · rw [fastSearch, hdisabled]
      rfl
    · have hmax : max (searchLimit args) 1 = searchLimit args :=
        max_eq_left (one_le_searchLimit args)
      rw [fastSearch]
      simp only [hmax, fastLex, Option.isNone_iff_eq_none.mp hword, fastVec, hempty]
      split <;> rfl
  refine ⟨emb, hlen, ?_⟩
  rw [Daemon.search]
  simp only [← searchLimit.eq_def, h.uncached, if_true, hemb, Except.map, bind, Except.bind, hfast]
  rfl

omit D in
/-- A document whose vector is found is among the hits. -/
theorem exists_mem_searchVec {s : Store} {emb : List F32} {k : ℕ} {found : List (ℤ × F64)}
    (hlen : emb.length = Store.embedDim) (hfound : E.nearest s.vecs emb k = .ok found) {x : Doc}
    (hx : x ∈ s.docs.rows) (hid : x.id ∈ found.map Prod.fst) :
    ∃ y ∈ (s.searchVec emb k).toOption.getD [], y.id = x.id := by
  have hok : s.searchVec emb k = .ok (Search.hydrate s.docs.rows found) := by
    rw [Store.searchVec, if_neg (not_not.mpr hlen), hfound]
    rfl
  obtain ⟨⟨id, score⟩, hpair, rfl⟩ := List.mem_map.mp hid
  have hrow : s.docs.rows.find? (·.id = x.id) = some x := by
    refine (Table.find?_eq_some_of_unique fun a ha b hb haid hbid => ?_).mpr
      ⟨hx, decide_eq_true rfl⟩
    exact s.docs.eq_of_id ha hb ((of_decide_eq_true haid).trans (of_decide_eq_true hbid).symm)
  rw [hok]
  exact ⟨Search.hitOf x score,
    List.mem_filterMap.mpr ⟨_, hpair, by simp only [hrow, Option.map_some]⟩, rfl⟩

omit D in
/-- A hit by vectors is a hit of the hybrid search, if there is room for all documents. -/
theorem exists_mem_searchHybrid {s : Store} {q : Text} {emb : List F32} {limit : ℕ}
    (hroom : s.docs.rows.length ≤ limit) {y : Hit}
    (hy : y ∈ (s.searchVec emb (limit * 3 % 2 ^ 64)).toOption.getD []) :
    ∃ x ∈ s.searchHybrid q emb limit, x.id = y.id := by
  refine Search.exists_mem_rrfMerge _ _ (s.docs.rows.map Doc.id) ?_ ?_ (List.mem_append_right _ hy)
  · intro z hz
    rcases List.mem_append.mp hz with hz | hz
    · obtain ⟨zs, hzs, hz⟩ := Search.mem_toOption_getD hz
      obtain ⟨-, row, hrow, score, rfl⟩ := Store.mem_searchLex hzs hz
      exact List.mem_map_of_mem hrow
    · obtain ⟨zs, hzs, hz⟩ := Search.mem_toOption_getD hz
      obtain ⟨-, row, hrow, score, rfl⟩ := Store.mem_searchVec hzs hz
      exact List.mem_map_of_mem hrow
  · rw [List.length_map]
    exact hroom

/-- Where the store finds every document, each document that is superseded is left out. -/
theorem FoundAll.allCurrent {d : Daemon} {args : Json} {topic : String}
    (hnearest : ∀ emb k, emb.length = Store.embedDim → d.store.vecs.length ≤ k →
      ∃ found, E.nearest d.store.vecs emb k = .ok found ∧
        d.store.vecs.map Prod.fst ⊆ found.map Prod.fst)
    (htopic : topicArg args = some topic)
    (h : FoundAll d topic.toList (searchLimit args)) : AllCurrent d args := by
  obtain ⟨emb, hlen, hsearch⟩ := h.search_eq
  have hk : searchLimit args * 3 % 2 ^ 64 = searchLimit args * 3 := by
    have := searchLimit_le args
    rw [maxSearchLimit] at this
    omega
  obtain ⟨found, hfound, hall⟩ := hnearest emb (searchLimit args * 3 % 2 ^ 64) hlen <| by
    rw [hk]
    exact h.vecs_le.trans (Nat.le_mul_of_pos_right _ (by decide))
  intro r hr it hit hsup
  rw [contextState_ok htopic hr, hsearch] at hit
  obtain ⟨newer, hnewer, hsupersedes⟩ := hsup
  -- the newer document is a hit too, with what it supersedes
  obtain ⟨y, hy, hyid⟩ := exists_mem_searchVec hlen hfound hnewer (hall (h.vectors newer hnewer))
  obtain ⟨x, hx, hxid⟩ := exists_mem_searchHybrid (q := topic.toList) h.docs_le hy
  have hstore : d.store.search topic.toList .hybrid (some emb) (searchLimit args) =
      .ok (d.store.searchHybrid topic.toList emb (searchLimit args)) := rfl
  obtain ⟨-, row, hrow, score, rfl⟩ := Store.mem_search hstore hx
  obtain rfl := d.store.docs.eq_of_id hrow hnewer (hxid.trans hyid)
  exact (mem_currentItems hit).2 (List.mem_filterMap.mpr ⟨_, hx, hsupersedes⟩)

/-- The hits that the vectors give, none with its `meta`. -/
theorem FoundByVectors.search_eq {d : Daemon} {args : Json} {topic : Text}
    {pairs : List (ℤ × F32)} (h : FoundByVectors d topic (searchLimit args) pairs) :
    ∃ hits, hits = Search.rrfMerge [] (hydratePairs d.store.docs.rows pairs) (searchLimit args) ∧
      d.search .hybrid topic (kArg args * 2 % 2 ^ 64) true = .ok hits ∧
      FastHits d.store.docs.rows hits := by
  obtain ⟨emb, hemb, hpairs⟩ := h.found
  have hvec : (hydratePairs d.store.docs.rows pairs).isEmpty = false := by
    obtain ⟨pair, rest, hcons⟩ := List.exists_cons_of_ne_nil h.ne_nil
    have hin : pair.1 ∈ pairs.map Prod.fst := by
      rw [hcons]
      exact List.mem_cons_self
    obtain ⟨x, hx, hxid⟩ := h.stored pair.1 hin
    obtain ⟨y, hy, -⟩ := exists_mem_hydratePairs hx (hxid ▸ hin)
    exact List.isEmpty_eq_false_iff.mpr (List.ne_nil_of_mem hy)
  have hfast : fastSearch d.store .hybrid topic (some emb) (searchLimit args) = .ok (some
      (Search.rrfMerge [] (hydratePairs d.store.docs.rows pairs) (searchLimit args))) := by
    rw [fastSearch_of_noWord h.enabled h.conn h.noWord
      ⟨one_le_searchLimit args, searchLimit_le args⟩, hpairs]
    exact if_neg (ne_true_of_eq_false hvec)
  refine ⟨_, rfl, ?_, fastSearch_fastHits hfast⟩
  rw [Daemon.search]
  simp only [← searchLimit.eq_def, h.uncached, if_true, hemb, Except.map, bind, Except.bind, hfast]

/-- **What the vectors find is returned**, whatever supersedes it. -/
theorem FoundByVectors.allCurrent_iff {d : Daemon} {args : Json} {topic : String}
    {pairs : List (ℤ × F32)} (htopic : topicArg args = some topic)
    (h : FoundByVectors d topic.toList (searchLimit args) pairs)
    (hfew : pairs.length ≤ kArg args ∧ pairs.length ≤ searchLimit args) :
    AllCurrent d args ↔ ∀ x ∈ d.store.docs.rows, x.id ∈ pairs.map Prod.fst →
      Superseded d.store x.id → isKnowledge x.title none = false := by
  obtain ⟨hits, hmerge, hsearch, hfast⟩ := h.search_eq
  have hids := (hydratePairs_fastHits d.store.docs.rows pairs).2
  have hitems : ∀ r, contextState d args = .ok r →
      r.items = (stateItems hits).take (kArg args) := by
    intro r hr
    rw [contextState_ok htopic hr, hsearch]
    exact currentItems_of_bare hfast.bare _
  constructor
  · intro hall x hx hpair hsup
    by_contra hkind
    obtain ⟨y, hy, hyid⟩ := exists_mem_hydratePairs hx hpair
    obtain ⟨z, hz, hzid⟩ : ∃ z ∈ hits, z.id = y.id := by
      rw [hmerge]
      exact Search.exists_mem_rrfMerge [] _ (pairs.map Prod.fst) hids
        ((List.length_map _).le.trans hfew.2) hy
    obtain ⟨row, hrow, score, rfl⟩ := hfast z hz
    obtain rfl := d.store.docs.eq_of_id hrow hx (hzid.trans hyid)
    obtain ⟨it, hit, hitid⟩ := exists_mem_stateItems hz (eq_true_of_ne_false hkind)
    obtain ⟨r, hr⟩ : ∃ r, contextState d args = .ok r := by
      refine ⟨_, bind_eq_ok.mpr ⟨topic, ?_, bind_eq_ok.mpr ⟨hits, ?_, rfl⟩⟩⟩
      · rw [htopic]
        rfl
      · rw [hybridHits, h.connected, hsearch]
        rfl
    have hshort : (stateItems hits).length ≤ kArg args := by
      refine (List.length_filterMap_le _ _).trans (le_trans ?_ hfew.1)
      rw [hmerge]
      refine (Search.length_rrfMerge_le [] _ _).trans ?_
      rw [List.length_nil, Nat.zero_add]
      exact length_hydratePairs_le _ _
    refine hall r hr it ?_ (hitid ▸ hsup)
    rw [hitems r hr, List.take_of_length_le hshort]
    exact hit
  · intro hcond r hr it hit hsup
    rw [hitems r hr] at hit
    obtain ⟨z, hz, hzid, hkind⟩ := mem_stateItems (List.mem_of_mem_take hit)
    obtain ⟨row, hrow, score, rfl⟩ := hfast z hz
    obtain ⟨y, hy, score', hzy⟩ := Search.mem_rrfMerge (hmerge ▸ hz)
    have hpair : row.id ∈ pairs.map Prod.fst := by
      have hid : row.id = y.id := congrArg Hit.id hzy
      exact hid ▸ hids y (hy.resolve_left List.not_mem_nil)
    rw [← hzid] at hsup
    have hnot := hcond row hrow hpair hsup
    rw [show isKnowledge row.title none = true from hkind] at hnot
    cases hnot

end Superseded

/-- A decision is remembered, and then one that supersedes it. -/
def revisedDecision [FloatText] [Embedder] [Blake3] : Store :=
  let s := remembered Store.empty 0
    (.obj [("title", .str "decision"), ("text", .str "keep logs in files")])
  remembered s 1 (.obj [("title", .str "decision"), ("text", .str "keep logs in tables"),
    ("supersedes", .int 1)])

/-- The state of a topic without a word for the full-text index. -/
def logTopic : Json := .obj [("topic", .str "ログ")]

/-- The words of the texts, and all vectors in the order they came in. -/
@[reducible] def vectorScan : SearchEngine :=
  { SearchEngine.scan with nearest := fun vecs _ k => .ok ((vecs.take k).map fun v => (v.1, 0)) }

end ContextState

end SynapseMemory
