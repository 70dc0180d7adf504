import SynapseMemory.Pack
import SynapseMemory.Proto

/-!
# The agent tools of the MCP server

Agents keep their observations as documents whose `meta` names a **scope**, derived from the agent
and the project. Three tools read them back: `agent_search_index` ranks the documents of a scope,
`agent_get_observations` returns documents by id, and `agent_context` puts both together within a
budget of tokens. All of them go through the `Sql` request of the daemon.

The database is the table `docs`. Its `meta` column is kept as the JSON it parses to, and the
conditions of the statements are those of their text: `json_extract` of the scope, `LIKE`, the
order and the limit. What depends on the request alone (the connection, the token, a statement that
SQLite does not accept) is a field of `Host`, and so are the clock and the arithmetic of `f64`. The
time limit of a statement is left out.
-/

namespace SynapseMemory

namespace Agent

open Proto

/-- The name of the schema that the rendered contexts carry. -/
def agentSchema : String := "synapse.agentdb.v1"

/-! ## Scopes -/

/-- `str::replace` of a character. -/
def replace (c : Char) (by_ : Text) (t : Text) : Text :=
  t.flatMap fun x => if x = c then by_ else [x]

/-- `scope_component`: a name with its percent signs and slashes escaped. -/
def scopeComponent (value : Text) : Text :=
  replace '/' ['%', '2', 'F'] (replace '%' ['%', '2', '5'] value)

/-- An agent, its project if it names one, and the scope that both give. -/
structure AgentScope where
  agentId : String
  project : Option String
  scope : String

/-- An argument that is a string and not empty. -/
def nonEmptyArg (args : Json) (key : String) : Option String :=
  ((args.get key).bind Json.asStr).filter (· ≠ "")

/-- The text of a scope: the project, if there is one, comes before the agent. -/
def scopeText (agentId : Text) : Option Text → Text
  | some project =>
    ['a', 'g', 'e', 'n', 't', '/'] ++ (scopeComponent project ++ '/' :: scopeComponent agentId)
  | none => ['a', 'g', 'e', 'n', 't', '/'] ++ scopeComponent agentId

/-- `agent_scope`: the scope that the arguments of a tool name. -/
def agentScope (args : Json) : Except String AgentScope :=
  match nonEmptyArg args "agent_id" with
  | none => .error "agent_id"
  | some agentId =>
    let project := nonEmptyArg args "project"
    .ok ⟨agentId, project, String.ofList (scopeText agentId.toList (project.map String.toList))⟩

/-! ## Text -/

/-- `trim_end` -/
def trimEnd (t : Text) : Text := t.rdropWhile Text.isWhitespace

/-- `compact_text`: the text with single blanks between its words, cut to so many characters. -/
def compactText (text : Text) (maxChars : ℕ) : Text :=
  if maxChars = 0 then []
  else
    let collapsed := [' '].intercalate (Text.splitWhitespace text)
    if collapsed.length ≤ maxChars then collapsed
    else trimEnd (collapsed.take maxChars) ++ "...".toList

/-- `truncate_chars`: the cut text, if the text is too long. -/
def truncateChars (text : Text) (maxChars : ℕ) : Option Text :=
  if text.length ≤ maxChars then none
  else some (trimEnd (text.take maxChars) ++ "\n[truncated]".toList)

/-- The further terms that a term of the query is searched with. -/
def agentRecallExpansions (term : String) : List String :=
  if term ∈ ["context", "token", "tokens", "save"] then
    ["compact", "hydrate", "index", "observations", "progressive", "disclosure"]
  else if term ∈ ["slippage", "version", "versions"] then
    ["freshness", "source", "source_uri", "package", "versions", "local"]
  else if term ∈ ["feedback", "rerank"] then
    ["accepted", "rejected", "edits", "tests", "feedback", "reranking"]
  else if term ∈ ["fallback", "embeddings"] then
    ["lexical", "scoped", "embedding", "fallback", "degrade"]
  else if term ∈ ["deployment", "local"] then
    ["single", "file", "unix", "socket", "deployment"]
  else if term ∈ ["graph", "temporal"] then
    ["graph", "temporal", "enrichment", "behind", "hot", "path"]
  else []

/-- The words of a query, and then the expansions that are not among them yet. -/
def queryTerms (query : Text) : List Text :=
  let terms := ((Text.toAsciiLowercase query).splitOnP fun c => !c.isAlphanum).filter
    fun term => 2 < Text.len term && !term.all Char.isDigit
  terms.foldl (fun expanded term =>
    (agentRecallExpansions (String.ofList term)).foldl (fun expanded extra =>
      if extra.toList ∈ expanded then expanded else expanded ++ [extra.toList]) expanded) terms

/-- `xml_escape`: the five special characters of XML are written as entities. -/
def xmlEscape (text : Text) : Text :=
  replace (Char.ofNat 39) "&apos;".toList <| replace (Char.ofNat 34) "&quot;".toList <|
    replace '>' "&gt;".toList <| replace '<' "&lt;".toList <| replace '&' "&amp;".toList text

/-! ## The database -/

/-- `parse_meta` of the column. -/
def docMeta (d : Doc) : Json := d.meta_.getD .null

/-- The scope a document is stored under. -/
def docScope (d : Doc) : Option String := ((docMeta d).get "scope").bind Json.asStr

/-- The table `docs`, in the order of its ids. -/
structure Db where
  docs : List Doc
  sorted : docs.Pairwise fun a b => a.id < b.id

/-- The statements the tools send, with their parameters. -/
inductive Statement where
  | matching (scope : String) (terms : List Text) (limit : ℕ)
  | recent (scope : String) (limit : ℕ)
  | byIds (ids : List ℤ)

/-- `LIKE`: `%` is any text, `_` any character, and ASCII letters match in either case. -/
def like : Text → Text → Bool
  | [], s => s.isEmpty
  | c :: pattern, s =>
    if c = '%' then s.tails.any (like pattern)
    else
      match s with
      | [] => false
      | x :: rest => (c = '_' || c.toLower = x.toLower) && like pattern rest

/-- The title or the text of a document is `LIKE` a term between two `%`. -/
def mentions (d : Doc) (term : Text) : Bool :=
  let needle := '%' :: Text.toAsciiLowercase term ++ ['%']
  like needle (Text.toAsciiLowercase (d.title.getD "").toList) ||
    like needle (Text.toAsciiLowercase d.text.toList)

/-- `substr(text,1,4000) AS text` -/
def clip (d : Doc) : Doc := { d with text := String.ofList (d.text.toList.take 4000) }

/-- What a statement selects, newest documents first. -/
def Db.select (db : Db) : Statement → List Doc
  | .matching scope terms limit =>
    ((db.docs.reverse.filter fun d =>
      docScope d = some scope && terms.any (mentions d)).take limit).map clip
  | .recent scope limit =>
    ((db.docs.reverse.filter fun d => docScope d = some scope).take limit).map clip
  | .byIds ids => db.docs.filter fun d => d.id ∈ ids

/-- Everything around the tools. -/
structure Host where
  /-- What becomes of a request before the daemon has read it. -/
  send : Statement → Except String Unit
  /-- Whether SQLite takes the statement and its parameters. -/
  accepts : Statement → Bool
  /-- The length of the encoded response. -/
  encodedLen : List Doc → ℕ
  /-- The error for a response that was cut off. -/
  decodeError : List Doc → String
  f64OfInt : ℤ → F64
  /-- Whether an instant is in the past. -/
  expired : F64 → Bool
  /-- The share of the first number in the second, in per cent with one decimal. -/
  percent : ℕ → ℕ → F64

/-- The most rows that the daemon returns for a statement. -/
def maxSqlRows : ℕ := 10000

/-- The `Sql` arm of the daemon and the reading of its response. The length of a frame is sent in
32 bits, so a longer response arrives cut off. -/
def sqlRows (h : Host) (db : Db) (q : Statement) : Except String (List Doc) := do
  h.send q
  -- an error of the daemon has no `Rows`, and its text is lost
  if !h.accepts q then .error "SQL response missing Rows"
  else if maxSqlRows < (db.select q).length then .error "SQL response missing Rows"
  else if 2 ^ 32 ≤ h.encodedLen (db.select q) then .error (h.decodeError (db.select q))
  else .ok (db.select q)

/-! ## Documents -/

/-- How fresh a document is. -/
inductive Freshness where
  | stale
  | current
  | unknown
  deriving DecidableEq

/-- The freshness as it is written in a response. -/
def Freshness.text : Freshness → Text
  | .stale => "stale".toList
  | .current => "current".toList
  | .unknown => "unknown".toList

/-- `Value::as_f64` -/
def Host.asF64 (h : Host) : Json → Option F64
  | .int n => some (h.f64OfInt n)
  | .real x => some x
  | _ => none

/-- `freshness`: by the instant of expiry if the meta has one, else by whether a source is named. -/
def freshness (h : Host) (meta_ : Json) : Freshness :=
  match (meta_.get "valid_until").bind h.asF64 with
  | some validUntil => if h.expired validUntil then .stale else .current
  | none => if (meta_.get "source_uri").isSome then .current else .unknown

/-- The `kind` of a document, or its `type`, or `memory`. -/
def kindOf (meta_ : Json) : Json := ((meta_.get "kind").or (meta_.get "type")).getD (.str "memory")

/-- `rank_docs`: the documents with the greatest scores first; equal ones keep their order. -/
def rankDocs (query : Text) (docs : List Doc) : List Doc :=
  let q := Text.toAsciiLowercase query
  let terms := queryTerms query
  let score (d : Doc) : ℤ :=
    let text := Text.toAsciiLowercase d.text.toList
    let exact : ℤ := if Text.containsStr text q then 1 else 0
    let overlap : ℤ := terms.countP (Text.containsStr text)
    exact * 1000000 + overlap * 10000 + d.id
  docs.mergeSort fun a b => score b ≤ score a

/-- A document of the index. Its `score` is always 0. -/
structure IndexHit where
  rank : ℕ
  id : ℤ
  title : Option String
  uri : Option String
  kind : Json
  tags : Json
  freshness : Freshness
  confidence : Json
  tokenEstimate : ℕ
  snippet : Text
  meta_ : Json

section Tools

variable [Unicode] (h : Host) (db : Db)

/-- A document as an entry of the index, with a snippet of its text. -/
def compactHit (rank : ℕ) (d : Doc) (snippetChars : ℕ) : IndexHit where
  rank := rank
  id := d.id
  title := d.title
  uri := d.uri
  kind := kindOf (docMeta d)
  tags := ((docMeta d).get "tags").getD (.arr [])
  freshness := freshness h (docMeta d)
  confidence := ((docMeta d).get "confidence").getD .null
  tokenEstimate := Pack.estimateTokens d.text.toList
  snippet := compactText d.text.toList snippetChars
  meta_ := docMeta d

/-! ## `agent_search_index` -/

/-- What `agent_search_index` returns. -/
structure IndexResponse where
  scope : String
  index : List IndexHit

/-- The first document with each id. -/
def dedupById : List ℤ → List Doc → List Doc
  | _, [] => []
  | seen, d :: rest =>
    if d.id ∈ seen then dedupById seen rest else d :: dedupById (d.id :: seen) rest

/-- `Option::context` -/
def required {α : Type} (message : String) : Option α → Except String α
  | some x => .ok x
  | none => .error message

/-- A number among the arguments, with its default. -/
def numberArg (args : Json) (key : String) (default_ : ℕ) : ℕ :=
  ((args.get key).bind Json.asU64).getD default_

/-- `agent_search_index`: matching rows and recent ones, without doubles, ranked and cut. -/
def agentSearchIndex (args : Json) : Except String IndexResponse := do
  let sc ← agentScope args
  let query ← required "query" ((args.get "query").bind Json.asStr)
  let limit := numberArg args "limit" 8
  let snippetChars := numberArg args "snippet_chars" 240
  let fetchK := max (limit * 12 % 2 ^ 64) 80
  let terms := queryTerms query.toList
  let queryRows ←
    if terms.isEmpty then pure []
    else sqlRows h db (.matching sc.scope (terms.take 16) fetchK)
  let recentRows ← sqlRows h db (.recent sc.scope fetchK)
  let ranked := rankDocs query.toList (dedupById [] (queryRows ++ recentRows))
  pure ⟨sc.scope, (ranked.take limit).zipIdx.map fun (d, idx) =>
    compactHit h (idx + 1) d snippetChars⟩

/-! ## `agent_get_observations` -/

/-- A stored observation as it is returned, with its whole text. -/
structure Observation where
  id : ℤ
  uri : Option String
  title : Option String
  text : Text
  meta_ : Json
  ts : ℤ
  truncated : Bool
  kind : Json
  freshness : Freshness
  tokenEstimate : ℕ

/-- What `agent_get_observations` returns. -/
structure ObservationsResponse where
  scope : String
  observations : List Observation

/-- A document as it is returned, cut to a number of characters if one is given. -/
def observation (maxChars : Option ℕ) (d : Doc) : Observation :=
  let cut := maxChars.bind (truncateChars d.text.toList)
  let text := cut.getD d.text.toList
  { id := d.id, uri := d.uri, title := d.title, text := text, meta_ := docMeta d, ts := d.ts
    truncated := cut.isSome, kind := kindOf (docMeta d), freshness := freshness h (docMeta d)
    tokenEstimate := Pack.estimateTokens text }

/-- Take the observations with these ids out of the map, in the order of the ids. -/
def removeAll : List ℤ → List Observation → List Observation
  | [], _ => []
  | id :: rest, byId =>
    (byId.find? (·.id = id)).toList ++ removeAll rest (byId.filter (·.id ≠ id))

/-- The ids among the arguments. -/
def requestedIds (args : Json) : List ℤ :=
  (((args.get "ids").bind Json.asArray).getD []).filterMap Json.asI64

/-- `agent_get_observations`: the rows with the requested ids, of which those of the scope stay. -/
def agentGetObservations (args : Json) : Except String ObservationsResponse := do
  let sc ← agentScope args
  let ids := requestedIds args
  if ids.isEmpty then pure ⟨sc.scope, []⟩
  else
    -- the statement does not name the scope; the rows are filtered here
    let rows ← sqlRows h db (.byIds ids)
    let maxChars := (args.get "max_chars").bind Json.asU64
    let byId := (rows.filter fun d => docScope d = some sc.scope).map (observation h maxChars)
    pure ⟨sc.scope, removeAll ids byId⟩

/-! ## `agent_context` -/

/-- The hits that fit the budget: the loop stops at the first that does not, once it has one. -/
def fitIndex (budget : ℕ) : ℕ → List IndexHit → List IndexHit → List IndexHit × ℕ
  | used, index, [] => (index, used)
  | used, index, hit :: rest =>
    let hitTokens := Pack.estimateTokens hit.snippet + 18
    -- `break` once there is a hit, `continue` before that
    if !index.isEmpty && budget < used + hitTokens then (index, used)
    else if budget < used + hitTokens then fitIndex budget used index rest
    else fitIndex budget (used + hitTokens) (index ++ [hit]) rest

/-- The observations that fit the rest of the budget, each cut to what is left if need be. -/
def fitDocs (budget : ℕ) (byId : List Observation) :
    ℕ → List IndexHit → List Observation × ℕ
  | used, [] => ([], used)
  | used, hit :: rest =>
    match byId.find? (·.id = hit.id) with
    | none => fitDocs budget byId used rest
    | some doc =>
      let docTokens := Pack.estimateTokens doc.text
      if used + docTokens ≤ budget then
        let (docs, total) := fitDocs budget byId (used + docTokens) rest
        (doc :: docs, total)
      else if budget - used ≤ 8 then fitDocs budget byId used rest
      else
        match truncateChars doc.text ((budget - used - 4) * 4) with
        | none => fitDocs budget byId used rest
        | some text =>
          let clippedTokens := Pack.estimateTokens text
          if budget < used + clippedTokens then fitDocs budget byId used rest
          else
            let (docs, total) := fitDocs budget byId (used + clippedTokens) rest
            ({ doc with text := text, truncated := true } :: docs, total)

/-- A string field as it is printed, with its default. -/
def printed (v : Json) (default_ : String) : Text := xmlEscape ((v.asStr.getD default_).toList)

/-- The line of a hit. -/
def renderHit (hit : IndexHit) : Text :=
  "    <hit id=\"".toList ++ (toString hit.id).toList ++ "\" rank=\"".toList ++
    (toString hit.rank).toList ++ "\" kind=\"".toList ++ printed hit.kind "memory" ++
    "\" freshness=\"".toList ++ xmlEscape hit.freshness.text ++
    "\" score=\"0\"><title>".toList ++ xmlEscape (hit.title.getD "").toList ++
    "</title><snippet>".toList ++ xmlEscape hit.snippet ++ "</snippet></hit>".toList

/-- The lines of an observation. -/
def renderObservation (doc : Observation) : List Text :=
  ["    <observation id=\"".toList ++ (toString doc.id).toList ++ "\" kind=\"".toList ++
      printed doc.kind "memory" ++ "\" freshness=\"".toList ++ xmlEscape doc.freshness.text ++
      "\">".toList,
    "      <title>".toList ++ xmlEscape (doc.title.getD "").toList ++ "</title>".toList,
    "      <text>".toList ++ xmlEscape doc.text ++ "</text>".toList,
    "    </observation>".toList]

/-- `render_agent_context`: the index and the observations as one XML text. -/
def renderAgentContext (query scope : String) (tokenBudget estimatedTokens : ℕ)
    (index : List IndexHit) (observations : List Observation) : Text :=
  Text.joinLines <|
    ["<synapse_agent_context schema=\"".toList ++ xmlEscape agentSchema.toList ++
        "\" scope=\"".toList ++ xmlEscape scope.toList ++ "\" token_budget=\"".toList ++
        (toString tokenBudget).toList ++ "\" estimated_tokens=\"".toList ++
        (toString estimatedTokens).toList ++ "\">".toList,
      "  <query>".toList ++ xmlEscape query.toList ++ "</query>".toList,
      "  <search_index>".toList] ++
    index.map renderHit ++ ["  </search_index>".toList, "  <observations>".toList] ++
    observations.flatMap renderObservation ++
    ["  </observations>".toList, "</synapse_agent_context>".toList]

/-- What `agent_context` returns. -/
structure ContextResponse where
  scope : String
  query : String
  tokenBudget : ℕ
  estimatedTokens : ℕ
  naiveFullRecallTokens : ℕ
  tokenSavingsPct : F64
  index : List IndexHit
  observations : List Observation
  context : Text

/-- The arguments of the two calls, with the agent and the project passed on. -/
def innerArgs (args : Json) (more : List (String × Json)) : Json :=
  .obj (("agent_id", (args.get "agent_id").getD .null) ::
    ("project", (args.get "project").getD .null) :: more)

/-- `agent_context`: a search, the observations of its first hits, and both rendered. -/
def agentContext (args : Json) : Except String ContextResponse := do
  let sc ← agentScope args
  let query ← required "query" ((args.get "query").bind Json.asStr)
  let tokenBudget := numberArg args "token_budget" 800
  let indexK := numberArg args "index_k" 8
  let fullK := numberArg args "full_k" 3
  let indexResp ← agentSearchIndex h db
    (innerArgs args [("query", .str query), ("limit", .int indexK), ("snippet_chars", .int 220)])
  let (index, indexTokens) :=
    fitIndex tokenBudget (Pack.estimateTokens query.toList + 64) [] indexResp.index
  let ids := index.map fun hit => Json.int hit.id
  let obsResp ← agentGetObservations h db (innerArgs args [("ids", .arr ids)])
  let allDocs := obsResp.observations
  let (selected, usedTokens) := fitDocs tokenBudget allDocs indexTokens (index.take fullK)
  let naiveTokens := (allDocs.map fun doc => Pack.estimateTokens doc.text).sum
  pure { scope := sc.scope, query := query, tokenBudget := tokenBudget
         estimatedTokens := usedTokens, naiveFullRecallTokens := naiveTokens
         tokenSavingsPct :=
           if naiveTokens = 0 then 0 else h.percent (naiveTokens - usedTokens) naiveTokens
         index := index, observations := selected
         context := renderAgentContext query sc.scope tokenBudget usedTokens index selected }

end Tools

end Agent

end SynapseMemory
