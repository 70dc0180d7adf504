import SynapseMemory.Proto
import SynapseMemory.Text

/-!
# The command line of the client

`synx-fast` turns its arguments, its standard input and its environment into one of four kinds of
session: none, a single call, the two calls of `doctor`, or `batch`. This is the reading of the
command line, with its options, defaults and error messages; the sessions themselves are in
`SynapseMemory.ClientSession`.
-/

namespace SynapseMemory

namespace Client

open Proto

/-- `str::trim` on a string. -/
def trim (s : String) : String := String.ofList (Text.trim s.toList)

/-- `str::lines` on a string. -/
def lines (s : String) : List String := (Text.lines s.toList).map String.ofList

/-- The process around the client: standard input, the token `auth_token` finds, the
`SYNAPSE_SCOPE` variable, and the JSON parser. -/
structure Machine where
  stdin : String
  token : Option String
  scope : Option String
  parseJson : String → Option Json

/-! ## What the client sends -/

/-- An item of `put-batch` as it goes on the wire. -/
structure PutItem where
  title : Json
  uri : Json
  text : Json
  meta_ : Json
  embed : Bool
  embedding : Json

/-- The requests the client writes; `put-batch` forwards the values it was given. -/
inductive Payload where
  | ping
  | stats
  | auth (token : String)
  | sql (query : String)
  | search (mode : SearchMode) (q : String) (limit : ℕ) (embedQuery : Bool)
  | searchScoped (mode : SearchMode) (q : String) (limit : ℕ) (embedQuery : Bool)
      (scopeKey scopeValue : String) (candidateLimit : Option ℕ)
  | batchSearch (queries : List BatchSearchItem)
  | put (title uri : Option String) (text : String) (meta_ : Json) (embed : Bool)
  | putBatch (items : List PutItem)

/-! ## Reading the command line -/

/-- `str::parse::<usize>` -/
def parseUsize (s : String) : Option ℕ :=
  let digits := match s.toList with
    | '+' :: rest => rest
    | all => all
  if digits ≠ [] ∧ digits.all Char.isDigit then
    let n := digits.foldl (fun n c => n * 10 + (c.toNat - '0'.toNat)) 0
    if n < 2 ^ 64 then some n else none
  else none

/-- A number of the command line, or an error that names what it is for. -/
def parseNumber (what s : String) : Except String ℕ :=
  match parseUsize s with
  | some n => .ok n
  | none => .error ("invalid " ++ what)

/-- `s.chars().all(|c| c.is_ascii_digit())` -/
def isDigits (s : String) : Bool := s.toList.all Char.isDigit

/-- `parse_search_mode` -/
def parseSearchMode (s : String) : Except String SearchMode :=
  let lower := s.map Char.toLower
  if lower = "find" ∨ lower = "lex" then .ok .lex
  else if lower = "vec" then .ok .vec
  else if lower = "hybrid" ∨ lower = "search" then .ok .hybrid
  else .error ("invalid search mode `" ++ s ++ "`")

/-- The words that are read as a mode. -/
def modeWords : List String := ["find", "lex", "hybrid", "search", "vec"]

/-- The flags of a limit. -/
def limitFlags : List String := ["--limit", "-n", "-k"]

/-- What stands after a flag, the first time it is there. -/
def optionValue (flag : String) : List String → Option String
  | a :: v :: rest => if a = flag then some v else optionValue flag (v :: rest)
  | _ => none

/-- A word of `batch` that takes no value. -/
def parseBatchWord (a : String) (mode : SearchMode) (limit : ℕ) :
    Except String (SearchMode × ℕ) :=
  if a ∈ modeWords then do
    let mode ← parseSearchMode a
    pure (mode, limit)
  else if isDigits a then do
    let limit ← parseNumber "limit" a
    pure (mode, limit)
  else .error ("unknown batch option `" ++ a ++ "`")

/-- `parse_batch_args`: the mode and the limit, with what is not known left over to a word of its
own. -/
def parseBatchArgs : List String → SearchMode → ℕ → Except String (SearchMode × ℕ)
  | [], mode, limit => .ok (mode, limit)
  | [a], mode, limit => parseBatchWord a mode limit
  | a :: v :: rest, mode, limit =>
    if a ∈ ["--mode", "-m"] then do
      let mode ← parseSearchMode v
      parseBatchArgs rest mode limit
    else if a ∈ limitFlags then do
      let limit ← parseNumber "limit" v
      parseBatchArgs rest mode limit
    else if a ∈ ["--scope", "-s", "--scope-key"] then parseBatchArgs rest mode limit
    else do
      let (mode, limit) ← parseBatchWord a mode limit
      parseBatchArgs (v :: rest) mode limit

/-- The options of `batch`. -/
structure BatchOpts where
  mode : SearchMode
  limit : ℕ
  embedQuery : Bool
  scopeKey : Option String
  scopeValue : Option String

/-- `parse_batch_opts`: the mode and the limit first, the scope by a second pass over the
arguments. -/
def parseBatchOpts (args : List String) : Except String BatchOpts := do
  let (mode, limit) ← parseBatchArgs args .hybrid 10
  pure { mode, limit, embedQuery := mode ≠ .lex, scopeKey := optionValue "--scope-key" args
         scopeValue := (optionValue "--scope" args).or (optionValue "-s" args) }

/-- What a command line asks for. -/
inductive Invocation where
  | help
  | doctor
  | call (req : Payload)
  | batch (opts : BatchOpts)

/-- The options of a scoped search. -/
structure SearchOpts where
  mode : SearchMode
  query : String
  limit : ℕ
  embedQuery : Bool
  scopeKey : String
  scopeValue : String
  candidateLimit : ℕ

/-- The variables of the loop of `parse_scoped_opts`. -/
structure ScopedArgs where
  mode : SearchMode
  limit : ℕ
  candidateLimit : ℕ
  scopeKey : String
  scopeValue : Option String
  queryParts : List String

/-- A word that takes no value: a mode, a limit, or part of the query. -/
def parseScopedWord (a : String) (st : ScopedArgs) : Except String ScopedArgs :=
  if a ∈ modeWords then do
    let mode ← parseSearchMode a
    pure { st with mode }
  else if isDigits a then do
    let limit ← parseNumber "limit" a
    pure { st with limit }
  else .ok { st with queryParts := st.queryParts ++ [a] }

/-- The flags and the words of a scoped search, from left to right. -/
def parseScopedArgs : List String → ScopedArgs → Except String ScopedArgs
  | [], st => .ok st
  | [a], st => parseScopedWord a st
  | a :: v :: rest, st =>
    if a ∈ ["--mode", "-m"] then do
      let mode ← parseSearchMode v
      parseScopedArgs rest { st with mode }
    else if a ∈ limitFlags then do
      let limit ← parseNumber "limit" v
      parseScopedArgs rest { st with limit }
    else if a = "--candidate-limit" then do
      let candidateLimit ← parseNumber "candidate limit" v
      parseScopedArgs rest { st with candidateLimit }
    else if a = "--scope-key" then parseScopedArgs rest { st with scopeKey := v }
    else if a ∈ ["--scope", "-s"] then parseScopedArgs rest { st with scopeValue := some v }
    else do
      let st ← parseScopedWord a st
      parseScopedArgs (v :: rest) st

/-- `parse_scoped_opts`: a query without words is read from the standard input. -/
def parseScopedOpts (m : Machine) (args : List String) : Except String SearchOpts := do
  let st ← parseScopedArgs args
    { mode := .hybrid, limit := 8, candidateLimit := 64, scopeKey := "scope", scopeValue := none
      queryParts := [] }
  let query := if st.queryParts = [] then trim m.stdin else " ".intercalate st.queryParts
  if query = "" then throw "missing query"
  match st.scopeValue.or m.scope with
  | none => throw "missing --scope (or SYNAPSE_SCOPE)"
  | some scopeValue =>
    pure { mode := st.mode, query, limit := st.limit, embedQuery := st.mode ≠ .lex
           scopeKey := st.scopeKey, scopeValue, candidateLimit := st.candidateLimit }

/-- The options of `context` that are not those of a scoped search; their values only shape the
output. -/
def parseContextArgs : List String → List String → Except String (List String)
  | [], rest => .ok rest
  | [a], acc => .ok (if a ∈ ["--markdown", "--md"] then acc else acc ++ [a])
  | a :: v :: rest, acc =>
    if a ∈ ["--budget", "--tokens"] then do
      let _ ← parseNumber "token budget" v
      parseContextArgs rest acc
    else if a = "--max-chars" then do
      let _ ← parseNumber "max chars" v
      parseContextArgs rest acc
    else parseContextArgs (v :: rest) (if a ∈ ["--markdown", "--md"] then acc else acc ++ [a])

/-- `parse_context_opts`: as for a scoped search, with a limit of one at least. -/
def parseContextOpts (m : Machine) (args : List String) : Except String SearchOpts := do
  let rest ← parseContextArgs args []
  let search ← parseScopedOpts m rest
  pure { search with limit := max search.limit 1 }

/-- The request of a scoped search. -/
def scopedRequest (opts : SearchOpts) : Payload :=
  .searchScoped opts.mode opts.query opts.limit opts.embedQuery opts.scopeKey opts.scopeValue
    (some opts.candidateLimit)

/-- `parse_query_limit`: a query, and a limit after it. -/
def parseQueryLimit : List String → Option String → ℕ → Except String (String × ℕ)
  | [], none, _ => .error "missing query"
  | [], some query, limit => .ok (query, limit)
  | [a], none, limit => .ok (a, limit)
  | [a], some query, limit =>
    if isDigits a then do
      let limit ← parseNumber "limit" a
      pure (query, limit)
    else .ok (query, limit)
  | a :: v :: rest, query, limit =>
    if a ∈ limitFlags then do
      let limit ← parseNumber "limit" v
      parseQueryLimit rest query limit
    else match query with
      | none => parseQueryLimit (v :: rest) (some a) limit
      | some query =>
        if isDigits a then do
          let limit ← parseNumber "limit" a
          parseQueryLimit (v :: rest) (some query) limit
        else parseQueryLimit (v :: rest) (some query) limit

/-- `merge_scope_meta`: the scope is put into the meta, which must be an object then. -/
def mergeScopeMeta (meta_ : Option Json) (key : String) (value : Option String) :
    Except String Json :=
  match value with
  | none => .ok (meta_.getD .null)
  | some value =>
    let insert (fields : List (String × Json)) : Json :=
      .obj (fields.filter (fun f => f.1 ≠ key) ++ [(key, .str value)])
    match meta_ with
    | some (.obj fields) => .ok (insert fields)
    | some .null => .ok (insert [])
    | none => .ok (insert [])
    | some _ => .error "meta must be a JSON object when --scope is used"

/-- The variables of the loop of `parse_put`. -/
structure PutArgs where
  title : Option String
  uri : Option String
  meta_ : Option Json
  embed : Bool
  scopeKey : String
  scopeValue : Option String
  textParts : List String

/-- A word that takes no value. -/
def parsePutWord (a : String) (st : PutArgs) : PutArgs :=
  if a = "--no-embed" then { st with embed := false }
  else { st with textParts := st.textParts ++ [a] }

/-- The flags and the words of `put`, from left to right. -/
def parsePutArgs (m : Machine) : List String → PutArgs → Except String PutArgs
  | [], st => .ok st
  | [a], st => .ok (parsePutWord a st)
  | a :: v :: rest, st =>
    if a = "--title" then parsePutArgs m rest { st with title := some v }
    else if a = "--uri" then parsePutArgs m rest { st with uri := some v }
    else if a = "--meta" then
      match m.parseJson v with
      | none => .error "invalid --meta JSON"
      | some json => parsePutArgs m rest { st with meta_ := some json }
    else if a = "--scope-key" then parsePutArgs m rest { st with scopeKey := v }
    else if a ∈ ["--scope", "-s"] then parsePutArgs m rest { st with scopeValue := some v }
    else parsePutArgs m (v :: rest) (parsePutWord a st)

/-- `parse_put`: a text without words is read from the standard input. -/
def parsePut (m : Machine) (args : List String) : Except String Payload := do
  let st ← parsePutArgs m args
    { title := none, uri := none, meta_ := none, embed := true, scopeKey := "scope"
      scopeValue := none, textParts := [] }
  let text := if st.textParts = [] then m.stdin else " ".intercalate st.textParts
  let meta_ ← mergeScopeMeta st.meta_ st.scopeKey st.scopeValue
  pure (.put st.title st.uri text meta_ st.embed)

/-- The scope of `put-batch`: its key and its value. -/
def parsePutBatchOpts : List String → Option String → Option String →
    Except String (Option String × Option String)
  | [], key, value => .ok (key, value)
  | [a], _, _ => .error ("unknown put-batch option `" ++ a ++ "`")
  | a :: v :: rest, key, value =>
    if a = "--scope-key" then parsePutBatchOpts rest (some v) value
    else if a ∈ ["--scope", "-s"] then parsePutBatchOpts rest key (some v)
    else .error ("unknown put-batch option `" ++ a ++ "`")

/-- An item of a batch: what is not there is null, and the text is empty. -/
def putItem (v meta_ : Json) : PutItem where
  title := (v.get "title").getD .null
  uri := (v.get "uri").getD .null
  text := ((v.get "text").or (v.get "content")).getD (.str "")
  meta_ := meta_
  embed := ((v.get "embed").bind Json.asBool).getD true
  embedding := (v.get "embedding").getD .null

/-- `read_jsonl_batch`: each line that is not blank is an item. -/
def readJsonlBatch (m : Machine) (key value : Option String) : Except String (List PutItem) :=
  ((lines m.stdin).zipIdx.filter fun l => trim l.1 ≠ "").mapM fun l =>
    match m.parseJson (trim l.1) with
    | none => .error ("invalid JSONL at line " ++ toString (l.2 + 1))
    | some v => do
      let meta_ ← mergeScopeMeta (v.get "meta") (key.getD "scope") value
      pure (putItem v meta_)

/-- The requests of `batch`: a scoped search per query on one connection, or one batched search;
nothing when the input holds no query. -/
def batchRequests (m : Machine) (opts : BatchOpts) : List Payload :=
  let queries := ((lines m.stdin).map trim).filter (· ≠ "")
  if queries = [] then []
  else match opts.scopeValue with
    | some scope => queries.map fun q =>
        .searchScoped opts.mode q opts.limit opts.embedQuery (opts.scopeKey.getD "scope") scope none
    | none => [.batchSearch (queries.map fun q =>
        { mode := opts.mode, q, limit := opts.limit, embedQuery := opts.embedQuery })]

/-- `parse_sql`: a query without words is read from the standard input. -/
def parseSql (m : Machine) (args : List String) : Except String String :=
  let query := trim (if args = [] then m.stdin else " ".intercalate args)
  if query = "" then .error "missing SQL query" else .ok query

/-- The `match` of `run`. -/
def parse (m : Machine) (args : List String) : Except String Invocation :=
  let op := args.head?.getD "ping"
  let rest := args.tail
  if op ∈ ["help", "--help", "-h"] then .ok .help
  else if op = "doctor" then .ok .doctor
  else if op = "ping" then .ok (.call .ping)
  else if op = "stats" then .ok (.call .stats)
  else if op = "sql" then do
    let query ← parseSql m rest
    pure (.call (.sql query))
  else if op = "batch" then do
    let opts ← parseBatchOpts rest
    pure (.batch opts)
  else if op ∈ ["scoped", "scope"] then do
    let opts ← parseScopedOpts m rest
    pure (.call (scopedRequest opts))
  else if op = "context" then do
    let opts ← parseContextOpts m rest
    pure (.call (scopedRequest opts))
  else if op ∈ ["search", "hybrid", "find", "vec"] then
    let mode : SearchMode := if op = "find" then .lex else if op = "vec" then .vec else .hybrid
    if rest.any (· ∈ ["--scope", "-s", "--scope-key"]) then do
      let opts ← parseScopedOpts m (op :: rest)
      pure (.call (scopedRequest opts))
    else do
      let (query, limit) ← parseQueryLimit rest none 10
      pure (.call (.search mode query limit (mode ≠ .lex)))
  else if op = "put" then do
    let req ← parsePut m rest
    pure (.call req)
  else if op = "put-batch" then do
    let (key, value) ← parsePutBatchOpts rest none none
    let items ← readJsonlBatch m key value
    pure (.call (.putBatch items))
  else .error ("unknown command `" ++ op ++ "`")

end Client

end SynapseMemory
