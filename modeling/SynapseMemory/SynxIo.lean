import SynapseMemory.JsonText
import SynapseMemory.Store

/-!
# Import and export of the command line

The model of `synx_io`. The format of a file is its extension, unless one is forced. Most formats
are read **row by row**: each row of the file is put into the store, and counted. A pack is
different: it holds a whole database, which is written over the file of the store.

A put of a text that is stored already changes nothing, but it is counted like the others. So the
number that `import` returns is the number of new documents only if all texts of the file are new
(`import_adds_iff`), and for a pack only if the store was empty.

The libraries that read and write the formats are a parameter. An import that fails has put the rows
before the one it failed at; the model says nothing about this store.
-/

namespace SynapseMemory

open Proto

/-- The content of a file. -/
inductive File where
  | text (content : Text)
  /-- any bytes, such as those of a database or a pack -/
  | binary (bytes : List UInt8)

namespace File

/-- The bytes of a file. -/
def bytes : File → List UInt8
  | .text content => Text.asBytes content
  | .binary bytes => bytes

end File

/-- A cell of a database that is imported. -/
inductive SqlCell where
  | null
  | text (s : String)
  /-- a number or a blob -/
  | other

/-- The table `docs` of a database that is imported. -/
structure SqliteDocs where
  columns : List String
  rows : List (List SqlCell)

/-- A batch of rows of a Parquet file. -/
structure ParquetBatch where
  numRows : ℕ
  /-- The strings of a column, if it is a column of strings. -/
  column : ℕ → Option (List (Option String))

/-- A Parquet file: its columns, and its batches. -/
structure ParquetFile where
  fields : List String
  batches : List (Except String ParquetBatch)

/-- The library behind the feature `import-parquet`. -/
structure Parquet where
  read : List UInt8 → Except String ParquetFile
  write : List Doc → List UInt8

/-- The libraries that read and write the formats. -/
class FileLibs [Blake3] where
  /-- The JSON value at the beginning of a text, and what follows it. -/
  jsonValue : Text → Except String (Json × Text)
  jsonValue_nil : ∃ e, jsonValue [] = .error e
  csvWrite : Char → List (List String) → Text
  /-- The header and the records, each with the error it is read with. -/
  csvRead : Char → Text → Except String (List String) × List (Except String (List String))
  sqlite : List UInt8 → Except String SqliteDocs
  /-- The bytes of a backup of a store. -/
  backup : Store → List UInt8
  parquet : Option Parquet
  zstdEncode : List UInt8 → List UInt8
  zstdDecode : List UInt8 → Except String (List UInt8)
  hashBytes : List UInt8 → List UInt8
  /-- What the open connection of a store reads after its file was overwritten. -/
  overwritten : Store → List UInt8 → Except String Store

/-- A JSON library that reads some objects, and no files but texts without special characters. -/
@[reducible] def FileLibs.knowing [FloatText] [Blake3] (known : List (List (String × Json))) :
    FileLibs where
  jsonValue t :=
    match known.find? fun fields => (Json.render (.obj fields)).isPrefixOf t with
    | some fields => .ok (.obj fields, t.drop (Json.render (.obj fields)).length)
    | none => .error "expected value"
  jsonValue_nil := by
    refine ⟨"expected value", ?_⟩
    have hnone : (known.find? fun fields => (Json.render (.obj fields)).isPrefixOf []) = none := by
      apply List.find?_eq_none.mpr
      intro fields _
      simp [Json.render]
    rw [hnone]
  csvWrite delimiter records :=
    records.flatMap fun r => [delimiter].intercalate (r.map String.toList) ++ ['\n']
  csvRead delimiter t :=
    let records := (Text.lines t).map fun l => (l.splitOnP (· == delimiter)).map String.ofList
    (.ok (records.headD []), records.tail.map .ok)
  sqlite _ := .error "file is not a database"
  backup _ := []
  parquet := none
  zstdEncode data := data
  zstdDecode data := .ok data
  hashBytes _ := List.replicate 32 0
  overwritten _ _ := .error "file is not a database"

namespace SynxIo

/-- `Format` -/
inductive Format where
  | synx
  | sqlite
  | csv
  | tsv
  | jsonl
  | json
  | parquet
  | lance
  | qdrant
  deriving DecidableEq

/-- The errors of an import. -/
inductive ImportError where
  | message (text : String)
  | store (e : Store.Error)
  deriving DecidableEq

/-- The error of a library. -/
def fromLib {α : Type} (r : Except String α) : Except ImportError α := r.mapError .message

/-- What a command says about the file and the store. -/
structure Call where
  extension : Option String
  forced : Option String
  /-- The store is in a file. -/
  hasPath : Bool
  /-- The time of each put. -/
  clock : ℕ → ℤ

section Import

variable [Blake3] [F : FileLibs]

/-- `detect` -/
def detect (c : Call) : Except ImportError Format :=
  let name := String.ofList
    (Text.toAsciiLowercase (c.forced.getD (c.extension.getD "")).toList)
  if name = "synx" ∨ name = "brainpack" ∨ name = "bp" then .ok .synx
  else if name = "db" ∨ name = "sqlite" ∨ name = "sqlite3" then .ok .sqlite
  else if name = "csv" then .ok .csv
  else if name = "tsv" then .ok .tsv
  else if name = "jsonl" ∨ name = "ndjson" then .ok .jsonl
  else if name = "json" then .ok .json
  else if name = "parquet" then
    if F.parquet.isSome then .ok .parquet
    else .error (.message "Parquet support requires --features import-parquet")
  else if name = "lance" then .ok .lance
  else if name = "qdrant" then .ok .qdrant
  else .error (.message
    ("unknown format: " ++ String.ofList (Json.renderStr name) ++ " — use --format to override"))

/-! ## Rows -/

/-- A row of a file: an error, a row that is skipped, or a request. -/
abbrev Row := Except ImportError (Option PutRequest)

/-- The loop of the imports: put each row and count it. -/
def importRows (clock : ℕ → ℤ) : Store → ℕ → List Row → Except ImportError (Store × ℕ)
  | s, n, [] => .ok (s, n)
  | s, n, row :: rest => do
    match ← row with
    | none => importRows clock s n rest
    | some req => do
      let (s, _) ← (s.put (clock n) req).mapError .store
      importRows clock s (n + 1) rest

/-- A text file. Other bytes are refused. -/
def readText : File → Except ImportError Text
  | .text content => .ok content
  | .binary _ => .error (.message "stream did not contain valid UTF-8")

/-- White space of JSON. -/
def isJsonSpace (c : Char) : Bool := c == ' ' || c == '\n' || c == '\t' || c == '\r'

/-- `serde_json::from_str`: one value, and nothing after it. -/
def fromStr (t : Text) : Except ImportError Json := do
  let (v, rest) ← fromLib (F.jsonValue t)
  if rest.all isJsonSpace then .ok v else .error (.message "trailing characters")

/-! ## SQLite -/

/-- An optional text of a row. -/
def optText : SqlCell → Except ImportError (Option String)
  | .null => .ok none
  | .text s => .ok (some s)
  | .other => .error (.message "Invalid column type")

/-- A row of the table `docs` of another database. -/
def sqliteRow (docs : SqliteDocs) (textCol : ℕ) (row : List SqlCell) :
    Except ImportError PutRequest := do
  let cell (name : String) := ((docs.columns.idxOf? name).bind fun i => row[i]?).getD .null
  let title ← optText (cell "title")
  let uri ← optText (cell "uri")
  let text ← optText ((row[textCol]?).getD .null)
  let metaStr ← optText (cell "meta")
  match text with
  | none => .error (.message "Invalid column type")
  | some text =>
    .ok { uri := uri, title := title, text := text
          meta_ := metaStr.bind fun s => (fromStr s.toList).toOption
          embedding := none }

/-- All rows are read before the first one is put. -/
def sqliteRows (file : File) : Except ImportError (List Row) := do
  let docs ← fromLib (F.sqlite file.bytes)
  match docs.columns.findIdx? fun c => Text.toAsciiLowercase c.toList = "text".toList with
  | none => .error (.message "no such column: text")
  | some textCol => do
    let reqs ← docs.rows.mapM (sqliteRow docs textCol)
    .ok (reqs.map fun req => .ok (some req))

/-! ## Delimited text -/

/-- The place of a column, by its name in any case. -/
def findColumn (headers : List String) (name : String) : Option ℕ :=
  headers.findIdx? fun h => Text.toAsciiLowercase h.toList = name.toList

/-- A record as a row. One without a text is skipped, and empty fields count as absent. -/
def dsvRow (headers : List String) (textCol : ℕ) (record : Except String (List String)) : Row := do
  let record ← fromLib record
  let cell (name : String) := (findColumn headers name).bind fun i => record[i]?
  let text := (record[textCol]?).getD ""
  if text = "" then .ok none
  else .ok (some
    { uri := (cell "uri").filter (· ≠ "")
      title := (cell "title").filter (· ≠ "")
      text := text
      meta_ := (cell "meta").bind fun s => (fromStr s.toList).toOption
      embedding := none })

/-- The rows of a CSV or TSV file. -/
def dsvRows (delimiter : Char) (file : File) : Except ImportError (List Row) := do
  let content ← readText file
  let (headers, records) := F.csvRead delimiter content
  let headers ← fromLib headers
  match findColumn headers "text" with
  | none => .error (.message "CSV must have a 'text' column")
  | some textCol => .ok (records.map (dsvRow headers textCol))

/-! ## JSON -/

/-- `json_to_put` -/
def jsonToPut (v : Json) : Except ImportError PutRequest :=
  match v with
  | .obj _ =>
    match (v.get "text").bind Json.asStr with
    | none => .error (.message "missing 'text' field")
    | some text =>
      .ok { uri := (v.get "uri").bind Json.asStr
            title := (v.get "title").bind Json.asStr
            text := text
            meta_ := v.get "meta"
            embedding := none }
  | _ => .error (.message "expected JSON object")

/-- A line as a row, with its number. A blank one is skipped. -/
def jsonlRow (line : Text × ℕ) : Row :=
  let trimmed := Text.trim line.1
  if trimmed.isEmpty then .ok none
  else do
    let v ← (fromStr trimmed).mapError fun _ => .message ("jsonl line " ++ toString (line.2 + 1))
    let req ← jsonToPut v
    .ok (some req)

/-- The rows of a JSONL file. -/
def jsonlRows (file : File) : Except ImportError (List Row) := do
  let content ← readText file
  .ok ((Text.lines content).zipIdx.map jsonlRow)

/-- The rows of a JSON file. -/
def jsonRows (file : File) : Except ImportError (List Row) := do
  let content ← readText file
  let v ← fromStr content
  match v with
  | .arr items => .ok (items.map fun item => (jsonToPut item).map some)
  | .obj _ => .ok [(jsonToPut v).map some]
  | _ => .error (.message "JSON must be an array or object")

/-! ## Parquet -/

/-- The text in a cell, if the column is there and holds strings. -/
def batchCell (b : ParquetBatch) (col : Option ℕ) (row : ℕ) : Option String :=
  ((col.bind b.column).bind fun cells => cells[row]?).join

/-- The rows of a batch. One without a text is skipped. -/
def batchRows (fields : List String) (textCol : ℕ) (b : ParquetBatch) : List Row :=
  if (b.column textCol).isNone then [.error (.message "'text' column must be String type")]
  else (List.range b.numRows).map fun row =>
    .ok ((batchCell b (some textCol) row).map fun text =>
      { uri := batchCell b (findColumn fields "uri") row
        title := batchCell b (findColumn fields "title") row
        text := text
        meta_ := (batchCell b (findColumn fields "meta") row).bind fun s =>
          (fromStr s.toList).toOption
        embedding := none })

/-- The rows of a Parquet file, batch after batch. -/
def parquetRows (file : File) : Except ImportError (List Row) :=
  match F.parquet with
  | none => .error (.message "Parquet support requires --features import-parquet")
  | some lib => do
    let p ← fromLib (lib.read file.bytes)
    match findColumn p.fields "text" with
    | none => .error (.message "Parquet must have a 'text' column")
    | some textCol =>
      .ok (p.batches.flatMap fun batch =>
        match batch with
        | .error e => [.error (.message e)]
        | .ok b => batchRows p.fields textCol b)

/-! ## Packs -/

/-- `MAGIC` -/
def magic : List UInt8 := [66, 80, 75, 49]

/-- The little-endian number of some bytes. -/
def leNat (bytes : List UInt8) : ℕ := bytes.foldr (fun b n => b.toNat + 256 * n) 0

/-- `import_raw`: the database of a pack. Shorter files end in a panic. -/
def importRaw (raw : List UInt8) : Except ImportError (List UInt8) :=
  if raw.length < 49 then .error (.message "range end index out of range for slice")
  else do
    let rawLen := leNat ((raw.drop 9).take 8)
    let data ← fromLib (F.zstdDecode (raw.drop 49))
    if data.length ≠ rawLen then .error (.message "size mismatch")
    else if F.hashBytes data ≠ (raw.drop 17).take 32 then .error (.message "blake3 mismatch")
    else .ok data

/-- `import_magic`. The signature of a signed pack is not checked. -/
def importMagic (raw : List UInt8) : Except ImportError (List UInt8) :=
  if raw.length < 5 then .error (.message "file too short")
  else if raw.take 4 ≠ magic then
    .error (.message ("bad magic — expected BPK1, got " ++ toString (raw.take 4) ++
      ". Extension is ignored; content determines format."))
  else if raw[4]? = some 2 then
    if raw.length < 49 + 96 then .error (.message "slice index starts after its end")
    else fromLib (F.zstdDecode ((raw.drop 49).take (raw.length - 96 - 49)))
  else importRaw raw

/-- The pack is written over the file of the store, and the documents are counted. -/
def importSynx (c : Call) (file : File) (s : Store) : Except ImportError (Store × ℕ) :=
  if !c.hasPath then .error (.message "store has no path")
  else do
    let data ← importMagic file.bytes
    let s' ← fromLib (F.overwritten s data)
    .ok (s', s'.docs.rows.length)

/-! ## Import -/

/-- `import_sqlite` -/
def importSqlite (c : Call) (file : File) (s : Store) : Except ImportError (Store × ℕ) := do
  importRows c.clock s 0 (← sqliteRows file)

/-- `import_dsv` -/
def importDsv (c : Call) (file : File) (s : Store) (delimiter : Char) :
    Except ImportError (Store × ℕ) := do
  importRows c.clock s 0 (← dsvRows delimiter file)

/-- `import_jsonl` -/
def importJsonl (c : Call) (file : File) (s : Store) : Except ImportError (Store × ℕ) := do
  importRows c.clock s 0 (← jsonlRows file)

/-- `import_json` -/
def importJson (c : Call) (file : File) (s : Store) : Except ImportError (Store × ℕ) := do
  importRows c.clock s 0 (← jsonRows file)

/-- `import_parquet` -/
def importParquet (c : Call) (file : File) (s : Store) : Except ImportError (Store × ℕ) := do
  importRows c.clock s 0 (← parquetRows file)

/-- `import` -/
def importFile (c : Call) (file : File) (s : Store) : Except ImportError (Store × ℕ) := do
  match ← detect c with
  | .synx => importSynx c file s
  | .sqlite => importSqlite c file s
  | .csv => importDsv c file s ','
  | .tsv => importDsv c file s '\t'
  | .jsonl => importJsonl c file s
  | .json => importJson c file s
  | .parquet => importParquet c file s
  | .lance => .error (.message ("LanceDB import not available in synx.\n" ++
      "Use: synapse-migrate lancedb:///path/table_name --to brain.db"))
  | .qdrant => .error (.message ("Qdrant snapshot import not available in synx.\n" ++
      "Use: synapse-migrate qdrant://host:6334/collection --to brain.db"))

end Import

/-! ## Export -/

section Export

variable [FloatText] [Blake3] [F : FileLibs]

/-- The columns of an exported file. -/
def dsvHeader : List String := ["id", "title", "uri", "text", "ts"]

/-- The record of a document. -/
def dsvRecord (d : Doc) : List String :=
  [toString d.id, d.title.getD "", d.uri.getD "", d.text, toString d.ts]

/-- `export_dsv` -/
def exportDsv (s : Store) (tsv : Bool) : File :=
  .text (F.csvWrite (if tsv then '\t' else ',') (dsvHeader :: s.docs.rows.map dsvRecord))

/-- An optional text, or `null`. -/
def optJson (t : Option String) : Json := (t.map Json.str).getD .null

/-- A document as an object. The fields of an object are in the order of their names. -/
def exportValue (d : Doc) : Json :=
  .obj [("id", .int d.id), ("meta", d.meta_.getD .null), ("text", .str d.text),
    ("title", optJson d.title), ("ts", .int d.ts), ("uri", optJson d.uri)]

/-- One object for each line. -/
def exportJsonl (s : Store) : File :=
  .text (s.docs.rows.flatMap fun d => Json.render (exportValue d) ++ ['\n'])

/-- Some bytes of a number, the lowest first. -/
def leBytes (n : ℕ) (count : ℕ) : List UInt8 :=
  (List.range count).map fun i => UInt8.ofNat (n / 256 ^ i % 256)

/-- `snap::export` with level 3. -/
def exportPack (s : Store) : File :=
  let data := F.backup s
  .binary (magic ++ [1] ++ leBytes 3 4 ++ leBytes data.length 8 ++ F.hashBytes data ++
    F.zstdEncode data)

/-- `export` -/
def exportFile (c : Call) (s : Store) : Except ImportError (File × ℕ) := do
  let count := s.docs.rows.length
  match ← detect c with
  | .synx => if !c.hasPath then .error (.message "store has no path") else .ok (exportPack s, count)
  | .csv => .ok (exportDsv s false, count)
  | .tsv => .ok (exportDsv s true, count)
  | .jsonl => .ok (exportJsonl s, count)
  | .json => .ok (exportJsonl s, count)
  | .parquet =>
    match F.parquet with
    | none => .error (.message "Parquet support requires --features import-parquet")
    | some lib => .ok (.binary (lib.write s.docs.rows), count)
  | .sqlite => .ok (.binary (F.backup s), count)
  | .lance => .error (.message
      "Lance export not supported — export to .synx then use synapse-migrate")
  | .qdrant => .error (.message
      "Qdrant export not supported — export to .synx then use synapse-migrate")

end Export

/-! ## What the loop does -/

section Loop

variable [Blake3]

/-- The requests among the rows of a file. -/
def requests (rows : List Row) : List PutRequest := rows.filterMap fun row => row.toOption.join

/-- The hashes of the texts that are stored, and of those that are put. -/
def textHashes (s : Store) (reqs : List PutRequest) : List Blake3.Digest :=
  (s.docs.rows.map fun d => Blake3.hash d.text) ++ reqs.map fun req => Blake3.hash req.text

/-- What a request and a document have in common. -/
structure Fields where
  uri : Option String
  title : Option String
  text : String
  meta_ : Option Json

/-- The fields of a document that a file keeps. -/
def docFields (d : Doc) : Fields := ⟨d.uri, d.title, d.text, d.meta_⟩

/-- The same fields of a request. -/
def reqFields (req : PutRequest) : Fields := ⟨req.uri, req.title, req.text, req.meta_⟩

/-- What an import of some requests did. -/
structure Imported (s : Store) (n : ℕ) (reqs : List PutRequest) (s' : Store) (n' : ℕ) : Prop where
  count : n' = n + reqs.length
  kept : s.docs.rows ⊆ s'.docs.rows
  length_le : s'.docs.rows.length ≤ s.docs.rows.length + reqs.length
  all_new : s'.docs.rows.length = s.docs.rows.length + reqs.length ↔ (textHashes s reqs).Nodup
  rows_eq : (textHashes s reqs).Nodup →
    s'.docs.rows.map docFields = s.docs.rows.map docFields ++ reqs.map reqFields
  seq_eq : (textHashes s reqs).Nodup → s'.docs.seq = s.docs.seq + reqs.length

theorem textHashes_nil_nodup (s : Store) : (textHashes s []).Nodup := by
  rw [textHashes, List.map_nil, List.append_nil]
  exact s.docs.key_nodup

/-- A text that is stored is not new. -/
theorem not_nodup_of_byText {s : Store} {req : PutRequest} {rest : List PutRequest} {d : Doc}
    (h : s.byText req.text = some d) : ¬(textHashes s (req :: rest)).Nodup := by
  obtain ⟨hmem, hkey⟩ := s.docs.byKey_eq_some.mp h
  intro hnodup
  apply (List.nodup_append.mp hnodup).2.2 (Blake3.hash req.text)
  · exact List.mem_map.mpr ⟨d, hmem, hkey⟩
  · exact List.mem_cons_self
  · rfl

/-- After an insert the text counts as stored. -/
theorem textHashes_inserted {s s' : Store} {now id : ℤ} {req : PutRequest}
    (h : Store.Inserted s now req s' id) (rest : List PutRequest) :
    textHashes s' rest = textHashes s (req :: rest) := by
  simp only [textHashes, h.rows_eq, List.map_append, List.map_cons, List.map_nil,
    List.append_assoc, List.singleton_append]
  rfl

theorem Imported.nil (s : Store) (n : ℕ) : Imported s n [] s n where
  count := rfl
  kept := List.Subset.refl _
  length_le := le_refl _
  all_new := ⟨fun _ => textHashes_nil_nodup s, fun _ => rfl⟩
  rows_eq _ := by simp
  seq_eq _ := by simp

/-- A text that is stored already is counted, and nothing else happens. -/
theorem Imported.found {s s' : Store} {n n' : ℕ} {req : PutRequest} {rest : List PutRequest}
    {d : Doc} (hd : s.byText req.text = some d) (h : Imported s (n + 1) rest s' n') :
    Imported s n (req :: rest) s' n' := by
  have hold : ¬(textHashes s (req :: rest)).Nodup := not_nodup_of_byText hd
  have hlen := h.length_le
  refine ⟨?_, h.kept, ?_, ?_, fun hnew => absurd hnew hold, fun hnew => absurd hnew hold⟩
  · rw [h.count, List.length_cons]
    omega
  · rw [List.length_cons]
    omega
  · rw [List.length_cons]
    refine ⟨fun heq => ?_, fun hnew => ?_⟩
    · omega
    · exact absurd hnew hold

/-- A new text is inserted. -/
theorem Imported.inserted {s t s' : Store} {now id : ℤ} {n n' : ℕ} {req : PutRequest}
    {rest : List PutRequest} (hins : Store.Inserted s now req t id)
    (h : Imported t (n + 1) rest s' n') : Imported s n (req :: rest) s' n' := by
  have hhashes := textHashes_inserted hins rest
  have hlen : t.docs.rows.length = s.docs.rows.length + 1 := by
    rw [hins.rows_eq, List.length_append, List.length_singleton]
  have hle := h.length_le
  refine ⟨?_, ?_, ?_, ?_, ?_, ?_⟩
  · rw [h.count, List.length_cons]
    omega
  · intro d hd
    apply h.kept
    rw [hins.rows_eq]
    exact List.mem_append_left _ hd
  · rw [List.length_cons]
    omega
  · rw [← hhashes, ← h.all_new, List.length_cons, hlen]
    omega
  · intro hnew
    rw [h.rows_eq (hhashes ▸ hnew), hins.rows_eq]
    simp only [List.map_append, List.map_cons, List.map_nil, List.append_assoc,
      List.singleton_append]
    rfl
  · intro hnew
    rw [h.seq_eq (hhashes ▸ hnew), hins.seq_eq, List.length_cons]
    push_cast
    omega

/-- **The loop.** All requests are counted; the texts that are new are stored. -/
theorem importRows_ok {clock : ℕ → ℤ} {s s' : Store} {n n' : ℕ} {rows : List Row}
    (h : importRows clock s n rows = .ok (s', n')) : Imported s n (requests rows) s' n' := by
  induction rows generalizing s n with
  | nil =>
    cases h
    exact Imported.nil s' n'
  | cons row rest ih =>
    obtain ⟨o, rfl, hrow⟩ := bind_eq_ok.mp h
    cases o with
    | none => exact ih hrow
    | some req =>
      obtain ⟨⟨t, id⟩, hput, hrest⟩ := bind_eq_ok.mp hrow
      have hput := (Store.putInner_ok.mp (mapError_eq_ok.mp hput)).2
      rcases Store.findOrInsert_ok hput with ⟨d, hd, rfl, -⟩ | hins
      · exact (ih hrest).found hd
      · exact (ih hrest).inserted hins

end Loop

/-! ## What an import keeps and counts -/

section Counting

variable [Blake3]

/-- No document is lost, and the number is the number of those that were added. -/
def KeepsAndCounts (s s' : Store) (n : ℕ) : Prop :=
  s.docs.rows ⊆ s'.docs.rows ∧ s'.docs.rows.length = s.docs.rows.length + n

theorem keepsAndCounts_pack {s s' : Store} {n : ℕ} (hn : n = s'.docs.rows.length) :
    KeepsAndCounts s s' n ↔ s.docs.rows = [] := by
  rw [KeepsAndCounts]
  constructor
  · rintro ⟨-, hlen⟩
    apply List.eq_nil_of_length_eq_zero
    omega
  · intro hnil
    rw [hnil]
    refine ⟨List.nil_subset _, ?_⟩
    rw [List.length_nil]
    omega

variable [F : FileLibs]

/-- The rows of a file, in a format that is read row by row. -/
def fileRows (fmt : Format) (file : File) : Except ImportError (List Row) :=
  match fmt with
  | .sqlite => sqliteRows file
  | .csv => dsvRows ',' file
  | .tsv => dsvRows '\t' file
  | .jsonl => jsonlRows file
  | .json => jsonRows file
  | .parquet => parquetRows file
  | .synx => .ok []
  | .lance => .ok []
  | .qdrant => .ok []

/-- Everything in the file is new: the texts of its rows are different from each other and from
those in the store. A pack is only new to an empty store. -/
def AllNew (c : Call) (file : File) (s : Store) : Prop :=
  match detect c with
  | .ok .synx => s.docs.rows = []
  | .ok fmt => ∀ rows, fileRows fmt file = .ok rows → (textHashes s (requests rows)).Nodup
  | .error _ => True

/-- The number that is returned for a pack is the number of all documents. -/
theorem importSynx_ok {c : Call} {file : File} {s s' : Store} {n : ℕ}
    (h : importSynx c file s = .ok (s', n)) : n = s'.docs.rows.length := by
  rw [importSynx] at h
  split at h
  next => cases h
  next =>
    obtain ⟨data, -, h⟩ := bind_eq_ok.mp h
    obtain ⟨t, -, h⟩ := bind_eq_ok.mp h
    cases h
    rfl

theorem keepsAndCounts_rows {c : Call} {fmt : Format} {file : File} {rows : List Row}
    {s s' : Store} {n : ℕ} (hrows : fileRows fmt file = .ok rows)
    (h : importRows c.clock s 0 rows = .ok (s', n)) :
    KeepsAndCounts s s' n ↔
      ∀ rows, fileRows fmt file = .ok rows → (textHashes s (requests rows)).Nodup := by
  have himported := importRows_ok h
  rw [KeepsAndCounts]
  rw [himported.count, Nat.zero_add, himported.all_new]
  constructor
  · rintro ⟨-, hnew⟩ rows' hrows'
    obtain rfl := Except.ok.inj (hrows.symm.trans hrows')
    exact hnew
  · intro hnew
    exact ⟨himported.kept, hnew rows hrows⟩

/-- **Counting.** After an import that ends well nothing is lost and the number is that of the new
documents, if and only if everything in the file was new. -/
theorem import_adds_iff (c : Call) (file : File) (s s' : Store) (n : ℕ)
    (h : importFile c file s = .ok (s', n)) : KeepsAndCounts s s' n ↔ AllNew c file s := by
  obtain ⟨fmt, hfmt, h⟩ := bind_eq_ok.mp h
  rw [AllNew]
  rw [hfmt]
  cases fmt with
  | synx => exact keepsAndCounts_pack (importSynx_ok h)
  | lance => cases h
  | qdrant => cases h
  | sqlite | csv | tsv | jsonl | json | parquet =>
    obtain ⟨rows, hrows, h⟩ := bind_eq_ok.mp h
    exact keepsAndCounts_rows hrows h

end Counting

/-! ## Two imports -/

/-- One stored document. -/
def oneDoc [Blake3] (text : String) : Store :=
  Store.empty.after (Store.empty.put 0 ⟨none, none, text, none, none⟩)

/-- A file with one text, as lines of JSON. -/
def oneLine [FloatText] (text : String) : File :=
  .text (Json.render (.obj [("text", .str text)]) ++ ['\n'])

/-- A call that says the format is JSONL. -/
def jsonlCall : Call := ⟨some "jsonl", none, true, fun _ => 0⟩

/-- A new text is added, and counted. -/
theorem new_text_counted :
    let _ := FloatText.zero
    let _ := Blake3.identity
    let _ := FileLibs.knowing [[("text", .str "b")]]
    ∃ s' n, importFile jsonlCall (oneLine "b") (oneDoc "a") = .ok (s', n) ∧
      KeepsAndCounts (oneDoc "a") s' n := by
  intro _ _ _
  have hsome : (importFile jsonlCall (oneLine "b") (oneDoc "a")).toOption.isSome = true := by
    decide +kernel
  have htexts : ∀ rows ∈ (fileRows .jsonl (oneLine "b")).toOption,
      (requests rows).map PutRequest.text = ["b"] := by
    decide +kernel
  obtain ⟨⟨s', n⟩, hok⟩ := Option.isSome_iff_exists.mp hsome
  have hnew : AllNew jsonlCall (oneLine "b") (oneDoc "a") := by
    intro rows hrows
    have hhashes : textHashes (oneDoc "a") (requests rows) =
        "a" :: (requests rows).map PutRequest.text := rfl
    rw [hhashes, htexts rows (toOption_eq_some.mpr hrows)]
    exact (by decide : List.Nodup (α := String) ["a", "b"])
  exact ⟨s', n, toOption_eq_some.mp hok,
    (import_adds_iff _ _ _ s' n (toOption_eq_some.mp hok)).mpr hnew⟩

/-- A text that is stored already is counted, but nothing is added. -/
theorem stored_text_counted :
    let _ := FloatText.zero
    let _ := Blake3.identity
    let _ := FileLibs.knowing [[("text", .str "a")]]
    ∃ s' n, importFile jsonlCall (oneLine "a") (oneDoc "a") = .ok (s', n) ∧
      ¬KeepsAndCounts (oneDoc "a") s' n := by
  intro _ _ _
  have hcount : (importFile jsonlCall (oneLine "a") (oneDoc "a")).toOption.map
      (fun r => (r.1.docs.rows.length, r.2)) = some (1, 1) := by
    decide +kernel
  have hone : (oneDoc "a").docs.rows.length = 1 := by decide
  obtain ⟨⟨s', n⟩, hok, hcount⟩ := Option.map_eq_some_iff.mp hcount
  obtain ⟨hlen, rfl⟩ := Prod.mk.inj hcount
  refine ⟨s', 1, toOption_eq_some.mp hok, ?_⟩
  rintro ⟨-, hsum⟩
  rw [hone] at hsum
  exact absurd (hlen.symm.trans hsum) (by decide)

end SynxIo

end SynapseMemory
