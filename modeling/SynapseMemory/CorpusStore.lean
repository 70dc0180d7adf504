import SynapseMemory.Bytes
import SynapseMemory.CorpusChunks
import SynapseMemory.Store

/-!
# Storing a corpus document

The model of `put_corpus_document`: a source, a document of it, and the chunks of the document, each
written by a statement of its own and in no transaction. Any of the statements may fail
(`Faults`), and the call returns what the ones before it have written.

A document that is there is not written again. So a call that fails after the row of the document
leaves a document that no later call completes, and one that fails before it leaves nothing that a
later call minds (`retry_stored_iff`).
-/

namespace SynapseMemory.Corpus

open Text

/-- What a source is. -/
inductive CorpusSourceKind where
  | rss
  | youtube
  | pdf
  | web
  | text
  deriving DecidableEq

/-- The kind of a source as it is stored. -/
def sourceKindStr : CorpusSourceKind → String
  | .rss => "rss"
  | .youtube => "youtube"
  | .pdf => "pdf"
  | .web => "web"
  | .text => "text"

/-- A document as it is handed in. -/
structure NewCorpusDocument where
  sourceKind : CorpusSourceKind
  sourceUri : String
  externalId : String
  title : String
  text : Text
  publishedTs : Option ℤ

/-- A row of `corpus_sources`. -/
structure SourceRow where
  id : ℤ
  kind : String
  uri : String
  title : Option String
  createdTs : ℤ
  deriving DecidableEq

/-- A row of `corpus_documents`. -/
structure DocumentRow where
  id : ℤ
  sourceId : ℤ
  externalId : String
  title : String
  uri : String
  publishedTs : Option ℤ
  contentHash : Digest
  createdTs : ℤ
  deriving DecidableEq

/-- A row of `corpus_chunks`. -/
structure ChunkRow where
  id : ℤ
  documentId : ℤ
  ordinal : ℕ
  text : Text
  start : ℕ
  stop : ℕ
  deriving DecidableEq

/-- A source is found by its kind and its uri. -/
def sourceSchema : Schema SourceRow (String × String) Unit where
  id := SourceRow.id
  key := fun r => (r.kind, r.uri)
  alt := fun _ => none

/-- A document is found by its source and its id there. -/
def documentSchema : Schema DocumentRow (ℤ × String) Unit where
  id := DocumentRow.id
  key := fun r => (r.sourceId, r.externalId)
  alt := fun _ => none

/-- A chunk is found by its document and its place. -/
def chunkSchema : Schema ChunkRow (ℤ × ℕ) Unit where
  id := ChunkRow.id
  key := fun r => (r.documentId, r.ordinal)
  alt := fun _ => none

/-- The tables, with the foreign keys of documents and chunks. -/
structure CorpusDb where
  sources : Table sourceSchema
  documents : Table documentSchema
  chunks : Table chunkSchema
  sourced : ∀ d ∈ documents.rows, ∃ s ∈ sources.rows, s.id = d.sourceId
  documented : ∀ c ∈ chunks.rows, ∃ d ∈ documents.rows, d.id = c.documentId

/-- Why a document is not stored. -/
inductive CorpusError where
  | other (message : String)
  | sqlite (message : String)
  deriving DecidableEq

/-- The statements of a call. -/
inductive Statement where
  | migrate
  | source
  | sourceId
  | lookup
  | document
  | prepare
  | chunk (ordinal : ℕ)
  deriving DecidableEq

/-- What fails in a call. -/
abbrev Faults : Type := Statement → Option String

/-- Every statement goes through. -/
def noFaults : Faults := fun _ => none

@[simp] theorem noFaults_apply (p : Statement) : noFaults p = none := rfl

/-- There is no id left. -/
def full : CorpusError := .sqlite "database or disk is full"

/-- A row that is referred to is not there. -/
def foreignKeyFailed : CorpusError := .sqlite "FOREIGN KEY constraint failed"

/-- There is a row with this key already. -/
def uniqueFailed : CorpusError := .sqlite "UNIQUE constraint failed"

namespace CorpusDb

/-- The tables as `migrate` makes them. -/
def new : CorpusDb :=
  ⟨Table.empty, Table.empty, Table.empty, fun _ h => (List.not_mem_nil h).elim,
    fun _ h => (List.not_mem_nil h).elim⟩

/-! ## Statements -/

/-- The title of a source. -/
def retitle (title : String) (id : ℤ) (r : SourceRow) : SourceRow :=
  if r.id = id then { r with title := some title } else r

@[simp] theorem retitle_id (title : String) (id : ℤ) (r : SourceRow) :
    (retitle title id r).id = r.id := by
  rw [retitle]
  split <;> rfl

@[simp] theorem retitle_key (title : String) (id : ℤ) (r : SourceRow) :
    sourceSchema.key (retitle title id r) = sourceSchema.key r := by
  rw [retitle]
  split <;> rfl

/-- `INSERT .. ON CONFLICT(kind, uri) DO UPDATE SET title=excluded.title` -/
def upsertSource (faults : Faults) (db : CorpusDb) (now : ℤ) (doc : NewCorpusDocument) :
    Except CorpusError CorpusDb :=
  match faults .source with
  | some message => .error (.sqlite message)
  | none =>
    if ¬db.sources.seq < maxRowid then .error full
    else
      match h : db.sources.byKey (sourceKindStr doc.sourceKind, doc.sourceUri) with
      | some s =>
        .ok { db with
          sources := (db.sources.modify (retitle doc.title s.id) (retitle_id doc.title s.id)
            (retitle_key doc.title s.id) (fun _ => rfl)).skip
          sourced := fun d hd => (db.sourced d hd).imp' (retitle doc.title s.id) fun _ hx =>
            ⟨List.mem_map_of_mem hx.1, (retitle_id doc.title s.id _).trans hx.2⟩ }
      | none =>
        .ok { db with
          sources := db.sources.insert ⟨db.sources.seq + 1, sourceKindStr doc.sourceKind,
            doc.sourceUri, some doc.title, now⟩ rfl (db.sources.byKey_eq_none.mp h)
            (fun _ _ _ h => nomatch h)
          sourced := fun d hd => (db.sourced d hd).imp fun _ hx =>
            ⟨List.mem_append_left _ hx.1, hx.2⟩ }

/-- The id of the source of a document, which is looked up after it was put in. -/
def sourceId (faults : Faults) (db : CorpusDb) (doc : NewCorpusDocument) : Except CorpusError ℤ :=
  match faults .sourceId with
  | some message => .error (.sqlite message)
  | none =>
    match db.sources.byKey (sourceKindStr doc.sourceKind, doc.sourceUri) with
    | some s => .ok s.id
    | none => .error (.sqlite "Query returned no rows")

section

variable [ContentHash]

/-- The row of a document. -/
def documentRow (db : CorpusDb) (now sourceId : ℤ) (doc : NewCorpusDocument) : DocumentRow where
  id := db.documents.seq + 1
  sourceId := sourceId
  externalId := doc.externalId
  title := doc.title
  uri := doc.sourceUri
  publishedTs := doc.publishedTs
  contentHash := ContentHash.blake3 (Bytes.ofString (String.ofList doc.text))
  createdTs := now

/-- The insert of the document, which is not there. -/
def insertDocument (faults : Faults) (db : CorpusDb) (now sourceId : ℤ) (doc : NewCorpusDocument) :
    Except CorpusError (CorpusDb × ℤ) :=
  match faults .document with
  | some message => .error (.sqlite message)
  | none =>
    if ¬db.documents.seq < maxRowid then .error full
    else
      match h : db.documents.byKey (sourceId, doc.externalId) with
      | some _ => .error uniqueFailed
      | none =>
        if hsource : ∃ s ∈ db.sources.rows, s.id = sourceId then
          .ok ({ db with
            documents := db.documents.insert (db.documentRow now sourceId doc) rfl
              (db.documents.byKey_eq_none.mp h) (fun _ _ _ h => nomatch h)
            sourced := by
              intro d hd
              rcases List.mem_append.mp hd with hold | hnew
              · exact db.sourced d hold
              · obtain rfl := List.mem_singleton.mp hnew
                exact hsource
            documented := fun c hc => (db.documented c hc).imp fun d hd =>
              ⟨List.mem_append_left _ hd.1, hd.2⟩ }, db.documents.seq + 1)
        else .error foreignKeyFailed

end

/-- A chunk is inserted under its document and place. -/
def insertChunk (faults : Faults) (db : CorpusDb) (docId : ℤ) (ordinal : ℕ) (c : Chunk) :
    Except CorpusError CorpusDb :=
  match faults (.chunk ordinal) with
  | some message => .error (.sqlite message)
  | none =>
    if ¬db.chunks.seq < maxRowid then .error full
    else
      match h : db.chunks.byKey (docId, ordinal) with
      | some _ => .error uniqueFailed
      | none =>
        if hdoc : ∃ d ∈ db.documents.rows, d.id = docId then
          .ok { db with
            chunks := db.chunks.insert
              ⟨db.chunks.seq + 1, docId, ordinal, c.text, c.start, c.stop⟩ rfl
              (db.chunks.byKey_eq_none.mp h) (fun _ _ _ h => nomatch h)
            documented := by
              intro x hx
              rcases List.mem_append.mp hx with hold | hnew
              · exact db.documented x hold
              · obtain rfl := List.mem_singleton.mp hnew
                exact hdoc }
        else .error foreignKeyFailed

/-- The loop over the chunks. -/
def insertChunks (faults : Faults) (db : CorpusDb) (docId : ℤ) :
    ℕ → List Chunk → CorpusDb × Except CorpusError Unit
  | _, [] => (db, .ok ())
  | ordinal, c :: rest =>
    match db.insertChunk faults docId ordinal c with
    | .error e => (db, .error e)
    | .ok db => insertChunks faults db docId (ordinal + 1) rest

/-! ## The call -/

section

variable [ContentHash]

/-- After the document row. -/
def putChunks (faults : Faults) (db : CorpusDb) (docId : ℤ) (doc : NewCorpusDocument) :
    CorpusDb × Except CorpusError ℤ :=
  match faults .prepare with
  | some message => (db, .error (.sqlite message))
  | none =>
    match db.insertChunks faults docId 0 (chunksWithSpans doc.text) with
    | (db, .error e) => (db, .error e)
    | (db, .ok ()) => (db, .ok docId)

/-- After the source row. -/
def putDocument (faults : Faults) (db : CorpusDb) (now : ℤ) (doc : NewCorpusDocument) :
    CorpusDb × Except CorpusError ℤ :=
  match db.sourceId faults doc with
  | .error e => (db, .error e)
  | .ok sourceId =>
    match faults .lookup with
    | some message => (db, .error (.sqlite message))
    | none =>
      match db.documents.byKey (sourceId, doc.externalId) with
      | some existing => (db, .ok existing.id)
      | none =>
        match db.insertDocument faults now sourceId doc with
        | .error e => (db, .error e)
        | .ok (db, docId) => db.putChunks faults docId doc

/-- `put_corpus_document`: the source, the document, and its chunks anew. -/
def putCorpusDocument (faults : Faults) (db : CorpusDb) (now : ℤ) (doc : NewCorpusDocument) :
    CorpusDb × Except CorpusError ℤ :=
  if (trim doc.text).isEmpty then (db, .error (.other "corpus document text is empty"))
  else
    match faults .migrate with
    | some message => (db, .error (.sqlite message))
    | none =>
      match db.upsertSource faults now doc with
      | .error e => (db, .error e)
      | .ok db => db.putDocument faults now doc

end

/-! ## The document and its chunks -/

/-- The id of the source of a document. -/
def sourceIdOf (db : CorpusDb) (doc : NewCorpusDocument) : Option ℤ :=
  (db.sources.byKey (sourceKindStr doc.sourceKind, doc.sourceUri)).map SourceRow.id

/-- The row that a document has already. -/
def documentOf (db : CorpusDb) (doc : NewCorpusDocument) : Option DocumentRow :=
  (db.sourceIdOf doc).bind fun i => db.documents.byKey (i, doc.externalId)

theorem documentOf_of_source {db : CorpusDb} {doc : NewCorpusDocument} {s : SourceRow}
    (h : db.sources.byKey (sourceKindStr doc.sourceKind, doc.sourceUri) = some s) :
    db.documentOf doc = db.documents.byKey (s.id, doc.externalId) := by
  simp [documentOf, sourceIdOf, h]

theorem documentOf_of_none {db : CorpusDb} {doc : NewCorpusDocument}
    (h : db.sources.byKey (sourceKindStr doc.sourceKind, doc.sourceUri) = none) :
    db.documentOf doc = none := by
  simp [documentOf, sourceIdOf, h]

/-- Chunks, numbered from an ordinal. -/
def numbered : ℕ → List Chunk → List (ℕ × Chunk)
  | _, [] => []
  | ordinal, c :: rest => (ordinal, c) :: numbered (ordinal + 1) rest

@[simp] theorem length_numbered (ordinal : ℕ) (chunks : List Chunk) :
    (numbered ordinal chunks).length = chunks.length := by
  induction chunks generalizing ordinal with
  | nil => rfl
  | cons c rest ih => simp [numbered, ih]

/-- The chunks that are stored for a document. -/
def chunksOf (db : CorpusDb) (docId : ℤ) : List (ℕ × Chunk) :=
  (db.chunks.rows.filter fun r => r.documentId = docId).map fun r =>
    (r.ordinal, r.text, r.start, r.stop)

section

variable [ContentHash]

/-- The document has its row with this id, and all of its chunks. -/
structure Stored (db : CorpusDb) (id : ℤ) (doc : NewCorpusDocument) : Prop where
  document : ∃ d ∈ db.documentOf doc, d.id = id ∧ d.title = doc.title ∧ d.uri = doc.sourceUri ∧
    d.publishedTs = doc.publishedTs ∧
    d.contentHash = ContentHash.blake3 (Bytes.ofString (String.ofList doc.text))
  chunks : db.chunksOf id = numbered 0 (chunksWithSpans doc.text)

end

/-- The statements after the source row get to the row of a document that is not there. -/
structure InsertsDocument (faults : Faults) (db : CorpusDb) (doc : NewCorpusDocument) : Prop where
  statements : ∀ p ∈ [Statement.sourceId, .lookup, .document], faults p = none
  documents : db.documents.seq < maxRowid
  new : db.documentOf doc = none

/-- The call gets to the row of a document that is not there. -/
structure Inserts (faults : Faults) (db : CorpusDb) (doc : NewCorpusDocument) : Prop
    extends InsertsDocument faults db doc where
  text : (trim doc.text).isEmpty = false
  migrate : faults .migrate = none
  source : faults .source = none
  sources : db.sources.seq < maxRowid

/-- The source is there, and no document of it came or went. -/
theorem upsertSource_ok {faults : Faults} {db db' : CorpusDb} {now : ℤ} {doc : NewCorpusDocument}
    (h : db.upsertSource faults now doc = .ok db') :
    faults .source = none ∧ db.sources.seq < maxRowid ∧ db'.sources.seq = db.sources.seq + 1 ∧
      db'.documents = db.documents ∧ db'.chunks = db.chunks ∧
      (∃ i, db'.sourceIdOf doc = some i) ∧ db'.documentOf doc = db.documentOf doc := by
  rw [upsertSource] at h
  split at h
  next => cases h
  next hfault =>
    split_ifs at h with hroom
    split at h
    next s hs =>
      cases h
      obtain ⟨hmem, hkey⟩ := db.sources.byKey_eq_some.mp hs
      have hsource : (db.sources.modify (retitle doc.title s.id) (retitle_id doc.title s.id)
          (retitle_key doc.title s.id) (fun _ => rfl)).skip.byKey
            (sourceKindStr doc.sourceKind, doc.sourceUri) = some (retitle doc.title s.id s) :=
        (Table.byKey_eq_some _).mpr
          ⟨List.mem_map_of_mem hmem, (retitle_key doc.title s.id s).trans hkey⟩
      refine ⟨hfault, hroom, rfl, rfl, rfl, ⟨_, congrArg (Option.map SourceRow.id) hsource⟩, ?_⟩
      rw [documentOf_of_source hsource, documentOf_of_source hs, retitle_id]
    next hnone =>
      cases h
      -- the new source has no documents
      have hfresh : db.documents.byKey (db.sources.seq + 1, doc.externalId) = none := by
        refine db.documents.byKey_eq_none.mpr fun d hd hkey => ?_
        obtain ⟨s, hs, hid⟩ := db.sourced d hd
        have hle : s.id ≤ db.sources.seq := db.sources.le_seq s hs
        have heq : d.sourceId = db.sources.seq + 1 := congrArg Prod.fst hkey
        omega
      have hsource : (db.sources.insert ⟨db.sources.seq + 1, sourceKindStr doc.sourceKind,
          doc.sourceUri, some doc.title, now⟩ rfl (db.sources.byKey_eq_none.mp hnone)
          (fun _ _ _ h => nomatch h)).byKey (sourceKindStr doc.sourceKind, doc.sourceUri) =
            some ⟨db.sources.seq + 1, sourceKindStr doc.sourceKind, doc.sourceUri, some doc.title,
              now⟩ :=
        (Table.byKey_eq_some _).mpr ⟨List.mem_append_right _ (List.mem_singleton_self _), rfl⟩
      refine ⟨hfault, hroom, rfl, rfl, rfl, ⟨_, congrArg (Option.map SourceRow.id) hsource⟩, ?_⟩
      exact (documentOf_of_source hsource).trans (hfresh.trans (documentOf_of_none hnone).symm)

theorem upsertSource_succeeds {faults : Faults} {db : CorpusDb} (hfault : faults .source = none)
    (hroom : db.sources.seq < maxRowid) (now : ℤ) (doc : NewCorpusDocument) :
    ∃ db', db.upsertSource faults now doc = .ok db' := by
  rw [upsertSource, hfault]
  simp only
  rw [if_neg (not_not.mpr hroom)]
  split
  next => exact ⟨_, rfl⟩
  next => exact ⟨_, rfl⟩

/-- What an insert of chunks does to the chunks of its document, and to nothing else. -/
theorem insertChunks_cases (faults : Faults) (docId : ℤ) (ordinal : ℕ) (chunks : List Chunk)
    (db : CorpusDb) :
    ∃ db', db'.documents = db.documents ∧ db'.sources = db.sources ∧
      ((db.insertChunks faults docId ordinal chunks = (db', .ok ()) ∧
          db'.chunksOf docId = db.chunksOf docId ++ numbered ordinal chunks) ∨
        ∃ e, db.insertChunks faults docId ordinal chunks = (db', .error e) ∧
          (db'.chunksOf docId).length < (db.chunksOf docId).length + chunks.length) := by
  induction chunks generalizing ordinal db with
  | nil => exact ⟨db, rfl, rfl, .inl ⟨rfl, (List.append_nil _).symm⟩⟩
  | cons c rest ih =>
    rw [insertChunks]
    cases hinsert : db.insertChunk faults docId ordinal c with
    | error e => exact ⟨db, rfl, rfl, .inr ⟨e, rfl, by simp⟩⟩
    | ok mid =>
      have hmid : mid.documents = db.documents ∧ mid.sources = db.sources ∧
          mid.chunksOf docId = db.chunksOf docId ++ [(ordinal, c)] := by
        rw [insertChunk] at hinsert
        split at hinsert
        · cases hinsert
        · split at hinsert
          · cases hinsert
          · split at hinsert
            · cases hinsert
            · split at hinsert
              · cases hinsert
                refine ⟨rfl, rfl, ?_⟩
                simp [chunksOf, Chunk.text, Chunk.start, Chunk.stop]
              · cases hinsert
      obtain ⟨hdocuments, hsources, hchunks⟩ := hmid
      obtain ⟨db', hdocuments', hsources', hcases⟩ := ih (ordinal + 1) mid
      refine ⟨db', hdocuments'.trans hdocuments, hsources'.trans hsources, ?_⟩
      rcases hcases with ⟨hok, hrest⟩ | ⟨e, herror, hless⟩
      · refine .inl ⟨hok, ?_⟩
        rw [hrest, hchunks, numbered, List.append_assoc, List.singleton_append]
      · refine .inr ⟨e, herror, ?_⟩
        rw [hchunks, List.length_append, List.length_singleton] at hless
        rw [List.length_cons]
        omega

section

variable [ContentHash]

/-- What the insert of a document did. -/
theorem insertDocument_ok {faults : Faults} {db db' : CorpusDb} {now sourceId docId : ℤ}
    {doc : NewCorpusDocument}
    (h : db.insertDocument faults now sourceId doc = .ok (db', docId)) :
    faults .document = none ∧ db.documents.seq < maxRowid ∧ db'.sources = db.sources ∧
      db'.documents.byKey (sourceId, doc.externalId) = some (db.documentRow now sourceId doc) ∧
      docId = (db.documentRow now sourceId doc).id ∧ db'.chunks = db.chunks ∧
      db'.chunksOf docId = [] := by
  rw [insertDocument] at h
  split at h
  next => cases h
  next hfault =>
    split at h
    next => cases h
    next hroom =>
      split at h
      next => cases h
      next hnone =>
        split at h
        next =>
          cases h
          refine ⟨hfault, not_not.mp hroom, rfl, ?_, rfl, rfl, ?_⟩
          · exact (Table.byKey_eq_some _).mpr
              ⟨List.mem_append_right _ (List.mem_singleton_self _), rfl⟩
          · -- no chunk has the id of a document that was not there
            rw [chunksOf, List.map_eq_nil_iff, List.filter_eq_nil_iff]
            intro c hc hid
            obtain ⟨d, hd, hdid⟩ := db.documented c hc
            have hle : d.id ≤ db.documents.seq := db.documents.le_seq d hd
            have heq : c.documentId = db.documents.seq + 1 := of_decide_eq_true hid
            omega
        next => cases h

/-- The insert of a new document succeeds if nothing fails and there is room. -/
theorem insertDocument_succeeds {faults : Faults} {db : CorpusDb} {doc : NewCorpusDocument}
    {s : SourceRow} (hs : s ∈ db.sources.rows) (hfault : faults .document = none)
    (hroom : db.documents.seq < maxRowid)
    (hnew : db.documents.byKey (s.id, doc.externalId) = none) (now : ℤ) :
    ∃ p, db.insertDocument faults now s.id doc = .ok p := by
  rw [insertDocument, hfault]
  simp only
  rw [if_neg (not_not.mpr hroom)]
  split
  next hfound => cases hnew.symm.trans hfound
  next => exact ⟨_, dif_pos ⟨s, hs, rfl⟩⟩

end

/-- A text that is not blank has a chunk. -/
theorem chunksWithSpans_ne_nil {text : Text} (h : (trim text).isEmpty = false) :
    chunksWithSpans text ≠ [] := by
  rw [chunksWithSpans]
  split
  next => simp [h]
  next hne => simpa using hne

section

variable [ContentHash]

/-- What a call does where the source is there: it fails before the row of the document, it finds
the row, or it inserts the row and goes on to the chunks. -/
theorem putDocument_cases (faults : Faults) {db : CorpusDb} (now : ℤ) {i : ℤ}
    {doc : NewCorpusDocument} (hsource : db.sourceIdOf doc = some i) :
    (¬InsertsDocument faults db doc ∧ ∃ e, db.putDocument faults now doc = (db, .error e)) ∨
      (∃ d, db.documentOf doc = some d ∧ db.putDocument faults now doc = (db, .ok d.id)) ∨
      InsertsDocument faults db doc ∧ ∃ mid : CorpusDb,
        mid.documentOf doc = some (db.documentRow now i doc) ∧
        mid.chunksOf (db.documentRow now i doc).id = [] ∧ mid.chunks = db.chunks ∧
        db.putDocument faults now doc = mid.putChunks faults (db.documentRow now i doc).id doc := by
  obtain ⟨s, hs, rfl⟩ := Option.map_eq_some_iff.mp hsource
  have hdocument := documentOf_of_source hs
  rw [putDocument, sourceId, hs]
  cases hid : faults .sourceId with
  | some message =>
    refine .inl ⟨fun h => ?_, _, rfl⟩
    cases hid.symm.trans (h.statements _ (by simp))
  | none =>
    cases hlookup : faults .lookup with
    | some message =>
      refine .inl ⟨fun h => ?_, _, rfl⟩
      cases hlookup.symm.trans (h.statements _ (by simp))
    | none =>
      cases hfound : db.documents.byKey (s.id, doc.externalId) with
      | some d => exact .inr (.inl ⟨d, hdocument.trans hfound, by simp only [hfound]⟩)
      | none =>
        simp only [hfound]
        cases hinsert : db.insertDocument faults now s.id doc with
        | error e =>
          refine .inl ⟨fun h => ?_, e, rfl⟩
          obtain ⟨p, hp⟩ := insertDocument_succeeds (db.sources.byKey_eq_some.mp hs).1
            (h.statements .document (by simp)) h.documents hfound now
          cases hinsert.symm.trans hp
        | ok p =>
          obtain ⟨mid, docId⟩ := p
          obtain ⟨hfault, hroom, hsources, hrow, rfl, hchunks, hnone⟩ := insertDocument_ok hinsert
          refine .inr (.inr ⟨⟨?_, hroom, hdocument.trans hfound⟩, mid, ?_, hnone, hchunks, rfl⟩)
          · simp [hid, hlookup, hfault]
          · rw [← hrow]
            refine documentOf_of_source ?_
            rw [hsources, hs]

/-- After the row of the document, which has no chunks yet. -/
theorem putChunks_cases (faults : Faults) {db mid : CorpusDb} {now i : ℤ}
    {doc : NewCorpusDocument} (hrow : mid.documentOf doc = some (db.documentRow now i doc))
    (hnone : mid.chunksOf (db.documentRow now i doc).id = [])
    (htext : (trim doc.text).isEmpty = false) :
    ∃ db', db'.documentOf doc = some (db.documentRow now i doc) ∧
      ((mid.putChunks faults (db.documentRow now i doc).id doc =
            (db', .ok (db.documentRow now i doc).id) ∧
          Stored db' (db.documentRow now i doc).id doc) ∨
        ∃ e, mid.putChunks faults (db.documentRow now i doc).id doc = (db', .error e) ∧
          (db'.chunksOf (db.documentRow now i doc).id).length <
            (chunksWithSpans doc.text).length) := by
  rw [putChunks]
  cases hprepare : faults .prepare with
  | some message =>
    refine ⟨mid, hrow, .inr ⟨_, rfl, ?_⟩⟩
    rw [hnone]
    exact List.length_pos_iff.mpr (chunksWithSpans_ne_nil htext)
  | none =>
    obtain ⟨db', hdocuments, hsources, ⟨hok, hchunks⟩ | ⟨e, herror, hless⟩⟩ :=
      insertChunks_cases faults (db.documentRow now i doc).id 0 (chunksWithSpans doc.text) mid
    · have hsame : db'.documentOf doc = some (db.documentRow now i doc) := by
        rw [documentOf, sourceIdOf, hdocuments, hsources]
        exact hrow
      refine ⟨db', hsame, .inl ⟨by simp only [hok], ⟨_, hsame, rfl, rfl, rfl, rfl, rfl⟩, ?_⟩⟩
      rw [hchunks, hnone, List.nil_append]
    · refine ⟨db', ?_, .inr ⟨e, by simp only [herror], ?_⟩⟩
      · rw [documentOf, sourceIdOf, hdocuments, hsources]
        exact hrow
      · rwa [hnone, List.length_nil, Nat.zero_add] at hless

/-- What a call that fails leaves: the documents as they were, or one that lacks chunks. -/
theorem putCorpusDocument_error {faults : Faults} {db db' : CorpusDb} {now : ℤ}
    {doc : NewCorpusDocument} {e : CorpusError}
    (h : db.putCorpusDocument faults now doc = (db', .error e)) :
    (¬Inserts faults db doc ∧ db'.documentOf doc = db.documentOf doc ∧ db'.chunks = db.chunks) ∨
      Inserts faults db doc ∧ ∃ d, db'.documentOf doc = some d ∧
        (db'.chunksOf d.id).length < (chunksWithSpans doc.text).length := by
  rw [putCorpusDocument] at h
  split at h
  next hblank =>
    cases h
    exact .inl ⟨fun h => Bool.false_ne_true (h.text.symm.trans hblank), rfl, rfl⟩
  next htext =>
    split at h
    next message hfault =>
      cases h
      refine .inl ⟨fun h => ?_, rfl, rfl⟩
      cases hfault.symm.trans h.migrate
    next hmigrate =>
      split at h
      next e' hupsert =>
        cases h
        refine .inl ⟨fun h => ?_, rfl, rfl⟩
        obtain ⟨mid, hmid⟩ := upsertSource_succeeds h.source h.sources now doc
        cases hupsert.symm.trans hmid
      next mid hupsert =>
        obtain ⟨hfault, hroom, -, hdocuments, hchunks, ⟨i, hsource⟩, hsame⟩ :=
          upsertSource_ok hupsert
        rcases putDocument_cases faults now hsource with
          ⟨hnot, e', herror⟩ | ⟨d, -, hfound⟩ | ⟨hinserts, last, hrow, hnone, -, hput⟩
        · cases herror.symm.trans h
          refine .inl ⟨fun h => hnot ⟨h.statements, ?_, hsame.trans h.new⟩, hsame, hchunks⟩
          exact hdocuments ▸ h.documents
        · cases hfound.symm.trans h
        · rw [hput] at h
          have htext : (trim doc.text).isEmpty = false := by simpa using htext
          obtain ⟨db'', hlast, ⟨hok, -⟩ | ⟨e', herror, hless⟩⟩ :=
            putChunks_cases faults hrow hnone htext
          · cases hok.symm.trans h
          · cases herror.symm.trans h
            refine .inr ⟨⟨⟨hinserts.statements, ?_, hsame ▸ hinserts.new⟩, htext, hmigrate, hfault,
              hroom⟩, _, hlast, hless⟩
            exact hdocuments ▸ hinserts.documents

/-- What a call that succeeds has found or stored. -/
theorem putCorpusDocument_ok {faults : Faults} {db db' : CorpusDb} {now id : ℤ}
    {doc : NewCorpusDocument} (h : db.putCorpusDocument faults now doc = (db', .ok id)) :
    (∃ d, db.documentOf doc = some d ∧ d.id = id ∧ db'.documentOf doc = some d ∧
        db'.chunks = db.chunks) ∨
      db.documentOf doc = none ∧ Stored db' id doc := by
  rw [putCorpusDocument] at h
  split at h
  next => cases h
  next htext =>
    split at h
    next => cases h
    next =>
      split at h
      next => cases h
      next mid hupsert =>
        obtain ⟨-, -, -, -, hchunks, ⟨i, hsource⟩, hsame⟩ := upsertSource_ok hupsert
        rcases putDocument_cases faults now hsource with
          ⟨-, e, herror⟩ | ⟨d, hd, hfound⟩ | ⟨hinserts, last, hrow, hnone, -, hput⟩
        · cases herror.symm.trans h
        · cases hfound.symm.trans h
          exact .inl ⟨d, hsame ▸ hd, rfl, hd, hchunks⟩
        · rw [hput] at h
          obtain ⟨db'', -, ⟨hok, hstored⟩ | ⟨e, herror, -⟩⟩ :=
            putChunks_cases faults hrow hnone (by simpa using htext)
          · cases hok.symm.trans h
            exact .inr ⟨hsame ▸ hinserts.new, hstored⟩
          · cases herror.symm.trans h

/-! ## Repeating a call -/

/-- Whether a document is stored depends on its row and on its chunks. -/
theorem Stored.congr {db db' : CorpusDb} {id : ℤ} {doc : NewCorpusDocument}
    (hdocument : db'.documentOf doc = db.documentOf doc) (hchunks : db'.chunks = db.chunks) :
    Stored db' id doc ↔ Stored db id doc := by
  constructor
  · rintro ⟨hrow, hall⟩
    rw [hdocument] at hrow
    rw [chunksOf, hchunks] at hall
    exact ⟨hrow, hall⟩
  · rintro ⟨hrow, hall⟩
    rw [chunksOf, ← hchunks] at hall
    exact ⟨hdocument ▸ hrow, hall⟩

/-- There are ids for the rows of the document. -/
structure Room (db : CorpusDb) (doc : NewCorpusDocument) : Prop where
  sources : db.sources.seq < maxRowid
  documents : db.documents.seq < maxRowid
  chunks : db.chunks.seq + (chunksWithSpans doc.text).length ≤ maxRowid

omit [ContentHash] in
/-- The chunks of a new document are inserted if there is room. -/
theorem insertChunks_succeeds {docId : ℤ} {ordinal : ℕ} {chunks : List Chunk} {db : CorpusDb}
    (hroom : db.chunks.seq + chunks.length ≤ maxRowid)
    (hdoc : ∃ d ∈ db.documents.rows, d.id = docId)
    (hfree : ∀ c ∈ db.chunks.rows, c.documentId = docId → c.ordinal < ordinal) :
    ∃ db', db.insertChunks noFaults docId ordinal chunks = (db', .ok ()) := by
  induction chunks generalizing ordinal db with
  | nil => exact ⟨db, rfl⟩
  | cons c rest ih =>
    rw [List.length_cons] at hroom
    push_cast at hroom
    have hless : db.chunks.seq < maxRowid := by omega
    have hnew : db.chunks.byKey (docId, ordinal) = none := by
      refine db.chunks.byKey_eq_none.mpr fun x hx hkey => ?_
      obtain ⟨hid, hordinal⟩ := Prod.mk.inj hkey
      exact absurd hordinal (hfree x hx hid).ne
    obtain ⟨mid, hinsert, hseq, hrows, hdocuments⟩ : ∃ mid,
        db.insertChunk noFaults docId ordinal c = .ok mid ∧
          mid.chunks.seq = db.chunks.seq + 1 ∧
          mid.chunks.rows = db.chunks.rows ++
            [⟨db.chunks.seq + 1, docId, ordinal, c.text, c.start, c.stop⟩] ∧
          mid.documents = db.documents := by
      rw [insertChunk]
      simp only [noFaults_apply]
      rw [if_neg (not_not.mpr hless)]
      split
      next hfound => cases hnew.symm.trans hfound
      next => exact ⟨_, dif_pos hdoc, rfl, rfl, rfl⟩
    rw [insertChunks, hinsert]
    refine ih ?_ (hdocuments ▸ hdoc) fun x hx hid => ?_
    · rw [hseq]
      omega
    · rw [hrows] at hx
      rcases List.mem_append.mp hx with hold | hlast
      · exact (hfree x hold hid).trans (Nat.lt_succ_self ordinal)
      · obtain rfl := List.mem_singleton.mp hlast
        exact Nat.lt_succ_self ordinal

/-- A call whose statements go through returns an id. -/
theorem putCorpusDocument_succeeds {db : CorpusDb} {doc : NewCorpusDocument}
    (htext : (trim doc.text).isEmpty = false) (hroom : Room db doc) (now : ℤ) :
    ∃ db' id, db.putCorpusDocument noFaults now doc = (db', .ok id) := by
  have hfault : noFaults .source = none := rfl
  obtain ⟨mid, hupsert⟩ := upsertSource_succeeds hfault hroom.sources now doc
  obtain ⟨-, -, -, hdocuments, hchunks, ⟨i, hsource⟩, -⟩ := upsertSource_ok hupsert
  have hput : db.putCorpusDocument noFaults now doc =
      mid.putDocument noFaults now doc := by
    simp only [putCorpusDocument, htext, Bool.false_eq_true, if_false, noFaults_apply, hupsert]
  obtain ⟨s, hs, rfl⟩ := Option.map_eq_some_iff.mp hsource
  rw [hput, putDocument, sourceId, hs]
  simp only [noFaults_apply]
  cases hfound : mid.documents.byKey (s.id, doc.externalId) with
  | some d => exact ⟨mid, d.id, rfl⟩
  | none =>
    obtain ⟨⟨last, docId⟩, hinsert⟩ := insertDocument_succeeds (mid.sources.byKey_eq_some.mp hs).1
      (show noFaults .document = none from rfl) (hdocuments ▸ hroom.documents) hfound now
    obtain ⟨-, -, -, hrow, rfl, hsame, hnone⟩ := insertDocument_ok hinsert
    have hchunkRoom : last.chunks.seq + (chunksWithSpans doc.text).length ≤ maxRowid := by
      rw [hsame, hchunks]
      exact hroom.chunks
    have hfree : ∀ c ∈ last.chunks.rows, c.documentId = (mid.documentRow now s.id doc).id →
        c.ordinal < 0 := by
      intro c hc hid
      rw [chunksOf, List.map_eq_nil_iff, List.filter_eq_nil_iff] at hnone
      exact absurd (decide_eq_true hid) (hnone c hc)
    obtain ⟨db', hloop⟩ := insertChunks_succeeds hchunkRoom
      ⟨_, (last.documents.byKey_eq_some.mp hrow).1, rfl⟩ hfree
    refine ⟨db', (mid.documentRow now s.id doc).id, ?_⟩
    simp only [noFaults_apply, hinsert, putChunks, hloop]

/-- **When a repeated call makes good what a failed one left.** -/
theorem retry_stored_iff {faults : Faults} {db db' : CorpusDb} {now : ℤ} {doc : NewCorpusDocument}
    {e : CorpusError} (h : db.putCorpusDocument faults now doc = (db', .error e)) :
    (∀ faults' now' db'' id, db'.putCorpusDocument faults' now' doc = (db'', .ok id) →
        (Stored db'' id doc ↔
          ¬Inserts faults db doc ∧ ∀ d ∈ db.documentOf doc, Stored db d.id doc)) ∧
      ((trim doc.text).isEmpty = false → Room db' doc →
        ∀ now', ∃ db'' id, db'.putCorpusDocument noFaults now' doc = (db'', .ok id)) := by
  refine ⟨fun faults' now' db'' id hretry => ?_, fun htext hroom now' =>
    putCorpusDocument_succeeds htext hroom now'⟩
  rcases putCorpusDocument_error h with
    ⟨hnot, hsame, hchunks⟩ | ⟨hinserts, d, hd, hless⟩
  · rw [and_iff_right hnot]
    rcases putCorpusDocument_ok hretry with ⟨d, hd, rfl, hd', hchunks'⟩ | ⟨hnone, hstored⟩
    · rw [Stored.congr (hd'.trans (hd.symm.trans hsame)) (hchunks'.trans hchunks), ← hsame, hd]
      simp
    · rw [← hsame, hnone]
      simp [hstored]
  · refine iff_of_false (fun hstored => ?_) fun hcond => hcond.1 hinserts
    rcases putCorpusDocument_ok hretry with ⟨d', hd', rfl, hd'', hchunks'⟩ | ⟨hnone, -⟩
    · -- the retry finds the row and writes no chunk
      obtain rfl : d = d' := Option.some.inj (hd.symm.trans hd')
      have hall := hstored.chunks
      rw [chunksOf, hchunks', ← chunksOf] at hall
      rw [hall, length_numbered] at hless
      exact lt_irrefl _ hless
    · cases hd.symm.trans hnone

end

/-- A text of two chunks. -/
def twoChunks : NewCorpusDocument where
  sourceKind := .text
  sourceUri := "notes"
  externalId := "1"
  title := "Notes"
  text := ['a', '\n', '\n', 'b']
  publishedTs := none

/-- One statement fails. -/
def failsAt (p : Statement) : Faults := fun q => if q = p then some "disk I/O error" else none

/-- A lookup fails after the document was written. The next call repairs it. -/
theorem lookup_failure_repaired :
    let _ := ContentHash.checksum
    ∃ db' id, ((new.putCorpusDocument (failsAt .lookup) 5 twoChunks).1.putCorpusDocument
      noFaults 6 twoChunks) = (db', .ok id) ∧ Stored db' id twoChunks := by
  intro _
  have hfails : new.putCorpusDocument (failsAt .lookup) 5 twoChunks =
      ((new.putCorpusDocument (failsAt .lookup) 5 twoChunks).1,
        .error (.sqlite "disk I/O error")) := rfl
  obtain ⟨hiff, hgoes⟩ := retry_stored_iff hfails
  obtain ⟨db', id, hretry⟩ := hgoes (by decide) ⟨by decide, by decide, by decide⟩ 6
  refine ⟨db', id, hretry, (hiff _ 6 db' id hretry).mpr ⟨fun h => ?_, fun d hd => ?_⟩⟩
  · cases h.statements .lookup (by simp)
  · exact (Option.not_mem_none d hd).elim

/-- The second chunk fails, and the repeated call does not write it. -/
theorem chunk_failure_kept :
    let _ := ContentHash.checksum
    ∃ db db' e id, new.putCorpusDocument (failsAt (.chunk 1)) 5 twoChunks = (db, .error e) ∧
      db.putCorpusDocument noFaults 6 twoChunks = (db', .ok id) ∧
      ¬Stored db' id twoChunks := by
  intro _
  refine ⟨_, _, _, _, rfl, rfl, fun h => ?_⟩
  exact absurd h.chunks (by decide)

end CorpusDb

end SynapseMemory.Corpus
