import SynapseMemory.Table
import SynapseMemory.Proto
import SynapseMemory.Text

/-!
# The document store

The model of `Store` of `synapse-core`: the tables `docs` and `docs_vec`, and the commands its
triggers and statements gave to the full-text index `docs_fts`. A document is stored once for each
hash of a text. Two documents do not share a uri either, so an insert can fail.

Statements that run in one transaction are one function here, and a failed one returns no store: the
transaction is dropped and the caller goes on with the store it had. A delete fails when the
full-text index has not enough rows or tokens left to be told twice (`delete_isOk_iff`). The rows
that a put adds to the tables of the extraction pipeline are left out, and so are the indexes
outside the database. The stores that have them (`MemoryStore`, `AnnStore`, `TantivyStore`) run
their database as this one (`run_db`).
-/

namespace SynapseMemory

open Proto

/-- The hash function of the store, and its digests. -/
class Blake3 where
  Digest : Type
  decEq : DecidableEq Digest
  hash : String → Digest

attribute [reducible, instance] Blake3.decEq

/-- Texts as their own digests. -/
@[reducible] def Blake3.identity : Blake3 := ⟨String, inferInstance, id⟩

/-- `PutRequest` -/
structure PutRequest where
  uri : Option String
  title : Option String
  text : String
  meta_ : Option Json
  embedding : Option (List F32)

namespace Store

/-- `Error` -/
inductive Error where
  | sqlite (message : String)
  | dimMismatch (expected got : ℕ)
  | other (message : String)
  deriving DecidableEq

/-- A command to the full-text index. -/
inductive FtsCommand where
  /-- `INSERT INTO docs_fts(rowid, title, text)` -/
  | insert (rowid : ℤ) (title : Option String) (text : String)
  /-- The `'delete'` command, or a `DELETE` that reads the row of `docs`. -/
  | delete (rowid : ℤ) (title : Option String) (text : String)
  deriving DecidableEq

/-- The tokenizer of the index. -/
class Tokenizer where
  tokens : String → List String

/-- The words between blanks. -/
@[reducible] def Tokenizer.blanks : Tokenizer :=
  ⟨fun text => (Text.splitWhitespace text.toList).map String.ofList⟩

section Totals

/-- What the commands come to when each row counts for a number: the inserts less the deletes. -/
def ftsTotal (weight : Option String → String → ℕ) (log : List FtsCommand) : ℤ :=
  (log.map fun
    | .insert _ title text => (weight title text : ℤ)
    | .delete _ title text => -(weight title text : ℤ)).sum

/-- The number of rows the index keeps. -/
def ftsRows : List FtsCommand → ℤ := ftsTotal fun _ _ => 1

variable [Tokenizer]

/-- The tokens of the column `title`. -/
def titleTokens (title : Option String) : List String := (title.map Tokenizer.tokens).getD []

/-- The tokens of the two columns of a row. -/
def tokensOf (title : Option String) (text : String) : List String :=
  titleTokens title ++ Tokenizer.tokens text

/-- The size the index keeps of the column `title`. -/
def ftsTitleSize : List FtsCommand → ℤ := ftsTotal fun title _ => (titleTokens title).length

/-- The size the index keeps of the column `text`. -/
def ftsTextSize : List FtsCommand → ℤ := ftsTotal fun _ text => (Tokenizer.tokens text).length

/-- What the index reports when its totals do not fit what it is told. -/
def malformed : Error := .sqlite "database disk image is malformed"

/-- Give the index a delete command. It takes the row off its totals, none of which may fall below
zero. -/
def ftsDelete (log : List FtsCommand) (d : Doc) : Except Error (List FtsCommand) :=
  let told := log ++ [.delete d.id d.title d.text]
  if 0 ≤ ftsTitleSize told ∧ 0 ≤ ftsTextSize told ∧ 0 ≤ ftsRows told then .ok told
  else .error malformed

end Totals

/-- `EMBED_DIM` -/
def embedDim : ℕ := 384

/-- `f32::is_finite`: the exponent is not all ones. -/
def isFinite (x : F32) : Bool := x.extractLsb' 23 8 != 255#8

/-- The checks of an embedding at the store boundary. -/
def checkEmbedding : Option (List F32) → Except Error Unit
  | none => .ok ()
  | some e =>
    if e.length ≠ embedDim then .error (.dimMismatch embedDim e.length)
    else if !e.all isFinite then .error (.other "embedding contains non-finite values")
    else .ok ()

end Store

/-- The constraints on `docs`: the digest of the text and the uri are unique. -/
def docSchema [Blake3] : Schema Doc Blake3.Digest String where
  id := Doc.id
  key := fun d => Blake3.hash d.text
  alt := Doc.uri

/-- The last id SQLite can give out. -/
def maxRowid : ℤ := 2 ^ 63 - 1

/-- The database of a store. -/
structure Store [Blake3] where
  docs : Table docSchema
  vecs : List (ℤ × List F32)
  /-- What the full-text index was told, in order. -/
  fts : List Store.FtsCommand
  seq_le : docs.seq ≤ maxRowid
  vecs_le : ∀ v ∈ vecs, v.1 ≤ docs.seq

namespace Store

variable [Blake3]

/-- A new database. -/
def empty : Store where
  docs := Table.empty
  vecs := []
  fts := []
  seq_le := by
    change (0 : ℤ) ≤ maxRowid
    decide
  vecs_le := by simp

/-- A row with this uri can be inserted: there is an id left, and no row has the uri. -/
def Free (s : Store) (uri : Option String) : Prop := s.docs.seq < maxRowid ∧ ¬s.docs.Taken uri

instance (s : Store) (uri : Option String) : Decidable (s.Free uri) :=
  inferInstanceAs (Decidable (s.docs.seq < maxRowid ∧ ¬s.docs.Taken uri))

/-- The row with the hash of a text. -/
def byText (s : Store) (text : String) : Option Doc := s.docs.byKey (Blake3.hash text)

/-- The row a request asks for. -/
def newDoc (s : Store) (now : ℤ) (req : PutRequest) : Doc where
  id := s.docs.seq + 1
  uri := req.uri
  title := req.title
  text := req.text
  meta_ := req.meta_
  ts := now

/-- The two `INSERT` statements of a put, with the trigger `docs_ai`. -/
def insertDoc (s : Store) (now : ℤ) (req : PutRequest) : Except Error (Store × ℤ) :=
  if hseq : ¬s.docs.seq < maxRowid then .error (.sqlite "database or disk is full")
  else if hkey : s.byText req.text = none then
    if halt : s.docs.Taken req.uri then .error (.sqlite "UNIQUE constraint failed: docs.uri")
    else
      let d := s.newDoc now req
      .ok ({ docs := s.docs.insert d rfl (s.docs.byKey_eq_none.mp hkey) (by
               intro x hx a hxa hda
               exact halt ⟨by rw [show req.uri = some a from hda]; simp, x, hx,
                 hxa.trans hda.symm⟩)
             vecs := s.vecs ++ (req.embedding.map (d.id, ·)).toList
             fts := s.fts ++ [.insert d.id d.title d.text]
             seq_le := Int.add_one_le_of_lt (not_not.mp hseq)
             vecs_le := by
               intro v hv
               rcases List.mem_append.mp hv with hv | hv
               · exact (s.vecs_le v hv).trans (Int.le_of_lt (Int.lt_succ _))
               · obtain ⟨e, -, rfl⟩ := Option.mem_map.mp (Option.mem_toList.mp hv)
                 exact le_refl _ }, d.id)
  else .error (.sqlite "UNIQUE constraint failed: docs.blake3")

/-- Look for the hash of the text and insert the row if it is not there. A text that is there keeps
its row, and the rest of the request is ignored. -/
def findOrInsert (s : Store) (now : ℤ) (req : PutRequest) : Except Error (Store × ℤ) :=
  match s.byText req.text with
  | some d => .ok (s, d.id)
  | none => s.insertDoc now req

/-- `put_inner` -/
def putInner (s : Store) (now : ℤ) (req : PutRequest) : Except Error (Store × ℤ) := do
  checkEmbedding req.embedding
  s.findOrInsert now req

/-- `put` -/
def put (s : Store) (now : ℤ) (req : PutRequest) : Except Error (Store × ℤ) := s.putInner now req

/-- The check of the batch loop: the length of an embedding, not its values. -/
def checkLength : Option (List F32) → Except Error Unit
  | none => .ok ()
  | some e => if e.length ≠ embedDim then .error (.dimMismatch embedDim e.length) else .ok ()

/-- The loop of `put_batch`, each request with the time it is read at. -/
def putBatch : Store → List (ℤ × PutRequest) → Except Error (Store × List ℤ)
  | s, [] => .ok (s, [])
  | s, (now, req) :: rest => do
    checkLength req.embedding
    let (s, id) ← s.findOrInsert now req
    let (s, ids) ← putBatch s rest
    .ok (s, id :: ids)

/-- The store without a document, when the index was told so much. -/
def without (s : Store) (id : ℤ) (fts : List FtsCommand) : Store where
  docs := s.docs.erase id
  vecs := s.vecs.filter fun v => v.1 ≠ id
  fts := fts
  seq_le := s.seq_le
  vecs_le := fun v hv => s.vecs_le v (List.mem_of_mem_filter hv)

/-- `delete`, and whether anything was there. -/
def delete [Tokenizer] (s : Store) (id : ℤ) : Except Error (Store × Bool) := do
  let row := s.docs.rows.filter fun d => d.id = id
  -- `DELETE FROM docs_fts`, whose error is ignored
  let fts := match row.foldlM ftsDelete s.fts with
    | .ok fts => fts
    | .error _ => s.fts
  -- the trigger `docs_ad` tells the index once more, and its error is that of `DELETE FROM docs`
  let fts ← row.foldlM ftsDelete fts
  .ok (s.without id fts, !row.isEmpty || s.vecs.any fun v => v.1 = id)

/-! ## What the operations do -/

/-- What an insert that went through did. -/
structure Inserted (s : Store) (now : ℤ) (req : PutRequest) (s' : Store) (id : ℤ) : Prop where
  fresh : s.byText req.text = none
  free : s.Free req.uri
  id_eq : id = s.docs.seq + 1
  rows_eq : s'.docs.rows = s.docs.rows ++ [s.newDoc now req]
  seq_eq : s'.docs.seq = s.docs.seq + 1
  vecs_eq : s'.vecs = s.vecs ++ (req.embedding.map (id, ·)).toList
  fts_eq : s'.fts = s.fts ++ [.insert id req.title req.text]

theorem Inserted.newDoc_mem {s s' : Store} {now id : ℤ} {req : PutRequest}
    (h : Inserted s now req s' id) : s.newDoc now req ∈ s'.docs.rows := by
  rw [h.rows_eq]
  exact List.mem_append_right _ (List.mem_singleton_self _)

/-- What an insert that goes through does. -/
theorem insertDoc_ok {s s' : Store} {now id : ℤ} {req : PutRequest}
    (h : s.insertDoc now req = .ok (s', id)) : Inserted s now req s' id := by
  rw [insertDoc] at h
  split at h
  next => cases h
  next hseq =>
    split at h
    next hkey =>
      split at h
      next => cases h
      next halt =>
        cases h
        exact ⟨hkey, ⟨not_not.mp hseq, halt⟩, rfl, rfl, rfl, rfl, rfl⟩
    next => cases h

/-- A row whose text and uri are not there yet is inserted. -/
theorem insertDoc_of_free {s : Store} {now : ℤ} {req : PutRequest}
    (hkey : s.byText req.text = none) (hfree : s.Free req.uri) :
    ∃ s', s.insertDoc now req = .ok (s', s.docs.seq + 1) := by
  rw [insertDoc]
  rw [dif_neg (not_not.mpr hfree.1), dif_pos hkey, dif_neg hfree.2]
  exact ⟨_, rfl⟩

/-- A text is found, or inserted. -/
theorem findOrInsert_ok {s s' : Store} {now id : ℤ} {req : PutRequest}
    (h : s.findOrInsert now req = .ok (s', id)) :
    (∃ d, s.byText req.text = some d ∧ s' = s ∧ id = d.id) ∨ Inserted s now req s' id := by
  rw [findOrInsert] at h
  cases hkey : s.byText req.text with
  | some d =>
    rw [hkey] at h
    cases h
    exact .inl ⟨d, rfl, rfl, rfl⟩
  | none =>
    rw [hkey] at h
    exact .inr (insertDoc_ok h)

/-- A text that is not there is inserted. -/
theorem findOrInsert_new {s s' : Store} {now id : ℤ} {req : PutRequest}
    (hkey : s.byText req.text = none) (h : s.findOrInsert now req = .ok (s', id)) :
    Inserted s now req s' id := by
  rw [findOrInsert, hkey] at h
  exact insertDoc_ok h

theorem findOrInsert_of_some {s : Store} {now : ℤ} {req : PutRequest} {d : Doc}
    (h : s.byText req.text = some d) : s.findOrInsert now req = .ok (s, d.id) := by
  rw [findOrInsert, h]

theorem findOrInsert_of_free {s : Store} {now : ℤ} {req : PutRequest}
    (hkey : s.byText req.text = none) (hfree : s.Free req.uri) :
    ∃ s', s.findOrInsert now req = .ok (s', s.docs.seq + 1) := by
  rw [findOrInsert, hkey]
  exact insertDoc_of_free hkey hfree

/-- A text that is there can be put, and a new one whose uri is free. -/
theorem findOrInsert_isOk {s : Store} {now : ℤ} {req : PutRequest} :
    (∃ r, s.findOrInsert now req = .ok r) ↔
      (s.byText req.text).isSome = true ∨ s.Free req.uri := by
  refine ⟨?_, ?_⟩
  · rintro ⟨⟨s', id⟩, h⟩
    rcases findOrInsert_ok h with ⟨d, hd, -⟩ | hnew
    · left
      rw [hd]
      rfl
    · exact .inr hnew.free
  · intro h
    cases hkey : s.byText req.text with
    | some d => exact ⟨_, findOrInsert_of_some hkey⟩
    | none =>
      rw [hkey] at h
      obtain ⟨s', hs'⟩ : ∃ s', s.findOrInsert now req = .ok (s', _) :=
        findOrInsert_of_free hkey (h.resolve_left nofun)
      exact ⟨_, hs'⟩

omit [Blake3] in
/-- An embedding that passes the check has the right length. -/
theorem checkLength_of_checkEmbedding {emb : Option (List F32)}
    (h : checkEmbedding emb = .ok ()) : checkLength emb = .ok () := by
  cases emb with
  | none => rfl
  | some e =>
    rw [checkEmbedding] at h
    split at h
    next => cases h
    next hlen => exact if_neg hlen

/-- When a put goes through. -/
theorem putInner_ok {s s' : Store} {now id : ℤ} {req : PutRequest} :
    s.putInner now req = .ok (s', id) ↔
      checkEmbedding req.embedding = .ok () ∧ s.findOrInsert now req = .ok (s', id) := by
  rw [putInner, bind_eq_ok]
  refine ⟨?_, ?_⟩
  · rintro ⟨⟨⟩, hemb, h⟩
    exact ⟨hemb, h⟩
  · rintro ⟨hemb, h⟩
    exact ⟨(), hemb, h⟩

/-- What each insert preserves, a put preserves. -/
theorem putInner_invariant {P : Store → Prop}
    (hins : ∀ {s now req s' id}, Inserted s now req s' id → P s → P s')
    {s s' : Store} {now id : ℤ} {req : PutRequest} (h : s.putInner now req = .ok (s', id))
    (hP : P s) : P s' := by
  rcases findOrInsert_ok (putInner_ok.mp h).2 with ⟨d, -, rfl, -⟩ | hnew
  · exact hP
  · exact hins hnew hP

/-- One turn of the batch loop and the rest of it. -/
theorem putBatch_cons {s s' : Store} {now : ℤ} {req : PutRequest} {rest : List (ℤ × PutRequest)}
    {ids : List ℤ} (h : s.putBatch ((now, req) :: rest) = .ok (s', ids)) :
    ∃ t id ids', ids = id :: ids' ∧ s.findOrInsert now req = .ok (t, id) ∧
      t.putBatch rest = .ok (s', ids') := by
  obtain ⟨-, -, h⟩ := bind_eq_ok.mp h
  obtain ⟨⟨t, id⟩, ht, h⟩ := bind_eq_ok.mp h
  obtain ⟨⟨u, ids'⟩, hu, h⟩ := bind_eq_ok.mp h
  cases h
  exact ⟨t, id, ids', rfl, ht, hu⟩

/-- What each insert preserves, a batch preserves. -/
theorem putBatch_invariant {P : Store → Prop}
    (hins : ∀ {s now req s' id}, Inserted s now req s' id → P s → P s')
    {s s' : Store} {reqs : List (ℤ × PutRequest)} {ids : List ℤ}
    (h : s.putBatch reqs = .ok (s', ids)) (hP : P s) : P s' := by
  induction reqs generalizing s ids with
  | nil =>
    cases h
    exact hP
  | cons r rest ih =>
    obtain ⟨t, id, ids', -, hrow, hrest⟩ := putBatch_cons h
    rcases findOrInsert_ok hrow with ⟨d, -, rfl, -⟩ | hnew
    · exact ih hrest hP
    · exact ih hrest (hins hnew hP)

/-- The store after an operation: one that fails leaves it as it was. -/
def after {α : Type} (s : Store) : Except Error (Store × α) → Store
  | .ok (s', _) => s'
  | .error _ => s

theorem after_invariant {α : Type} {P : Store → Prop} {s : Store}
    {r : Except Error (Store × α)} (hP : P s) (hok : ∀ s' a, r = .ok (s', a) → P s') :
    P (s.after r) := by
  match r with
  | .ok (s', a) => exact hok s' a rfl
  | .error e => exact hP

/-! ## Deletes -/

/-- The store after a delete that goes through: the index was told twice. -/
def removed (s : Store) (id : ℤ) : Store :=
  let command := (s.docs.rows.filter fun d => d.id = id).map fun d =>
    FtsCommand.delete d.id d.title d.text
  s.without id (s.fts ++ command ++ command)

/-- The row with an id is the only one. -/
theorem filter_id_eq {s : Store} {d : Doc} (hd : d ∈ s.docs.rows) :
    (s.docs.rows.filter fun x => x.id = d.id) = [d] := by
  have hnodup := (s.docs.id_nodup.of_map _).filter fun x => x.id = d.id
  have hmem : ∀ x, x ∈ (s.docs.rows.filter fun x => x.id = d.id) ↔ x ∈ [d] := by
    intro x
    rw [List.mem_filter, decide_eq_true_eq, List.mem_singleton]
    refine ⟨?_, ?_⟩
    · rintro ⟨hx, heq⟩
      exact s.docs.eq_of_id hx hd heq
    · rintro rfl
      exact ⟨hd, rfl⟩
  exact ((List.perm_ext_iff_of_nodup hnodup (List.nodup_singleton d)).mpr hmem).eq_singleton

theorem mem_removed_rows {s : Store} {id : ℤ} {d : Doc} :
    d ∈ (s.removed id).docs.rows ↔ d ∈ s.docs.rows ∧ d.id ≠ id :=
  Table.mem_erase

section Delete

variable [Tokenizer]

omit [Blake3] [Tokenizer] in
theorem ftsTotal_delete (weight : Option String → String → ℕ) (log : List FtsCommand) (id : ℤ)
    (title : Option String) (text : String) :
    ftsTotal weight (log ++ [.delete id title text]) = ftsTotal weight log - weight title text := by
  rw [ftsTotal, List.map_append, List.sum_append, List.map_singleton, List.sum_singleton]
  exact (sub_eq_add_neg _ _).symm

omit [Blake3] in
/-- When the index takes a delete command, and what it was told then. -/
theorem ftsDelete_eq_ok {log told : List FtsCommand} {d : Doc} :
    ftsDelete log d = .ok told ↔
      ((titleTokens d.title).length ≤ ftsTitleSize log ∧
        (Tokenizer.tokens d.text).length ≤ ftsTextSize log ∧ 1 ≤ ftsRows log) ∧
        log ++ [.delete d.id d.title d.text] = told := by
  simp only [ftsDelete, ftsTitleSize, ftsTextSize, ftsRows, ftsTotal_delete, sub_nonneg]
  split
  next hroom => simpa using fun _ => hroom
  next hroom => exact ⟨nofun, fun h => absurd h.1 (by simpa using hroom)⟩

omit [Blake3] in
/-- Every removed row is told to the index. -/
theorem foldlM_ftsDelete_ok {rows : List Doc} {log told : List FtsCommand}
    (h : rows.foldlM ftsDelete log = .ok told) :
    told = log ++ rows.map fun d => .delete d.id d.title d.text := by
  induction rows generalizing log with
  | nil =>
    cases h
    exact (List.append_nil _).symm
  | cons d rows ih =>
    rw [List.foldlM_cons, bind_eq_ok] at h
    obtain ⟨_, hfirst, hrest⟩ := h
    obtain ⟨-, rfl⟩ := ftsDelete_eq_ok.mp hfirst
    rw [ih hrest, List.append_assoc]
    rfl

/-- If the first command is refused, then the second is refused as well. -/
theorem delete_ok {s s' : Store} {id : ℤ} {found : Bool} (h : s.delete id = .ok (s', found)) :
    s' = s.removed id := by
  obtain ⟨fts, htrigger, h⟩ := bind_eq_ok.mp h
  cases h
  cases hfirst : (s.docs.rows.filter fun d => d.id = id).foldlM ftsDelete s.fts with
  | error e =>
    rw [hfirst] at htrigger
    cases hfirst.symm.trans htrigger
  | ok told =>
    rw [hfirst] at htrigger
    rw [foldlM_ftsDelete_ok htrigger, foldlM_ftsDelete_ok hfirst]
    rfl

omit [Blake3] in
/-- The index can take a row off its totals twice. -/
def Spare (log : List FtsCommand) (d : Doc) : Prop :=
  2 * (titleTokens d.title).length ≤ ftsTitleSize log ∧
    2 * (Tokenizer.tokens d.text).length ≤ ftsTextSize log ∧ 2 ≤ ftsRows log

instance (log : List FtsCommand) (d : Doc) : Decidable (Spare log d) :=
  inferInstanceAs (Decidable (_ ∧ _ ∧ _))

/-- **When a document can be deleted.** -/
theorem delete_isOk_iff {s : Store} {d : Doc} (hd : d ∈ s.docs.rows) :
    (∃ r, s.delete d.id = .ok r) ↔ Spare s.fts d := by
  have hdelete : (∃ r, s.delete d.id = .ok r) ↔
      ∃ told told', ftsDelete s.fts d = .ok told ∧ ftsDelete told d = .ok told' := by
    rw [delete, filter_id_eq hd]
    simp only [List.foldlM_cons, List.foldlM_nil]
    cases hfirst : ftsDelete s.fts d with
    | error e => simp [hfirst, bind, Except.bind]
    | ok told =>
      cases hsecond : ftsDelete told d with
      | error e => simp [hsecond, bind, Except.bind, pure, Except.pure]
      | ok told' => simp [hsecond, bind, Except.bind, pure, Except.pure]
  rw [hdelete, Spare]
  simp only [ftsDelete_eq_ok]
  refine ⟨?_, ?_⟩
  · rintro ⟨told, told', ⟨-, rfl⟩, ⟨htitle, htext, hrows⟩, -⟩
    simp only [ftsTitleSize, ftsTextSize, ftsRows, ftsTotal_delete] at *
    omega
  · intro h
    refine ⟨_, _, ⟨?_, rfl⟩, ?_, rfl⟩
    all_goals
      simp only [ftsTitleSize, ftsTextSize, ftsRows, ftsTotal_delete] at *
      omega

end Delete

/-! ## Operations -/

/-- A call that writes. -/
inductive Op where
  | put (now : ℤ) (req : PutRequest)
  | putBatch (reqs : List (ℤ × PutRequest))
  | delete (id : ℤ)

/-- The store after an operation. -/
def apply [Tokenizer] (s : Store) : Op → Store
  | .put now req => s.after (s.put now req)
  | .putBatch reqs => s.after (s.putBatch reqs)
  | .delete id => s.after (s.delete id)

/-- What every insert and every delete preserves, every operation preserves. -/
theorem apply_invariant [Tokenizer] {P : Store → Prop} {s : Store} {op : Op}
    (hins : ∀ {s now req s' id}, Inserted s now req s' id → P s → P s')
    (hdel : ∀ {id found}, op = .delete id → s.delete id = .ok (s.removed id, found) →
      P (s.removed id))
    (hP : P s) : P (s.apply op) := by
  cases op with
  | put now req => exact after_invariant hP fun _ _ h => putInner_invariant hins h hP
  | putBatch reqs => exact after_invariant hP fun _ _ h => putBatch_invariant hins h hP
  | delete id =>
    refine after_invariant hP fun s' found h => ?_
    obtain rfl := delete_ok h
    exact hdel rfl h

/-! ## Later states -/

/-- What a later state of the store can have of something with ids: what it had, and what has an id
that was given out since then. -/
structure Later {α : Type} (In : Store → α → Prop) (id : α → ℤ) (s t : Store) : Prop where
  seq_le : s.docs.seq ≤ t.docs.seq
  old_or_new : ∀ x, In t x → In s x ∨ s.docs.seq < id x

theorem Later.refl {α : Type} {In : Store → α → Prop} {id : α → ℤ} (s : Store) :
    Later In id s s :=
  ⟨le_refl _, fun _ h => .inl h⟩

theorem Later.trans {α : Type} {In : Store → α → Prop} {id : α → ℤ} {s t u : Store}
    (hst : Later In id s t) (htu : Later In id t u) : Later In id s u := by
  refine ⟨hst.seq_le.trans htu.seq_le, fun x hx => ?_⟩
  rcases htu.old_or_new x hx with hold | hnew
  · exact hst.old_or_new x hold
  · exact .inr (lt_of_le_of_lt hst.seq_le hnew)

/-- The documents of a later state. -/
abbrev RowsLater : Store → Store → Prop := Later (fun s d => d ∈ s.docs.rows) Doc.id

/-- An insert gives its row a later id. -/
theorem Inserted.rowsLater {s s' : Store} {now id : ℤ} {req : PutRequest}
    (h : Inserted s now req s' id) : RowsLater s s' := by
  refine ⟨h.seq_eq ▸ Int.le_of_lt (Int.lt_succ _), fun d hd => ?_⟩
  rw [h.rows_eq] at hd
  rcases List.mem_append.mp hd with hd | hd
  · exact .inl hd
  · rw [List.mem_singleton.mp hd]
    exact .inr (Int.lt_succ _)

theorem removed_rowsLater (s : Store) (id : ℤ) : RowsLater s (s.removed id) :=
  ⟨le_refl _, fun _ hd => .inl (mem_removed_rows.mp hd).1⟩

theorem putBatch_rowsLater {s s' : Store} {reqs : List (ℤ × PutRequest)} {ids : List ℤ}
    (h : s.putBatch reqs = .ok (s', ids)) : s.RowsLater s' := by
  have hins : ∀ {t now req t' id}, Inserted t now req t' id → s.RowsLater t →
      s.RowsLater t' := fun hnew hlater => hlater.trans hnew.rowsLater
  exact putBatch_invariant hins h (Later.refl s)

/-- A batch removes no row. -/
theorem putBatch_rows_mono {s s' : Store} {reqs : List (ℤ × PutRequest)} {ids : List ℤ}
    (h : s.putBatch reqs = .ok (s', ids)) : s.docs.rows ⊆ s'.docs.rows := by
  have hins : ∀ {t now req t' id}, Inserted t now req t' id →
      s.docs.rows ⊆ t.docs.rows → s.docs.rows ⊆ t'.docs.rows := by
    intro t now req t' id hnew hsub d hd
    rw [hnew.rows_eq]
    exact List.mem_append_left _ (hsub hd)
  exact putBatch_invariant hins h (List.Subset.refl _)

/-- Another text is new after an insert as it was before. -/
theorem Inserted.byText_eq_none {s s' : Store} {now id : ℤ} {req : PutRequest}
    (h : Inserted s now req s' id) (text : String) :
    s'.byText text = none ↔ s.byText text = none ∧ Blake3.hash req.text ≠ Blake3.hash text := by
  rw [byText, byText, Table.byKey_eq_none, Table.byKey_eq_none, h.rows_eq, List.forall_mem_append,
    List.forall_mem_singleton]
  rfl

/-! ## The ids of a batch -/

/-- After a put there is a row with the text. -/
theorem findOrInsert_row {s s' : Store} {now id : ℤ} {req : PutRequest}
    (h : s.findOrInsert now req = .ok (s', id)) :
    ∃ d ∈ s'.docs.rows, Blake3.hash d.text = Blake3.hash req.text ∧ d.id = id := by
  rcases findOrInsert_ok h with ⟨d, hd, rfl, rfl⟩ | hnew
  · obtain ⟨hmem, hkey⟩ := s'.docs.byKey_eq_some.mp hd
    exact ⟨d, hmem, hkey, rfl⟩
  · refine ⟨s.newDoc now req, ?_, rfl, hnew.id_eq.symm⟩
    rw [hnew.rows_eq]
    exact List.mem_append_right _ List.mem_cons_self

/-- A batch answers each request with the id of the row that has its text. -/
theorem putBatch_ids {s s' : Store} {reqs : List (ℤ × PutRequest)} {ids : List ℤ}
    (h : s.putBatch reqs = .ok (s', ids)) :
    List.Forall₂ (fun r id => ∃ d ∈ s'.docs.rows,
      Blake3.hash d.text = Blake3.hash r.2.text ∧ d.id = id) reqs ids := by
  induction reqs generalizing s ids with
  | nil =>
    cases h
    exact List.Forall₂.nil
  | cons r rest ih =>
    obtain ⟨now, req⟩ := r
    obtain ⟨t, id, ids', rfl, hrow, hrest⟩ := putBatch_cons h
    obtain ⟨d, hd, hkey⟩ := findOrInsert_row hrow
    exact List.Forall₂.cons ⟨d, putBatch_rows_mono hrest hd, hkey⟩ (ih hrest)

theorem exists_of_mem_putBatch {s s' : Store} {reqs : List (ℤ × PutRequest)} {ids : List ℤ}
    (h : s.putBatch reqs = .ok (s', ids)) : ∀ i ∈ ids, ∃ d ∈ s'.docs.rows, d.id = i := by
  have hrows := putBatch_ids h
  clear h
  induction hrows with
  | nil => exact nofun
  | cons hrow _ ih =>
    obtain ⟨d, hd, -, hid⟩ := hrow
    exact List.forall_mem_cons.mpr ⟨⟨d, hd, hid⟩, ih⟩

/-- A document is answered as often as its text is asked for. -/
theorem count_putBatch {s s' : Store} {reqs : List (ℤ × PutRequest)} {ids : List ℤ}
    (h : s.putBatch reqs = .ok (s', ids)) {d : Doc} (hd : d ∈ s'.docs.rows) :
    ids.count d.id = reqs.countP fun r => Blake3.hash r.2.text = Blake3.hash d.text := by
  have hrows := putBatch_ids h
  clear h
  induction hrows with
  | nil => rfl
  | @cons r id reqs ids hrow _ ih =>
    obtain ⟨e, he, hkey, rfl⟩ := hrow
    have hiff : e.id = d.id ↔ Blake3.hash r.2.text = Blake3.hash d.text := by
      rw [← hkey]
      refine ⟨?_, ?_⟩
      · intro hid
        rw [s'.docs.eq_of_id he hd hid]
      · intro heq
        rw [s'.docs.eq_of_key he hd heq]
    rw [List.count_cons, List.countP_cons, ih]
    simp [hiff]

/-- A row that a batch has added has the text of one of its requests. -/
theorem putBatch_new_rows {s s' : Store} {reqs : List (ℤ × PutRequest)} {ids : List ℤ}
    (h : s.putBatch reqs = .ok (s', ids)) :
    ∀ d ∈ s'.docs.rows, d ∈ s.docs.rows ∨ ∃ r ∈ reqs, r.2.text = d.text := by
  induction reqs generalizing s ids with
  | nil =>
    cases h
    exact fun d hd => .inl hd
  | cons r rest ih =>
    obtain ⟨now, req⟩ := r
    obtain ⟨t, id, ids', rfl, hrow, hrest⟩ := putBatch_cons h
    intro d hd
    rcases ih hrest d hd with hold | ⟨r, hr, htext⟩
    · rcases findOrInsert_ok hrow with ⟨e, -, rfl, -⟩ | hnew
      · exact .inl hold
      · rw [hnew.rows_eq] at hold
        rcases List.mem_append.mp hold with hold | hnew
        · exact .inl hold
        · rw [List.mem_singleton.mp hnew]
          exact .inr ⟨(now, req), List.mem_cons_self, rfl⟩
    · exact .inr ⟨r, List.mem_cons_of_mem _ hr, htext⟩

/-- The row of a document is found by its text. -/
theorem byText_of_mem {s : Store} {d : Doc} (hd : d ∈ s.docs.rows) : s.byText d.text = some d :=
  s.docs.byKey_eq_some.mpr ⟨hd, rfl⟩

theorem findOrInsert_of_mem {s s' : Store} {now id : ℤ} {req : PutRequest} {d : Doc}
    (hd : d ∈ s.docs.rows) (htext : req.text = d.text)
    (h : s.findOrInsert now req = .ok (s', id)) : s' = s ∧ id = d.id := by
  have hfound : s.byText req.text = some d := htext ▸ byText_of_mem hd
  rw [findOrInsert_of_some hfound] at h
  cases h
  exact ⟨rfl, rfl⟩

/-- A batch of a text that is there changes nothing, and answers with the id of the document. -/
theorem putBatch_of_mem {s s' : Store} {d : Doc} (hd : d ∈ s.docs.rows)
    {reqs : List (ℤ × PutRequest)} {ids : List ℤ} (htext : ∀ r ∈ reqs, r.2.text = d.text)
    (h : s.putBatch reqs = .ok (s', ids)) : s' = s ∧ ∀ i ∈ ids, i = d.id := by
  induction reqs generalizing ids with
  | nil =>
    cases h
    exact ⟨rfl, nofun⟩
  | cons r rest ih =>
    obtain ⟨now, req⟩ := r
    obtain ⟨hreq, hrest⟩ := List.forall_mem_cons.mp htext
    obtain ⟨t, id, ids', rfl, hrow, hbatch⟩ := putBatch_cons h
    obtain ⟨rfl, rfl⟩ := findOrInsert_of_mem hd hreq hrow
    obtain ⟨rfl, hids⟩ := ih hrest hbatch
    exact ⟨rfl, List.forall_mem_cons.mpr ⟨rfl, hids⟩⟩

/-- After a batch there is a row for each text. -/
theorem exists_row_of_putBatch {s s' : Store} {reqs : List (ℤ × PutRequest)} {ids : List ℤ}
    (h : s.putBatch reqs = .ok (s', ids)) :
    ∀ r ∈ reqs, ∃ d ∈ s'.docs.rows, Blake3.hash d.text = Blake3.hash r.2.text := by
  have hrows := putBatch_ids h
  clear h
  induction hrows with
  | nil => exact nofun
  | cons hrow _ ih =>
    obtain ⟨d, hd, hkey, -⟩ := hrow
    exact List.forall_mem_cons.mpr ⟨⟨d, hd, hkey⟩, ih⟩

/-- A put that goes through is a batch of one. -/
theorem putBatch_of_putInner {s s' : Store} {now id : ℤ} {req : PutRequest}
    (h : s.putInner now req = .ok (s', id)) : s.putBatch [(now, req)] = .ok (s', [id]) := by
  obtain ⟨hemb, hrow⟩ := putInner_ok.mp h
  rw [putBatch, checkLength_of_checkEmbedding hemb]
  change (s.findOrInsert now req >>= _) = _
  rw [hrow]
  rfl

end Store

end SynapseMemory
