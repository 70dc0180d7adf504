import SynapseMemory.TextRoundTrip

/-!
# The four ways to ingest documents

A list of requests can be given to `put` one by one, to `put_batch`, or without embeddings to
`put_batch_fast` and `put_batch_deferred_fts`. Each has a loop of its own that looks for the hash of
a text and inserts the row if it is not there. The last one works with the trigger `docs_ai`
dropped, and tells the full-text index at the end about all rows whose id is larger than any that
was there.

* A batch goes through exactly if the requests that bring a new text (`newRequests`) are `Storable`:
  their uris are free and an id is left for each (`putBatch_isOk`).
* What the rows are after a loop does not depend on the times at which they were inserted, so the
  loops agree up to these (`Undated`).
* The deferred rebuild of the index tells it what the trigger would have told it
  (`ingestRows_quiet`).

The second half is about ingest in two phases, first the texts and then the same documents with
their embeddings. The second phase finds all texts stored and skips them.
-/

namespace SynapseMemory

namespace Store

open Proto SynxIo

section Paths

variable [Blake3]

/-! ## The paths -/

/-- Put each request in order, whether or not the one before went through. -/
def puts : Store → List (ℤ × PutRequest) → Store × List (Except Error ℤ)
  | s, [] => (s, [])
  | s, (now, req) :: rest =>
    let r := s.put now req
    let (t, answers) := puts (s.after r) rest
    (t, r.map Prod.snd :: answers)

/-- The same tables beside an index that was told something else. -/
def withFts (s : Store) (fts : List FtsCommand) : Store := { s with fts }

/-- An `INSERT` into `docs` while the trigger `docs_ai` is dropped. -/
def insertQuiet (s : Store) (now : ℤ) (req : PutRequest) : Except Error (Store × ℤ) :=
  (s.insertDoc now req).map fun (s', id) => (s'.withFts s.fts, id)

/-- One turn of a loop: look for the hash of the text, and insert the row if it is not there. -/
def ingestRow (insert : Store → ℤ → PutRequest → Except Error (Store × ℤ)) (ts : ℤ) (s : Store)
    (req : PutRequest) : Except Error (Store × ℤ) :=
  match s.byText req.text with
  | some d => .ok (s, d.id)
  | none => insert s ts req

/-- The loop of the batches that take no embeddings. -/
def ingestRows (insert : Store → ℤ → PutRequest → Except Error (Store × ℤ)) (ts : ℤ) :
    Store → List PutRequest → Except Error (Store × List ℤ)
  | s, [] => .ok (s, [])
  | s, req :: rest => do
    let (s, id) ← ingestRow insert ts s req
    let (s, ids) ← ingestRows insert ts s rest
    .ok (s, id :: ids)

omit [Blake3] in
/-- The check before the loop. -/
def rejectEmbeddings (message : String) (docs : List PutRequest) : Except Error Unit :=
  if docs.any fun req => req.embedding.isSome then .error (.other message) else .ok ()

/-- `put_batch_fast` -/
def putBatchFast (s : Store) (ts : ℤ) (docs : List PutRequest) : Except Error (Store × List ℤ) := do
  rejectEmbeddings "put_batch_fast: embedding must be None (skip-embed path)" docs
  ingestRows insertDoc ts s docs

/-- `COALESCE(MAX(id), 0)` -/
def maxId (s : Store) : ℤ := (s.docs.rows.map Doc.id).max?.getD 0

/-- The rows with a larger id, as the index is told about them. -/
def commandsAbove (s : Store) (id : ℤ) : List FtsCommand :=
  (s.docs.rows.filter fun d => id < d.id).map fun d => .insert d.id d.title d.text

/-- `put_batch_deferred_fts` -/
def putBatchDeferredFts (s : Store) (ts : ℤ) (docs : List PutRequest) :
    Except Error (Store × List ℤ) := do
  rejectEmbeddings "put_batch_deferred_fts: embedding must be None (skip-embed path)" docs
  let (s', ids) ← ingestRows insertQuiet ts s docs
  .ok (s'.withFts (s'.fts ++ s'.commandsAbove s.maxId), ids)

/-! ## What a list of requests adds -/

/-- The requests that bring a text that is not known yet. -/
def newRequests : List Blake3.Digest → List PutRequest → List PutRequest
  | _, [] => []
  | known, req :: rest =>
    if Blake3.hash req.text ∈ known then newRequests known rest
    else req :: newRequests (Blake3.hash req.text :: known) rest

/-- The hashes of the stored texts. -/
def hashes (s : Store) : List Blake3.Digest := s.docs.rows.map docSchema.key

/-- The new rows have uris that no other row has. -/
def NoUriConflict (s : Store) (reqs : List PutRequest) : Prop :=
  (allUris s (newRequests s.hashes reqs)).Nodup

/-- An id is left for each new row. -/
def HasIds (s : Store) (reqs : List PutRequest) : Prop :=
  s.docs.seq + (newRequests s.hashes reqs).length ≤ maxRowid

/-- A list of requests that can be stored as a whole. -/
def Storable (s : Store) (reqs : List PutRequest) : Prop := s.NoUriConflict reqs ∧ s.HasIds reqs

theorem mem_hashes {s : Store} {text : String} :
    Blake3.hash text ∈ s.hashes ↔ s.byText text ≠ none := by
  rw [ne_eq, byText, Table.byKey_eq_none, hashes, List.mem_map]
  simp only [not_forall, not_not, exists_prop]

theorem hashes_inserted {s s' : Store} {now id : ℤ} {req : PutRequest}
    (h : Inserted s now req s' id) : s'.hashes = s.hashes ++ [Blake3.hash req.text] := by
  rw [hashes, h.rows_eq, List.map_append]
  rfl

/-- What is new depends on which hashes are known, not on their order. -/
theorem newRequests_congr {known known' : List Blake3.Digest}
    (h : ∀ k, k ∈ known ↔ k ∈ known') (reqs : List PutRequest) :
    newRequests known reqs = newRequests known' reqs := by
  induction reqs generalizing known known' with
  | nil => rfl
  | cons req rest ih =>
    have hcons : ∀ k, k ∈ Blake3.hash req.text :: known ↔ k ∈ Blake3.hash req.text :: known' := by
      intro k
      rw [List.mem_cons, List.mem_cons, h]
    rw [newRequests, newRequests, ih h, ih hcons]
    exact if_congr (h _) rfl rfl

theorem newRequests_of_known {s : Store} {req : PutRequest} {d : Doc}
    (h : s.byText req.text = some d) (rest : List PutRequest) :
    newRequests s.hashes (req :: rest) = newRequests s.hashes rest := by
  have hmem : Blake3.hash req.text ∈ s.hashes := mem_hashes.mpr (by simp [h])
  rw [newRequests, if_pos hmem]

theorem newRequests_of_new {s : Store} {req : PutRequest} (h : s.byText req.text = none)
    (rest : List PutRequest) : newRequests s.hashes (req :: rest) =
      req :: newRequests (Blake3.hash req.text :: s.hashes) rest := by
  have hmem : Blake3.hash req.text ∉ s.hashes := fun hmem => mem_hashes.mp hmem h
  rw [newRequests, if_neg hmem]

theorem newRequests_inserted {s s' : Store} {now id : ℤ} {req : PutRequest}
    (h : Inserted s now req s' id) (rest : List PutRequest) :
    newRequests s.hashes (req :: rest) = req :: newRequests s'.hashes rest := by
  rw [newRequests_of_new h.fresh, hashes_inserted h]
  exact congrArg _ (newRequests_congr (fun k => by simp [or_comm]) rest)

theorem storable_of_known {s : Store} {req : PutRequest} {d : Doc}
    (h : s.byText req.text = some d) (rest : List PutRequest) :
    s.Storable (req :: rest) ↔ s.Storable rest := by
  rw [Storable, Storable, NoUriConflict, NoUriConflict, HasIds, HasIds, newRequests_of_known h]

/-- After an insert the rest can be stored as before. -/
theorem storable_inserted {s s' : Store} {now id : ℤ} {req : PutRequest}
    (h : Inserted s now req s' id) (rest : List PutRequest) :
    s.Storable (req :: rest) ↔ s'.Storable rest := by
  rw [Storable, Storable, NoUriConflict, NoUriConflict, HasIds, HasIds, newRequests_inserted h,
    ← allUris_inserted h, List.length_cons, h.seq_eq]
  push_cast
  rw [add_assoc, add_comm 1]

/-- The first new row of a list that can be stored can be inserted. -/
theorem Storable.free {s : Store} {req : PutRequest} {rest : List PutRequest}
    (h : s.Storable (req :: rest)) (hnew : s.byText req.text = none) : s.Free req.uri := by
  obtain ⟨huris, hids⟩ := h
  rw [NoUriConflict, newRequests_of_new hnew] at huris
  rw [HasIds, newRequests_of_new hnew, List.length_cons] at hids
  exact free_of_nodup huris (by omega)

/-- When a batch goes through: its first row, and the rest. -/
theorem putBatch_cons_isOk {s : Store} {now : ℤ} {req : PutRequest}
    {rest : List (ℤ × PutRequest)} :
    (∃ r, s.putBatch ((now, req) :: rest) = .ok r) ↔ checkLength req.embedding = .ok () ∧
      ∃ r, s.findOrInsert now req = .ok r ∧ ∃ r', r.1.putBatch rest = .ok r' := by
  refine ⟨?_, ?_⟩
  · rintro ⟨r, h⟩
    obtain ⟨⟨⟩, hlen, h⟩ := bind_eq_ok.mp h
    obtain ⟨t, ht, h⟩ := bind_eq_ok.mp h
    obtain ⟨u, hu, -⟩ := bind_eq_ok.mp h
    exact ⟨hlen, t, ht, u, hu⟩
  · rintro ⟨hlen, t, ht, u, hu⟩
    exact ⟨_, bind_eq_ok.mpr ⟨(), hlen, bind_eq_ok.mpr ⟨t, ht, bind_eq_ok.mpr ⟨u, hu, rfl⟩⟩⟩⟩

/-- **When a batch goes through.** -/
theorem putBatch_isOk {s : Store} {reqs : List (ℤ × PutRequest)} :
    (∃ r, s.putBatch reqs = .ok r) ↔
      (∀ r ∈ reqs, checkLength r.2.embedding = .ok ()) ∧ s.Storable (reqs.map Prod.snd) := by
  induction reqs generalizing s with
  | nil =>
    refine iff_of_true ⟨(s, []), rfl⟩ ⟨nofun, ?_, ?_⟩
    · change (s.docs.rows.filterMap docSchema.alt ++ []).Nodup
      rw [List.append_nil]
      exact s.docs.alt_nodup
    · exact (add_zero s.docs.seq).trans_le s.seq_le
  | cons r rest ih =>
    obtain ⟨now, req⟩ := r
    rw [putBatch_cons_isOk, List.forall_mem_cons, List.map_cons, and_assoc]
    apply and_congr_right
    intro _
    cases hkey : s.byText req.text with
    | some d =>
      rw [storable_of_known hkey, ← ih, findOrInsert_of_some hkey]
      simp only [Except.ok.injEq, exists_eq_left']
    | none =>
      refine ⟨?_, ?_⟩
      · rintro ⟨⟨t, id⟩, ht, hrest⟩
        rw [storable_inserted (findOrInsert_new hkey ht)]
        exact ih.mp hrest
      · rintro ⟨hlens, hstorable⟩
        obtain ⟨t, ht⟩ : ∃ t, s.findOrInsert now req = .ok (t, _) :=
          findOrInsert_of_free hkey (hstorable.free hkey)
        rw [storable_inserted (findOrInsert_new hkey ht)] at hstorable
        exact ⟨_, ht, ih.mpr ⟨hlens, hstorable⟩⟩

/-! ## The loops agree -/

section NoEmbeddings

/-- No request has an embedding. -/
def TextOnly (docs : List PutRequest) : Prop := ∀ req ∈ docs, req.embedding = none

omit [Blake3] in
theorem rejectEmbeddings_ok {docs : List PutRequest} (h : TextOnly docs) (message : String) :
    rejectEmbeddings message docs = .ok () := by
  have hany : ¬(docs.any fun req => req.embedding.isSome) = true := by
    simpa [TextOnly] using h
  rw [rejectEmbeddings, if_neg hany]

/-- The loop of the batches without embeddings is the loop of `put_batch`. -/
theorem ingestRows_eq_putBatch {docs : List PutRequest} (h : TextOnly docs) (ts : ℤ) (s : Store) :
    ingestRows insertDoc ts s docs = s.putBatch (docs.map (ts, ·)) := by
  induction docs generalizing s with
  | nil => rfl
  | cons req rest ih =>
    obtain ⟨hreq, hrest⟩ := List.forall_mem_cons.mp h
    rw [List.map_cons, putBatch, hreq, ingestRows]
    change (s.findOrInsert ts req >>= _) = (s.findOrInsert ts req >>= _)
    apply congrArg
    funext r
    exact congrArg (· >>= _) (ih hrest r.1)

theorem putBatchFast_eq_putBatch {docs : List PutRequest} (h : TextOnly docs) (ts : ℤ)
    (s : Store) : s.putBatchFast ts docs = s.putBatch (docs.map (ts, ·)) := by
  rw [putBatchFast, rejectEmbeddings_ok h]
  exact ingestRows_eq_putBatch h ts s

/-- An insert does not read the index. -/
theorem insertDoc_withFts (s : Store) (fts : List FtsCommand) (now : ℤ) (req : PutRequest) :
    (s.withFts fts).insertQuiet now req =
      (s.insertDoc now req).map fun r => (r.1.withFts fts, r.2) := by
  rw [insertQuiet, insertDoc, insertDoc]
  by_cases hseq : ¬s.docs.seq < maxRowid
  · have hseq' : ¬(s.withFts fts).docs.seq < maxRowid := hseq
    rw [dif_pos hseq, dif_pos hseq']
    rfl
  · have hseq' : ¬¬(s.withFts fts).docs.seq < maxRowid := hseq
    rw [dif_neg hseq, dif_neg hseq']
    by_cases hkey : s.byText req.text = none
    · have hkey' : (s.withFts fts).byText req.text = none := hkey
      rw [dif_pos hkey, dif_pos hkey']
      by_cases halt : s.docs.Taken req.uri
      · have halt' : (s.withFts fts).docs.Taken req.uri := halt
        rw [dif_pos halt, dif_pos halt']
        rfl
      · have halt' : ¬(s.withFts fts).docs.Taken req.uri := halt
        rw [dif_neg halt, dif_neg halt']
        rfl
    · have hkey' : ¬(s.withFts fts).byText req.text = none := hkey
      rw [dif_neg hkey, dif_neg hkey']
      rfl

/-- The loop with the trigger dropped does the same to the tables, and nothing to the index. -/
theorem ingestRows_quiet (s : Store) (fts : List FtsCommand) (ts : ℤ) (docs : List PutRequest) :
    ingestRows insertQuiet ts (s.withFts fts) docs =
      (ingestRows insertDoc ts s docs).map fun r => (r.1.withFts fts, r.2) := by
  induction docs generalizing s with
  | nil => rfl
  | cons req rest ih =>
    have hrow : ingestRow insertQuiet ts (s.withFts fts) req =
        (ingestRow insertDoc ts s req).map fun r => (r.1.withFts fts, r.2) := by
      rw [ingestRow, ingestRow]
      change (match s.byText req.text with | some d => _ | none => _) = _
      cases s.byText req.text with
      | some d => rfl
      | none => exact insertDoc_withFts s fts ts req
    rw [ingestRows, ingestRows, hrow]
    cases ingestRow insertDoc ts s req with
    | error e => rfl
    | ok r =>
      change (ingestRows insertQuiet ts (r.1.withFts fts) rest >>= _) = _
      rw [ih]
      change _ = Except.map _ (ingestRows insertDoc ts r.1 rest >>= _)
      cases ingestRows insertDoc ts r.1 rest with
      | error e => rfl
      | ok r' => rfl

/-- No row has an id above the largest one. -/
theorem le_maxId {s : Store} {d : Doc} (hd : d ∈ s.docs.rows) : d.id ≤ s.maxId := by
  have hmem : d.id ∈ s.docs.rows.map Doc.id := List.mem_map_of_mem hd
  rw [maxId]
  cases hmax : (s.docs.rows.map Doc.id).max? with
  | none =>
    rw [List.max?_eq_none_iff.mp hmax] at hmem
    exact absurd hmem List.not_mem_nil
  | some m => exact (List.max?_eq_some_iff.mp hmax).2 d.id hmem

/-- Every id was given out. -/
theorem maxId_le_seq (s : Store) : s.maxId ≤ s.docs.seq := by
  rw [maxId]
  cases hmax : (s.docs.rows.map Doc.id).max? with
  | none => exact s.docs.seq_nonneg
  | some m =>
    obtain ⟨d, hd, rfl⟩ := List.mem_map.mp (List.max?_eq_some_iff.mp hmax).1
    exact s.docs.le_seq d hd

/-- What a loop has added: rows with new ids, and the index was told about each. -/
def Added (s t : Store) (rows : List Doc) : Prop :=
  t.docs.rows = s.docs.rows ++ rows ∧ t.fts = s.fts ++ rows.map (fun d =>
    .insert d.id d.title d.text) ∧
    (∀ d ∈ rows, s.docs.seq < d.id) ∧ s.docs.seq ≤ t.docs.seq

/-- A batch adds rows at the end. -/
theorem putBatch_added {s s' : Store} {reqs : List (ℤ × PutRequest)} {ids : List ℤ}
    (h : s.putBatch reqs = .ok (s', ids)) : ∃ rows, Added s s' rows := by
  have hins : ∀ {t now req t' id}, Inserted t now req t' id → (∃ rows, Added s t rows) →
      ∃ rows, Added s t' rows := by
    rintro t now req t' id hnew ⟨rows, hrows, hfts, hids, hseq⟩
    refine ⟨rows ++ [t.newDoc now req], ?_, ?_, ?_, ?_⟩
    · rw [hnew.rows_eq, hrows, List.append_assoc]
    · rw [hnew.fts_eq, hfts, List.map_append, List.append_assoc, hnew.id_eq]
      rfl
    · rw [List.forall_mem_append, List.forall_mem_singleton]
      exact ⟨hids, Int.lt_add_one_of_le hseq⟩
    · rw [hnew.seq_eq]
      exact hseq.trans (Int.le_of_lt (Int.lt_succ _))
  exact putBatch_invariant hins h ⟨[], by simp [Added]⟩

/-- **The deferred rebuild.** The rows above the largest id from before are the new ones, so the
index is told what the trigger has told it in the other loop. -/
theorem putBatchDeferredFts_eq {docs : List PutRequest} (h : TextOnly docs) (ts : ℤ) (s : Store) :
    s.putBatchDeferredFts ts docs = s.putBatch (docs.map (ts, ·)) := by
  have hquiet : ingestRows insertQuiet ts s docs =
      (s.putBatch (docs.map (ts, ·))).map fun r => (r.1.withFts s.fts, r.2) := by
    rw [← ingestRows_eq_putBatch h]
    exact ingestRows_quiet s s.fts ts docs
  rw [putBatchDeferredFts, rejectEmbeddings_ok h, hquiet]
  cases hbatch : s.putBatch (docs.map (ts, ·)) with
  | error e => rfl
  | ok r =>
    obtain ⟨t, ids⟩ := r
    obtain ⟨rows, hrows, hfts, hids, -⟩ := putBatch_added hbatch
    have hold : s.docs.rows.filter (fun d => s.maxId < d.id) = [] := by
      rw [List.filter_eq_nil_iff]
      intro d hd
      simpa using le_maxId hd
    have hnew : rows.filter (fun d => s.maxId < d.id) = rows := by
      rw [List.filter_eq_self]
      intro d hd
      exact decide_eq_true (lt_of_le_of_lt s.maxId_le_seq (hids d hd))
    have habove : t.commandsAbove s.maxId = rows.map fun d => .insert d.id d.title d.text := by
      rw [commandsAbove, hrows, List.filter_append, hold, hnew, List.nil_append]
    change Except.ok (t.withFts (s.fts ++ t.commandsAbove s.maxId), ids) = _
    rw [habove, ← hfts]
    rfl

/-- Puts in order do what one batch does, if it goes through. -/
theorem puts_of_putBatch {reqs : List (ℤ × PutRequest)} (hemb : TextOnly (reqs.map Prod.snd))
    {s s' : Store} {ids : List ℤ} (h : s.putBatch reqs = .ok (s', ids)) :
    s.puts reqs = (s', ids.map .ok) := by
  induction reqs generalizing s ids with
  | nil =>
    cases h
    rfl
  | cons r rest ih =>
    obtain ⟨now, req⟩ := r
    obtain ⟨hreq, hrest⟩ := List.forall_mem_cons.mp hemb
    obtain ⟨t, id, ids', rfl, hrow, hbatch⟩ := putBatch_cons h
    have hcheck : checkEmbedding req.embedding = .ok () := by
      rw [show req.embedding = none from hreq]
      rfl
    have hput : s.put now req = .ok (t, id) := putInner_ok.mpr ⟨hcheck, hrow⟩
    rw [puts, hput]
    change (_, _) = _
    rw [show s.after (.ok (t, id)) = t from rfl, ih hrest hbatch]
    rfl

end NoEmbeddings

/-! ## The time of an insert -/

omit [Blake3] in
/-- A row without its time. -/
def undated (d : Doc) : Doc := { d with ts := 0 }

/-- Stores that differ only in the times of their rows. -/
structure Undated (s t : Store) : Prop where
  rows_eq : s.docs.rows.map undated = t.docs.rows.map undated
  seq_eq : s.docs.seq = t.docs.seq
  fts_eq : s.fts = t.fts

theorem Undated.refl (s : Store) : Undated s s := ⟨rfl, rfl, rfl⟩

/-- The lookup of a text does not depend on dates. -/
theorem byText_undated (s : Store) (text : String) :
    (s.byText text).map undated =
      (s.docs.rows.map undated).find? fun d => Blake3.hash d.text = Blake3.hash text := by
  rw [List.find?_map]
  rfl

theorem Undated.byText {s t : Store} (h : Undated s t) (text : String) :
    (s.byText text).map undated = (t.byText text).map undated := by
  rw [byText_undated, byText_undated, h.rows_eq]

/-- A URI that is taken is taken in both. -/
theorem Undated.taken {s t : Store} (h : Undated s t) {uri : Option String}
    (htaken : t.docs.Taken uri) : s.docs.Taken uri := by
  obtain ⟨hne, d, hd, huri⟩ := htaken
  have hmem : undated d ∈ s.docs.rows.map undated := by
    rw [h.rows_eq]
    exact List.mem_map_of_mem hd
  obtain ⟨e, he, heq⟩ := List.mem_map.mp hmem
  refine ⟨hne, e, he, ?_⟩
  calc e.uri = (undated e).uri := rfl
    _ = (undated d).uri := congrArg Doc.uri heq
    _ = uri := huri

/-- So a put does the same in both. -/
theorem Undated.findOrInsert {s t s' : Store} (h : Undated s t) {now id : ℤ} {req : PutRequest}
    (hs : s.findOrInsert now req = .ok (s', id)) (now' : ℤ) :
    ∃ t', t.findOrInsert now' req = .ok (t', id) ∧ Undated s' t' := by
  have hkey := h.byText req.text
  rcases findOrInsert_ok hs with ⟨d, hd, rfl, rfl⟩ | hnew
  · rw [hd, Option.map_some] at hkey
    obtain ⟨e, he, heq⟩ := Option.map_eq_some_iff.mp hkey.symm
    have hid : (undated e).id = (undated d).id := congrArg Doc.id heq
    change e.id = d.id at hid
    exact ⟨t, hid ▸ findOrInsert_of_some he, h⟩
  · rw [hnew.fresh, Option.map_none] at hkey
    have hfresh : t.byText req.text = none := Option.map_eq_none_iff.mp hkey.symm
    have hfree : t.Free req.uri :=
      ⟨h.seq_eq ▸ hnew.free.1, fun htaken => hnew.free.2 (h.taken htaken)⟩
    obtain ⟨t', ht'⟩ : ∃ t', t.findOrInsert now' req = .ok (t', t.docs.seq + 1) :=
      findOrInsert_of_free hfresh hfree
    have hnew' := findOrInsert_new hfresh ht'
    have hid : id = t.docs.seq + 1 := by rw [hnew.id_eq, h.seq_eq]
    have hrow : undated (s.newDoc now req) = undated (t.newDoc now' req) := by
      rw [undated, undated, newDoc, newDoc, h.seq_eq]
    refine ⟨t', hid ▸ ht', ?_, ?_, ?_⟩
    · rw [hnew.rows_eq, hnew'.rows_eq, List.map_append, List.map_append, h.rows_eq,
        List.map_singleton,
        List.map_singleton, hrow]
    · rw [hnew.seq_eq, hnew'.seq_eq, h.seq_eq]
    · rw [hnew.fts_eq, hnew'.fts_eq, h.fts_eq, hid]

/-- Neither the answers of a batch nor what it stores depends on the times. -/
theorem Undated.putBatch {s t s' : Store} (h : Undated s t) {reqs reqs' : List (ℤ × PutRequest)}
    (hreqs : reqs.map Prod.snd = reqs'.map Prod.snd) {ids : List ℤ}
    (hs : s.putBatch reqs = .ok (s', ids)) :
    ∃ t', t.putBatch reqs' = .ok (t', ids) ∧ Undated s' t' := by
  induction reqs generalizing s t reqs' ids with
  | nil =>
    obtain rfl := List.map_eq_nil_iff.mp hreqs.symm
    cases hs
    exact ⟨t, rfl, h⟩
  | cons r rest ih =>
    obtain ⟨now, req⟩ := r
    obtain ⟨⟨now', req'⟩, rest', rfl, hreq, hrest⟩ := List.map_eq_cons_iff.mp hreqs.symm
    obtain rfl : req' = req := hreq
    obtain ⟨⟨⟩, hlen, -⟩ := bind_eq_ok.mp hs
    obtain ⟨u, id, ids', rfl, hrow, hbatch⟩ := putBatch_cons hs
    obtain ⟨u', hrow', hu⟩ := h.findOrInsert hrow now'
    obtain ⟨t', hbatch', ht'⟩ := ih hu hrest.symm hbatch
    exact ⟨t', bind_eq_ok.mpr ⟨(), hlen, bind_eq_ok.mpr ⟨(u', id), hrow',
      bind_eq_ok.mpr ⟨(t', ids'), hbatch', rfl⟩⟩⟩, ht'⟩

/-! ## The four paths agree -/

/-- The ids the index has, after what it was told. -/
def indexedIds (log : List FtsCommand) : Finset ℤ :=
  log.foldl (fun ids command => match command with
    | .insert id _ _ => insert id ids
    | .delete id _ _ => ids.erase id) ∅

/-- What ingest leaves behind: the rows with all but their times, in the order of their ids, and the
ids of the full-text index. -/
def contents (s : Store) : List Doc × Finset ℤ := (s.docs.rows.map undated, indexedIds s.fts)

omit [Blake3] in
/-- The requests with the times a clock gives them. -/
def timed (clock : ℕ → ℤ) (reqs : List PutRequest) : List (ℤ × PutRequest) :=
  reqs.zipIdx.map fun r => (clock r.2, r.1)

omit [Blake3] in
theorem timed_requests (clock : ℕ → ℤ) (reqs : List PutRequest) :
    (timed clock reqs).map Prod.snd = reqs := by
  rw [timed, List.map_map]
  exact List.zipIdx_map_fst 0 reqs

/-- Texts without uri conflicts are ingested in the same way on each of the four paths, if an id is
left for each new one. -/
theorem ingest_paths_agree (s : Store) (reqs : List PutRequest) (putClock batchClock : ℕ → ℤ)
    (fastTs deferredTs : ℤ) (hemb : TextOnly reqs) (huris : s.NoUriConflict reqs)
    (hids : s.HasIds reqs) :
    ∃ (ids : List ℤ) (s₁ s₂ s₃ s₄ : Store),
      s.puts (timed putClock reqs) = (s₁, ids.map .ok) ∧
      s.putBatch (timed batchClock reqs) = .ok (s₂, ids) ∧
      s.putBatchFast fastTs reqs = .ok (s₃, ids) ∧
      s.putBatchDeferredFts deferredTs reqs = .ok (s₄, ids) ∧
      s₂.contents = s₁.contents ∧ s₃.contents = s₁.contents ∧ s₄.contents = s₁.contents := by
  have htimed := timed_requests putClock reqs
  have hfixed : ∀ ts : ℤ, (reqs.map (ts, ·)).map Prod.snd = reqs := by
    intro ts
    rw [List.map_map]
    exact List.map_id reqs
  have hcheck : ∀ r ∈ timed putClock reqs, checkLength r.2.embedding = .ok () := by
    intro r hr
    have hmem : r.2 ∈ reqs := htimed ▸ List.mem_map_of_mem hr
    rw [hemb r.2 hmem]
    rfl
  have hstorable : s.Storable ((timed putClock reqs).map Prod.snd) := by
    rw [htimed]
    exact ⟨huris, hids⟩
  obtain ⟨⟨s₁, ids⟩, h₁⟩ := putBatch_isOk.mpr ⟨hcheck, hstorable⟩
  have hagree : ∀ reqs' : List (ℤ × PutRequest), reqs'.map Prod.snd = reqs →
      ∃ t, s.putBatch reqs' = .ok (t, ids) ∧ t.contents = s₁.contents := by
    intro reqs' hreqs'
    obtain ⟨t, ht, hundated⟩ := (Undated.refl s).putBatch (htimed.trans hreqs'.symm) h₁
    exact ⟨t, ht, Prod.ext hundated.rows_eq.symm (congrArg indexedIds hundated.fts_eq.symm)⟩
  obtain ⟨s₂, h₂, heq₂⟩ := hagree _ (timed_requests batchClock reqs)
  obtain ⟨s₃, h₃, heq₃⟩ := hagree _ (hfixed fastTs)
  obtain ⟨s₄, h₄, heq₄⟩ := hagree _ (hfixed deferredTs)
  refine ⟨ids, s₁, s₂, s₃, s₄, ?_, h₂, ?_, ?_, heq₂, heq₃, heq₄⟩
  · exact puts_of_putBatch (htimed.symm ▸ hemb) h₁
  · rw [putBatchFast_eq_putBatch hemb, h₃]
  · rw [putBatchDeferredFts_eq hemb, h₄]

end Paths

/-- Requests with texts and nothing else. -/
def textRequests (texts : List String) : List PutRequest :=
  texts.map fun text => { uri := none, title := none, text, meta_ := none, embedding := none }

/-- Two equal texts, by each of the four ways. -/
theorem ingest_paths_agree_twice :
    let _ := Blake3.identity
    ∃ (ids : List ℤ) (s₁ s₂ s₃ s₄ : Store),
      empty.puts (timed (fun n => n) (textRequests ["a", "a"])) = (s₁, ids.map .ok) ∧
      empty.putBatch (timed (fun _ => 7) (textRequests ["a", "a"])) = .ok (s₂, ids) ∧
      empty.putBatchFast 8 (textRequests ["a", "a"]) = .ok (s₃, ids) ∧
      empty.putBatchDeferredFts 9 (textRequests ["a", "a"]) = .ok (s₄, ids) ∧
      s₂.contents = s₁.contents ∧ s₃.contents = s₁.contents ∧ s₄.contents = s₁.contents := by
  intro _
  refine ingest_paths_agree empty (textRequests ["a", "a"]) _ _ 8 9 ?_ ?_ ?_
  · simp [TextOnly, textRequests]
  · change List.Nodup _
    decide
  · change (_ : ℤ) ≤ maxRowid
    decide

/-- A store with one id left. -/
def oneIdLeft [Blake3] : Store where
  docs := { Table.empty with
            seq := maxRowid - 1
            seq_nonneg := by decide
            le_seq := by simp [Table.empty] }
  vecs := []
  fts := []
  seq_le := Int.sub_le_self _ (by decide)
  vecs_le := by simp

/-- Puts in order use the last id, and a batch that needs two takes back what it has inserted. -/
theorem oneIdLeft_paths_differ :
    let _ := Blake3.identity
    TextOnly (textRequests ["a", "b"]) ∧ oneIdLeft.NoUriConflict (textRequests ["a", "b"]) ∧
      (oneIdLeft.puts (timed (fun n => n) (textRequests ["a", "b"]))).1.contents ≠
        (oneIdLeft.after (oneIdLeft.putBatch
          (timed (fun n => n) (textRequests ["a", "b"])))).contents := by
  intro _
  refine ⟨by simp [TextOnly, textRequests], ?_, ?_⟩
  · change List.Nodup _
    decide
  · intro heq
    have hlen := congrArg (fun c => c.1.length) heq
    revert hlen
    decide

/-! ## Two phases -/

section TwoPhases

variable [Blake3]

/-- A document that is ingested twice: first its text, and later the text with an embedding. -/
structure TwoPhase where
  first : PutRequest
  second : PutRequest
  /-- The time of the second insert. -/
  now : ℤ
  embedding : List F32
  text_eq : second.text = first.text
  first_embedding : first.embedding = none
  second_embedding : second.embedding = some embedding
  valid : checkEmbedding (some embedding) = .ok ()

/-- `put_batch_fast` and afterwards `put_batch`. -/
def twoPhase (s : Store) (ts : ℤ) (docs : List TwoPhase) : Store :=
  let s := s.after (s.putBatchFast ts (docs.map TwoPhase.first))
  s.after (s.putBatch (docs.map fun d => (d.now, d.second)))

/-- The document of a text has this row in `docs_vec`. -/
def HasEmbedding (s : Store) (text : String) (e : List F32) : Prop :=
  ∃ d ∈ s.docs.rows, Blake3.hash d.text = Blake3.hash text ∧ (d.id, e) ∈ s.vecs

/-- The first request with a text brings this embedding. -/
def FirstBrings (reqs : List PutRequest) (text : String) (e : List F32) : Prop :=
  ∃ req, reqs.find? (fun r => Blake3.hash r.text = Blake3.hash text) = some req ∧
    req.embedding = some e

/-- The embeddings after an insert. -/
theorem hasEmbedding_inserted {s t : Store} {now id : ℤ} {req : PutRequest}
    (h : Inserted s now req t id) (text : String) (e : List F32) :
    t.HasEmbedding text e ↔ s.HasEmbedding text e ∨
      Blake3.hash req.text = Blake3.hash text ∧ req.embedding = some e := by
  have hvec : ∀ i, (i, e) ∈ t.vecs ↔ (i, e) ∈ s.vecs ∨ i = id ∧ req.embedding = some e := by
    intro i
    rw [h.vecs_eq, List.mem_append, Option.mem_toList, Option.map_eq_some_iff]
    simp [and_comm, eq_comm]
  refine ⟨?_, ?_⟩
  · rintro ⟨d, hd, hkey, hdvec⟩
    rw [h.rows_eq] at hd
    rcases List.mem_append.mp hd with hd | hd
    · rcases (hvec d.id).mp hdvec with hold | ⟨hid, -⟩
      · exact .inl ⟨d, hd, hkey, hold⟩
      · have hle : d.id ≤ s.docs.seq := s.docs.le_seq d hd
        rw [hid, h.id_eq] at hle
        omega
    · obtain rfl := List.mem_singleton.mp hd
      rcases (hvec _).mp hdvec with hold | ⟨-, hemb⟩
      · have hle : s.docs.seq + 1 ≤ s.docs.seq := s.vecs_le _ hold
        omega
      · exact .inr ⟨hkey, hemb⟩
  · rintro (⟨d, hd, hkey, hold⟩ | ⟨hkey, hemb⟩)
    · refine ⟨d, ?_, hkey, (hvec d.id).mpr (.inl hold)⟩
      rw [h.rows_eq]
      exact List.mem_append_left _ hd
    · exact ⟨s.newDoc now req, h.newDoc_mem, hkey, (hvec _).mpr (.inr ⟨h.id_eq.symm, hemb⟩)⟩

/-- **The embeddings of a batch.** Only a new text gets one, from the first request that brings
it. -/
theorem putBatch_hasEmbedding {s s' : Store} {reqs : List (ℤ × PutRequest)} {ids : List ℤ}
    (h : s.putBatch reqs = .ok (s', ids)) (text : String) (e : List F32) :
    s'.HasEmbedding text e ↔ s.HasEmbedding text e ∨
      s.byText text = none ∧ FirstBrings (reqs.map Prod.snd) text e := by
  induction reqs generalizing s ids with
  | nil =>
    cases h
    simp [FirstBrings]
  | cons r rest ih =>
    obtain ⟨now, req⟩ := r
    obtain ⟨t, id, ids', rfl, hrow, hbatch⟩ := putBatch_cons h
    rw [ih hbatch, List.map_cons]
    by_cases hkey : Blake3.hash req.text = Blake3.hash text
    · have hfirst : FirstBrings (req :: rest.map Prod.snd) text e ↔ req.embedding = some e := by
        simp [FirstBrings, hkey]
      have hsame : s.byText req.text = s.byText text := congrArg s.docs.byKey hkey
      rw [hfirst]
      rcases findOrInsert_ok hrow with ⟨d, hd, rfl, -⟩ | hnew
      · rw [hsame] at hd
        simp [hd]
      · have hstored : ¬t.byText text = none := by
          rw [hnew.byText_eq_none]
          exact fun h => h.2 hkey
        have hfresh : s.byText text = none := hsame ▸ hnew.fresh
        rw [hasEmbedding_inserted hnew]
        simp [hstored, hfresh, hkey]
    · have hfirst : FirstBrings (req :: rest.map Prod.snd) text e ↔
          FirstBrings (rest.map Prod.snd) text e := by
        simp [FirstBrings, hkey]
      rw [hfirst]
      rcases findOrInsert_ok hrow with ⟨d, -, rfl, -⟩ | hnew
      · exact Iff.rfl
      · rw [hasEmbedding_inserted hnew, hnew.byText_eq_none]
        simp [hkey]

/-- A batch of texts that are all stored changes nothing. -/
theorem putBatch_of_known {s : Store} {reqs : List (ℤ × PutRequest)}
    (hlen : ∀ r ∈ reqs, checkLength r.2.embedding = .ok ())
    (hknown : ∀ r ∈ reqs, s.byText r.2.text ≠ none) : ∃ ids, s.putBatch reqs = .ok (s, ids) := by
  induction reqs with
  | nil => exact ⟨[], rfl⟩
  | cons r rest ih =>
    obtain ⟨now, req⟩ := r
    obtain ⟨hreq, hlens⟩ := List.forall_mem_cons.mp hlen
    obtain ⟨hkey, hkeys⟩ := List.forall_mem_cons.mp hknown
    obtain ⟨d, hd⟩ := Option.ne_none_iff_exists'.mp hkey
    obtain ⟨ids, hids⟩ := ih hlens hkeys
    exact ⟨d.id :: ids, bind_eq_ok.mpr ⟨(), hreq, bind_eq_ok.mpr ⟨(s, d.id),
      findOrInsert_of_some hd, bind_eq_ok.mpr ⟨(s, ids), hids, rfl⟩⟩⟩⟩

section Fast

variable {s t : Store} {ts : ℤ} {docs : List PutRequest} {ids : List ℤ}

/-- When `put_batch_fast` goes through. -/
theorem putBatchFast_isOk (htext : TextOnly docs) :
    (∃ r, s.putBatchFast ts docs = .ok r) ↔ s.Storable docs := by
  have hlen : ∀ r ∈ docs.map (ts, ·), checkLength r.2.embedding = .ok () := by
    intro r hr
    obtain ⟨req, hreq, rfl⟩ := List.mem_map.mp hr
    rw [htext req hreq]
    rfl
  have hreqs : (docs.map (ts, ·)).map Prod.snd = docs := by
    rw [List.map_map]
    exact List.map_id docs
  rw [putBatchFast_eq_putBatch htext, putBatch_isOk, and_iff_right hlen, hreqs]

/-- After a batch all its texts are there. -/
theorem putBatchFast_known (htext : TextOnly docs) (h : s.putBatchFast ts docs = .ok (t, ids)) :
    ∀ req ∈ docs, t.byText req.text ≠ none := by
  intro req hreq
  rw [putBatchFast_eq_putBatch htext] at h
  obtain ⟨d, hd, hkey⟩ := exists_row_of_putBatch h (ts, req) (List.mem_map_of_mem hreq)
  rw [byText, ne_eq, Table.byKey_eq_none]
  exact fun hnone => hnone d hd hkey

/-- `put_batch_fast` stores no embedding. -/
theorem putBatchFast_hasEmbedding (htext : TextOnly docs)
    (h : s.putBatchFast ts docs = .ok (t, ids)) (text : String) (e : List F32) :
    t.HasEmbedding text e ↔ s.HasEmbedding text e := by
  have hnone : ¬FirstBrings ((docs.map (ts, ·)).map Prod.snd) text e := by
    rintro ⟨req, hfind, hemb⟩
    obtain ⟨r, hr, rfl⟩ := List.mem_map.mp (List.mem_of_find?_eq_some hfind)
    obtain ⟨req, hreq, rfl⟩ := List.mem_map.mp hr
    rw [htext req hreq] at hemb
    cases hemb
  rw [putBatchFast_eq_putBatch htext] at h
  rw [putBatch_hasEmbedding h]
  exact or_iff_left fun hnew => hnone hnew.2

end Fast

/-- When the second phase leaves all embeddings: they were all there before the first, or the first
phase was refused, so that the second one has found new texts. -/
def Completes (s : Store) (docs : List TwoPhase) : Prop :=
  (∀ d ∈ docs, s.HasEmbedding d.first.text d.embedding) ∨
    ¬s.Storable (docs.map TwoPhase.first) ∧ s.Storable (docs.map TwoPhase.second) ∧
      ∀ d ∈ docs, s.HasEmbedding d.first.text d.embedding ∨
        s.byText d.first.text = none ∧
          FirstBrings (docs.map TwoPhase.second) d.first.text d.embedding

section Phases

variable {s : Store} (ts : ℤ) {docs : List TwoPhase}

omit [Blake3] in
theorem textOnly_first (docs : List TwoPhase) : TextOnly (docs.map TwoPhase.first) := by
  intro req hreq
  obtain ⟨d, -, rfl⟩ := List.mem_map.mp hreq
  exact d.first_embedding

omit [Blake3] in
/-- The embeddings of the second phase were checked. -/
theorem checkLength_second (docs : List TwoPhase) :
    ∀ r ∈ docs.map fun d => (d.now, d.second), checkLength r.2.embedding = .ok () := by
  intro r hr
  obtain ⟨d, -, rfl⟩ := List.mem_map.mp hr
  rw [d.second_embedding]
  exact checkLength_of_checkEmbedding d.valid

omit [Blake3] in
theorem map_second (docs : List TwoPhase) :
    (docs.map fun d => (d.now, d.second)).map Prod.snd = docs.map TwoPhase.second :=
  List.map_map

/-- After a first phase that went through, the second one skips every text. -/
theorem twoPhase_of_storable (h : s.Storable (docs.map TwoPhase.first)) (text : String)
    (e : List F32) : (s.twoPhase ts docs).HasEmbedding text e ↔ s.HasEmbedding text e := by
  obtain ⟨⟨t, ids⟩, hfast⟩ : ∃ r, s.putBatchFast ts (docs.map TwoPhase.first) = .ok r :=
    (putBatchFast_isOk (textOnly_first docs)).mpr h
  have hknown : ∀ r ∈ docs.map fun d => (d.now, d.second), t.byText r.2.text ≠ none := by
    intro r hr
    obtain ⟨d, hd, rfl⟩ := List.mem_map.mp hr
    rw [d.text_eq]
    exact putBatchFast_known (textOnly_first docs) hfast _ (List.mem_map_of_mem hd)
  obtain ⟨ids', hbatch⟩ := putBatch_of_known (checkLength_second docs) hknown
  have hend : s.twoPhase ts docs = t := by
    rw [twoPhase, hfast]
    change t.after (t.putBatch _) = t
    rw [hbatch]
    rfl
  rw [hend]
  exact putBatchFast_hasEmbedding (textOnly_first docs) hfast text e

/-- After a first phase that was refused, the second one starts from the same store. -/
theorem twoPhase_of_refused (h : ¬s.Storable (docs.map TwoPhase.first)) :
    s.twoPhase ts docs = s.after (s.putBatch (docs.map fun d => (d.now, d.second))) := by
  have hmid : s.after (s.putBatchFast ts (docs.map TwoPhase.first)) = s := by
    cases hfast : s.putBatchFast ts (docs.map TwoPhase.first) with
    | error e => rfl
    | ok r => exact absurd ((putBatchFast_isOk (textOnly_first docs)).mp ⟨r, hfast⟩) h
  rw [twoPhase, hmid]

end Phases

/-- The second phase leaves an embedding for each document exactly if `Completes`. -/
theorem twoPhase_hasEmbedding_iff (s : Store) (ts : ℤ) (docs : List TwoPhase) :
    (∀ d ∈ docs, (s.twoPhase ts docs).HasEmbedding d.first.text d.embedding) ↔
      s.Completes docs := by
  by_cases hstorable : s.Storable (docs.map TwoPhase.first)
  · simp only [twoPhase_of_storable ts hstorable, Completes, hstorable, not_true_eq_false,
      false_and, or_false]
  · have hsecond : (∃ r, s.putBatch (docs.map fun d => (d.now, d.second)) = .ok r) ↔ _ :=
      putBatch_isOk
    rw [map_second, and_iff_right (checkLength_second docs)] at hsecond
    rw [twoPhase_of_refused ts hstorable]
    cases hbatch : s.putBatch (docs.map fun d => (d.now, d.second)) with
    | error e =>
      have hnot : ¬s.Storable (docs.map TwoPhase.second) := by
        intro h
        obtain ⟨r, hr⟩ := hsecond.mpr h
        rw [hbatch] at hr
        cases hr
      change (∀ d ∈ docs, s.HasEmbedding d.first.text d.embedding) ↔ _
      simp [Completes, hnot]
    | ok r =>
      obtain ⟨t, ids⟩ := r
      have hstored := hsecond.mp ⟨_, hbatch⟩
      have hemb := putBatch_hasEmbedding hbatch
      rw [map_second] at hemb
      change (∀ d ∈ docs, t.HasEmbedding d.first.text d.embedding) ↔ _
      simp only [hemb, Completes, hstorable, hstored, not_false_eq_true, true_and]
      refine ⟨.inr, ?_⟩
      rintro (hold | h)
      · exact fun d hd => .inl (hold d hd)
      · exact h

end TwoPhases

/-- The text "a" in two phases, with an embedding of zeros. -/
def zeroPhases : TwoPhase where
  first := { uri := none, title := none, text := "a", meta_ := none, embedding := none }
  second := { uri := none, title := none, text := "a", meta_ := none,
              embedding := some (List.replicate embedDim 0) }
  now := 1
  embedding := List.replicate embedDim 0
  text_eq := rfl
  first_embedding := rfl
  second_embedding := rfl
  valid := by decide +kernel

/-- What the two phases leave of it in a new store. -/
def zeroStore : @Store Blake3.identity :=
  let _ := Blake3.identity
  empty.twoPhase 0 [zeroPhases]

theorem zeroStore_vecs : @vecs Blake3.identity zeroStore = [] := by decide +kernel

/-- The second phase finds the text stored and skips the embedding. -/
theorem zeroPhases_no_embedding :
    let _ := Blake3.identity
    ¬∀ d ∈ [zeroPhases], (empty.twoPhase 0 [zeroPhases]).HasEmbedding d.first.text d.embedding := by
  intro _ h
  obtain ⟨d, -, -, hd⟩ := h zeroPhases List.mem_cons_self
  exact absurd hd (zeroStore_vecs ▸ List.not_mem_nil)

end Store

end SynapseMemory
