import SynapseMemory.Store

/-!
# The memories of the documents

The table `memories` is a layer over `docs`. Each put makes sure that its document has an active raw
memory: a row of type `raw` without an entity that nothing has superseded. A promotion gives the
active row of a document another type, in place, and it can supersede the memory of another
document.

Foreign keys are checked, and ids are one more than the largest one in use. Statements that take the
first row of an order take the first of those that are equal. The rows of `memory_edges` and of
`extraction_queue` are left out, since nothing here reads them.
-/

namespace SynapseMemory

open Proto

/-- `MemoryType` -/
inductive MemoryType where
  | fact
  | decision
  | lesson
  | preference
  | episodic
  | raw
  deriving DecidableEq

/-- A row of the table `memories`. -/
structure Memory where
  id : ℤ
  docId : ℤ
  memoryType : MemoryType
  entityId : Option ℤ
  confidence : F64
  supersededBy : Option ℤ
  updatedTs : ℤ
  eventDate : Option String
  deriving DecidableEq

/-- `DocMemoryState` -/
structure DocMemoryState where
  memoryType : MemoryType
  confidence : F64
  eventDate : Option String
  superseded : Bool
  deriving DecidableEq

/-- The errors of the memory functions. -/
inductive MemoryError where
  | sqlite (message : String)
  | other (message : String)
  | notFound (message : String)
  deriving DecidableEq

/-- `ORDER BY … LIMIT 1` -/
def firstBy {α : Type*} (before : α → α → Bool) : List α → Option α
  | [] => none
  | x :: rest =>
    match firstBy before rest with
    | none => some x
    | some y => if before y x then some y else some x

/-- The first row of an order is a row. -/
theorem mem_of_firstBy {α : Type*} {before : α → α → Bool} {rows : List α} {x : α}
    (h : firstBy before rows = some x) : x ∈ rows := by
  induction rows generalizing x with
  | nil => cases h
  | cons y rest ih =>
    rw [firstBy] at h
    cases hrest : firstBy before rest with
    | none =>
      rw [hrest] at h
      cases h
      exact List.mem_cons_self
    | some z =>
      rw [hrest] at h
      simp only at h
      split at h <;> cases h
      · exact List.mem_cons_of_mem y (ih hrest)
      · exact List.mem_cons_self

theorem firstBy_eq_none {α : Type*} {before : α → α → Bool} {rows : List α}
    (h : firstBy before rows = none) : rows = [] := by
  cases rows with
  | nil => rfl
  | cons x rest =>
    rw [firstBy] at h
    split at h
    next => cases h
    next => split at h <;> cases h

/-- The documents and their memories. -/
structure MemoryStore [Blake3] where
  db : Store
  memories : List Memory

namespace Memory

/-- `doc_id = ?1 AND entity_id IS NULL AND superseded_by IS NULL` -/
def isActiveFor (docId : ℤ) (m : Memory) : Bool :=
  m.docId = docId && m.entityId.isNone && m.supersededBy.isNone

/-- … `AND memory_type = 'raw'` -/
def isRawFor (docId : ℤ) (m : Memory) : Bool := m.isActiveFor docId && m.memoryType = .raw

/-- `CASE WHEN memory_type = 'raw' THEN 0 ELSE 1 END, updated_ts DESC` -/
def rawFirst (m n : Memory) : Bool :=
  if m.memoryType = .raw ∧ n.memoryType ≠ .raw then true
  else if m.memoryType ≠ .raw ∧ n.memoryType = .raw then false
  else n.updatedTs < m.updatedTs

/-- `updated_ts DESC` -/
def newestFirst (m n : Memory) : Bool := n.updatedTs < m.updatedTs

/-- `CASE WHEN superseded_by IS NULL THEN 0 ELSE 1 END, updated_ts DESC` -/
def activeFirst (m n : Memory) : Bool :=
  if m.supersededBy.isNone && n.supersededBy.isSome then true
  else if m.supersededBy.isSome && n.supersededBy.isNone then false
  else n.updatedTs < m.updatedTs

/-- `1.0` -/
def full : F64 := 0x3FF0000000000000#64

/-- `is_finite` and `(0.0..=1.0).contains`: the bits of the numbers from zero to one are in order,
and negative zero is one of them. -/
def confidenceOk (confidence : F64) : Bool := confidence ≤ full || confidence = 1#64 <<< 63

theorem isRawFor_iff {docId : ℤ} {m : Memory} :
    m.isRawFor docId = true ↔ m.docId = docId ∧ m.entityId = none ∧ m.supersededBy = none ∧
      m.memoryType = .raw := by
  rw [isRawFor, isActiveFor]
  simp [and_assoc]

end Memory

namespace MemoryStore

variable [Blake3]

/-- A new database. -/
def new : MemoryStore := ⟨Store.empty, []⟩

/-- The error of a row that refers to nothing. -/
def foreignKeyFailed : MemoryError := .sqlite "FOREIGN KEY constraint failed"

/-- The id of the next row. -/
def nextId (s : MemoryStore) : ℤ := (s.memories.map Memory.id).max?.getD 0 + 1

/-- A memory without an entity. -/
def putMemoryWithDate (s : MemoryStore) (ts docId : ℤ) (memoryType : MemoryType)
    (confidence : F64) (eventDate : Option String) : Except MemoryError (MemoryStore × ℤ) :=
  if s.db.docs.rows.any fun d => d.id = docId then
    let m : Memory := ⟨s.nextId, docId, memoryType, none, confidence, none, ts, eventDate⟩
    .ok ({ s with memories := s.memories ++ [m] }, m.id)
  else .error foreignKeyFailed

/-- `put_memory` -/
def putMemory (s : MemoryStore) (ts docId : ℤ) (memoryType : MemoryType) (confidence : F64) :
    Except MemoryError (MemoryStore × ℤ) :=
  s.putMemoryWithDate ts docId memoryType confidence none

/-- `ensure_raw_memory` -/
def ensureRawMemory (s : MemoryStore) (ts docId : ℤ) : Except MemoryError (MemoryStore × ℤ) :=
  match s.memories.find? (Memory.isRawFor docId) with
  | some m => .ok (s, m.id)
  | none => s.putMemory ts docId .raw Memory.full

/-- Raw memories for a list of documents, one after the other. -/
def insertRaws (ts : ℤ) : MemoryStore → List ℤ → Except MemoryError MemoryStore
  | s, [] => .ok s
  | s, docId :: rest => do
    let (s, _) ← s.putMemory ts docId .raw Memory.full
    insertRaws ts s rest

/-- The `SELECT` of the batch insert reads the table before the insert changes it, so a document
that is in the list twice is missing twice. -/
def missingRaws (s : MemoryStore) (docIds : List ℤ) : List ℤ :=
  docIds.filter fun docId => !s.memories.any (Memory.isRawFor docId)

/-- `ensure_raw_memory_batch` -/
def ensureRawMemoryBatch (s : MemoryStore) (ts : ℤ) (docIds : List ℤ) :
    Except MemoryError (MemoryStore × ℕ) :=
  if docIds.isEmpty then .ok (s, 0)
  else do
    let missing := s.missingRaws docIds
    let s ← insertRaws ts s missing
    .ok (s, missing.length)

/-- `UPDATE memories SET … WHERE id = ?` -/
def modify (s : MemoryStore) (id : ℤ) (f : Memory → Memory) : MemoryStore :=
  { s with memories := s.memories.map fun m => if m.id = id then f m else m }

/-- The row of an id is there. -/
def known (s : MemoryStore) (id : ℤ) : Bool := s.memories.any fun m => m.id = id

/-- The update needs the new memory, and the edge after it needs both. -/
def supersede (s : MemoryStore) (ts oldId newId : ℤ) : Except MemoryError MemoryStore :=
  if s.known newId && s.known oldId then
    .ok (s.modify oldId fun m => { m with supersededBy := some newId, updatedTs := ts })
  else .error foreignKeyFailed

/-- The memories of a document that are active and have no entity. -/
def active (s : MemoryStore) (docId : ℤ) : List Memory :=
  s.memories.filter (Memory.isActiveFor docId)

/-- The first half of a promotion: the active row of the document, or a new one. -/
def promoteRow (s : MemoryStore) (ts docId : ℤ) (memoryType : MemoryType) (confidence : F64)
    (eventDate : Option String) : Except MemoryError (MemoryStore × ℤ) :=
  match firstBy Memory.rawFirst (s.active docId) with
  | some m =>
    .ok (s.modify m.id fun m =>
      { m with memoryType, confidence, eventDate, updatedTs := ts }, m.id)
  | none => s.putMemoryWithDate ts docId memoryType confidence eventDate

/-- The second half: the newest active memory of another document is superseded. -/
def supersedeDoc (s : MemoryStore) (ts memoryId : ℤ) :
    Option ℤ → Except MemoryError (MemoryStore × ℤ)
  | none => .ok (s, memoryId)
  | some oldDocId =>
    match firstBy Memory.newestFirst
      (s.memories.filter fun m => m.docId = oldDocId && m.supersededBy.isNone) with
    | none => .error (.notFound s!"active memory for doc_id={oldDocId}")
    | some m => do
      let s ← s.supersede ts m.id memoryId
      .ok (s, memoryId)

/-- One transaction, which reads the clock once for each half. -/
def promoteDocMemory (s : MemoryStore) (ts oldTs docId : ℤ) (memoryType : MemoryType)
    (confidence : F64) (eventDate : Option String) (supersedesDocId : Option ℤ) :
    Except MemoryError (MemoryStore × ℤ) :=
  if !Memory.confidenceOk confidence then
    .error (.other "confidence must be between 0 and 1")
  else if supersedesDocId = some docId then .error (.other "a memory cannot supersede itself")
  else do
    let (s, memoryId) ← s.promoteRow ts docId memoryType confidence eventDate
    s.supersedeDoc oldTs memoryId supersedesDocId

/-- `doc_memory_state` -/
def docMemoryState (s : MemoryStore) (docId : ℤ) : Option DocMemoryState :=
  (firstBy Memory.activeFirst (s.memories.filter fun m => m.docId = docId)).map fun m =>
    ⟨m.memoryType, m.confidence, m.eventDate, m.supersededBy.isSome⟩

/-- A put, with the clock in milliseconds and in seconds. That the memory could not be written is
only logged. -/
def put (s : MemoryStore) (now ts : ℤ) (req : PutRequest) : Except Store.Error (MemoryStore × ℤ) :=
  match s.db.putInner now req with
  | .error e => .error e
  | .ok (db, id) =>
    match { s with db }.ensureRawMemory ts id with
    | .ok (s, _) => .ok (s, id)
    | .error _ => .ok ({ s with db }, id)

/-- `put_batch`, which makes the raw memories after the documents. An error in that is ignored. -/
def putBatch (s : MemoryStore) (ts : ℤ) (reqs : List (ℤ × PutRequest)) :
    Except Store.Error (MemoryStore × List ℤ) :=
  match s.db.putBatch reqs with
  | .error e => .error e
  | .ok (db, ids) =>
    match { s with db }.ensureRawMemoryBatch ts ids with
    | .ok (s, _) => .ok (s, ids)
    | .error _ => .ok ({ s with db }, ids)

/-! ## New rows -/

/-- The next id is not given out yet. -/
theorem nextId_notMem (s : MemoryStore) : s.nextId ∉ s.memories.map Memory.id := by
  intro hmem
  rw [nextId] at hmem
  cases hmax : (s.memories.map Memory.id).max? with
  | none =>
    rw [List.max?_eq_none_iff] at hmax
    rw [hmax] at hmem
    cases hmem
  | some m =>
    have hle := (List.max?_eq_some_iff.mp hmax).2 _ hmem
    rw [hmax] at hle
    exact absurd hle (not_le.mpr (Int.lt_succ m))

/-- What a list of new raw memories leaves. -/
structure RawAdded (s s' : MemoryStore) (docIds : List ℤ) : Prop where
  db_eq : s'.db = s.db
  rows : ∃ rows, s'.memories = s.memories ++ rows ∧ rows.map Memory.docId = docIds ∧
    ∀ m ∈ rows, m.isRawFor m.docId
  nodup : (s.memories.map Memory.id).Nodup → (s'.memories.map Memory.id).Nodup

theorem RawAdded.refl (s : MemoryStore) : RawAdded s s [] :=
  ⟨rfl, ⟨[], (List.append_nil _).symm, rfl, List.forall_mem_nil _⟩, id⟩

/-- Adding raw memories twice adds all of them. -/
theorem RawAdded.trans {s t u : MemoryStore} {docIds more : List ℤ} (hst : RawAdded s t docIds)
    (htu : RawAdded t u more) : RawAdded s u (docIds ++ more) := by
  obtain ⟨rows, hrows, hids, hraw⟩ := hst.rows
  obtain ⟨rows', hrows', hids', hraw'⟩ := htu.rows
  refine ⟨htu.db_eq.trans hst.db_eq, ⟨rows ++ rows', ?_, ?_, ?_⟩, ?_⟩
  · rw [hrows', hrows, List.append_assoc]
  · rw [List.map_append, hids, hids']
  · exact List.forall_mem_append.mpr ⟨hraw, hraw'⟩
  · exact fun h => htu.nodup (hst.nodup h)

theorem nodup_append_nextId {s : MemoryStore} {m : Memory} (hm : m.id = s.nextId)
    (h : (s.memories.map Memory.id).Nodup) : ((s.memories ++ [m]).map Memory.id).Nodup := by
  rw [List.map_append, List.nodup_append]
  refine ⟨h, List.nodup_singleton _, fun i hi j hj => ?_⟩
  rintro rfl
  rw [List.map_singleton, List.mem_singleton, hm] at hj
  exact s.nextId_notMem (hj ▸ hi)

/-- A raw memory of a document that is there is added. -/
theorem putMemory_raw {s : MemoryStore} {docId : ℤ} (ts : ℤ)
    (hdoc : ∃ d ∈ s.db.docs.rows, d.id = docId) :
    ∃ s', s.putMemory ts docId .raw Memory.full = .ok (s', s.nextId) ∧ RawAdded s s' [docId] := by
  have hany : (s.db.docs.rows.any fun d => d.id = docId) = true := by
    obtain ⟨d, hd, hid⟩ := hdoc
    exact List.any_eq_true.mpr ⟨d, hd, decide_eq_true hid⟩
  have hput : s.putMemory ts docId .raw Memory.full = .ok ({ s with memories := s.memories ++
      [⟨s.nextId, docId, .raw, none, Memory.full, none, ts, none⟩] }, s.nextId) := by
    rw [putMemory, putMemoryWithDate, if_pos hany]
  refine ⟨_, hput, rfl, ⟨_, rfl, rfl, ?_⟩, nodup_append_nextId rfl⟩
  · intro m hm
    obtain rfl := List.mem_singleton.mp hm
    simp [Memory.isRawFor, Memory.isActiveFor]

/-- So are those of several documents. -/
theorem insertRaws_ok {s : MemoryStore} {docIds : List ℤ} (ts : ℤ)
    (hdocs : ∀ i ∈ docIds, ∃ d ∈ s.db.docs.rows, d.id = i) :
    ∃ s', insertRaws ts s docIds = .ok s' ∧ RawAdded s s' docIds := by
  induction docIds generalizing s with
  | nil => exact ⟨s, rfl, RawAdded.refl s⟩
  | cons docId rest ih =>
    obtain ⟨hdoc, hrest⟩ := List.forall_mem_cons.mp hdocs
    obtain ⟨t, ht, hadded⟩ := putMemory_raw ts hdoc
    obtain ⟨u, hu, hadded'⟩ := ih (hadded.db_eq ▸ hrest)
    refine ⟨u, ?_, hadded.trans hadded'⟩
    rw [insertRaws, ht]
    exact hu

/-- The list of the documents that get a raw memory: none, or the one. -/
theorem ensureRawMemory_ok (s : MemoryStore) {docId : ℤ} (ts : ℤ)
    (hdoc : ∃ d ∈ s.db.docs.rows, d.id = docId) :
    ∃ s' id, s.ensureRawMemory ts docId = .ok (s', id) ∧ RawAdded s s' (s.missingRaws [docId]) := by
  rw [ensureRawMemory]
  cases hfind : s.memories.find? (Memory.isRawFor docId) with
  | some m =>
    have hany : s.memories.any (Memory.isRawFor docId) = true :=
      List.any_eq_true.mpr ⟨m, List.mem_of_find?_eq_some hfind, List.find?_some hfind⟩
    refine ⟨s, m.id, rfl, ?_⟩
    simpa [missingRaws, hany] using RawAdded.refl s
  | none =>
    have hany : s.memories.any (Memory.isRawFor docId) = false := by
      rw [List.any_eq_false]
      exact fun m hm => List.find?_eq_none.mp hfind m hm
    obtain ⟨s', hok, hadded⟩ := putMemory_raw ts hdoc
    refine ⟨s', s.nextId, hok, ?_⟩
    simpa [missingRaws, hany] using hadded

/-- A batch adds the raw memories that are missing. -/
theorem ensureRawMemoryBatch_ok (s : MemoryStore) {docIds : List ℤ} (ts : ℤ)
    (hdocs : ∀ i ∈ docIds, ∃ d ∈ s.db.docs.rows, d.id = i) :
    ∃ s' n, s.ensureRawMemoryBatch ts docIds = .ok (s', n) ∧
      RawAdded s s' (s.missingRaws docIds) := by
  rw [ensureRawMemoryBatch]
  cases docIds with
  | nil => exact ⟨s, 0, rfl, RawAdded.refl s⟩
  | cons docId rest =>
    have hmissing : ∀ i ∈ s.missingRaws (docId :: rest), ∃ d ∈ s.db.docs.rows, d.id = i :=
      fun i hi => hdocs i (List.mem_of_mem_filter hi)
    obtain ⟨s', hok, hadded⟩ := insertRaws_ok ts hmissing
    refine ⟨s', (s.missingRaws (docId :: rest)).length, ?_, hadded⟩
    rw [List.isEmpty_cons, if_neg Bool.false_ne_true]
    change (insertRaws ts s (s.missingRaws (docId :: rest)) >>= _) = _
    rw [hok]
    rfl

/-- A put stores its document and then makes sure of its memory. -/
theorem put_ok {s s' : MemoryStore} {now ts id : ℤ} {req : PutRequest}
    (h : s.put now ts req = .ok (s', id)) :
    ∃ db, s.db.putInner now req = .ok (db, id) ∧
      RawAdded { s with db } s' (s.missingRaws [id]) := by
  rw [put] at h
  split at h
  next => cases h
  next db i hok =>
    obtain ⟨d, hd, -, hid⟩ := Store.findOrInsert_row (Store.putInner_ok.mp hok).2
    obtain ⟨t, n, ht, hadded⟩ :=
      ensureRawMemory_ok { s with db } ts ⟨d, hd, hid⟩
    rw [ht] at h
    cases h
    exact ⟨db, hok, hadded⟩

/-- A batch of documents adds its documents, and their raw memories. -/
theorem putBatch_ok {s s' : MemoryStore} {ts : ℤ} {reqs : List (ℤ × PutRequest)} {ids : List ℤ}
    (h : s.putBatch ts reqs = .ok (s', ids)) :
    ∃ db, s.db.putBatch reqs = .ok (db, ids) ∧
      RawAdded { s with db } s' (s.missingRaws ids) := by
  rw [putBatch] at h
  split at h
  next => cases h
  next db is hok =>
    obtain ⟨t, n, ht, hadded⟩ :=
      ensureRawMemoryBatch_ok { s with db } ts (Store.exists_of_mem_putBatch hok)
    rw [ht] at h
    cases h
    exact ⟨db, hok, hadded⟩

end MemoryStore

end SynapseMemory
