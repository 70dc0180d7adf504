import SynapseMemory.Extraction

/-!
# Raw memories, one by one and in a batch

A document gets a raw memory and a place in the extraction queue when it is put. For one document
the function looks for the raw memory and inserts it if there is none. For a list of documents there
is a batch, whose `INSERT … SELECT` looks for all of them before it inserts the first. So a document
that has no raw memory and is in the list twice gets two of them, while the second call of the
function for one document finds the row of the first.

The batch is one transaction: it does nothing at all if a document that needs a memory does not
exist, where the calls one by one fail for that document only. `batch_eq_each_iff` says when both
leave the same tables. Both read the clock once here.
-/

namespace SynapseMemory.RawMemories

open Extract Proto
open MemoryStore (foreignKeyFailed)

/-! ## The tables -/

/-- A row of `memories` with all of its columns. -/
structure MemoryRow extends Memory where
  weight : F64
  projectTags : Option String
  createdTs : ℤ
  deriving DecidableEq

/-- The tables of the memories, and the ids of those that they refer to. -/
structure Tables where
  docs : List ℤ
  entities : List ℤ
  memories : List MemoryRow
  queue : List Queued
  deriving DecidableEq

/-- `default_weight` -/
def defaultWeight : MemoryType → F64
  | .fact => 0x3FF3333333333333#64
  | .decision => 0x3FF199999999999A#64
  | .lesson => 0x3FF0CCCCCCCCCCCD#64
  | .preference => 0x3FF2666666666666#64
  | .episodic => 0x3FEE666666666666#64
  | .raw => 0x3FF0000000000000#64

/-- The id of the next row. -/
def nextId (rows : List MemoryRow) : ℤ := (rows.map fun m => m.id).max?.getD 0 + 1

/-- The row of an `INSERT` into `memories`. -/
def newRow (rows : List MemoryRow) (ts docId : ℤ) (memoryType : MemoryType) (entityId : Option ℤ)
    (projectTags : Option String) (confidence : F64) : MemoryRow :=
  { id := nextId rows, docId, memoryType, entityId, confidence, supersededBy := none,
    updatedTs := ts, eventDate := none, weight := defaultWeight memoryType, projectTags,
    createdTs := ts }

namespace Tables

/-- `put_memory`, which refuses a row that refers to nothing. -/
def putMemory (t : Tables) (ts docId : ℤ) (memoryType : MemoryType) (entityId : Option ℤ)
    (projectTags : Option String) (confidence : F64) : Except MemoryError (Tables × ℤ) :=
  if docId ∈ t.docs ∧ ∀ id ∈ entityId, id ∈ t.entities then
    let m := newRow t.memories ts docId memoryType entityId projectTags confidence
    .ok ({ t with memories := t.memories ++ [m] }, m.id)
  else .error foreignKeyFailed

/-! ## One by one -/

/-- `ensure_raw_memory` -/
def ensureRawMemory (t : Tables) (ts docId : ℤ) : Except MemoryError (Tables × ℤ) :=
  match t.memories.find? fun m => m.isRawFor docId with
  | some m => .ok (t, m.id)
  | none => t.putMemory ts docId .raw none none Memory.full

/-- `INSERT OR IGNORE` into the queue. -/
def enqueueExtraction (ts : ℤ) (t : Tables) (docId : ℤ) : Tables :=
  if t.queue.any fun q => q.docId = docId then t
  else { t with queue := t.queue ++ [⟨docId, ts, 0, none, .pending⟩] }

/-- `ensure_raw_memory_and_enqueue` -/
def ensureRawMemoryAndEnqueue (t : Tables) (ts docId : ℤ) : Except MemoryError (Tables × ℤ) :=
  match t.ensureRawMemory ts docId with
  | .ok (t, memoryId) => .ok (t.enqueueExtraction ts docId, memoryId)
  | .error e => .error e

/-! ## In a batch -/

/-- The rows of a `SELECT`, inserted one after the other. -/
def insertRaws (ts : ℤ) : Tables → List ℤ → Except MemoryError Tables
  | t, [] => .ok t
  | t, docId :: rest =>
    match t.putMemory ts docId .raw none none Memory.full with
    | .ok (t, _) => insertRaws ts t rest
    | .error e => .error e

/-- There is a raw memory of the document. -/
def hasRaw (t : Tables) (docId : ℤ) : Bool := t.memories.any fun m => m.isRawFor docId

/-- The documents of the `SELECT`, which reads the table before the `INSERT` changes it. -/
def missing (t : Tables) (docIds : List ℤ) : List ℤ := docIds.filter fun docId => !t.hasRaw docId

/-- `ensure_raw_memory_and_enqueue_batch` -/
def ensureRawMemoryAndEnqueueBatch (t : Tables) (ts : ℤ) (docIds : List ℤ) :
    Except MemoryError (Tables × ℕ) :=
  if docIds.isEmpty then .ok (t, 0)
  else
    match insertRaws ts t (t.missing docIds) with
    | .ok t' => .ok (docIds.foldl (enqueueExtraction ts) t', (t.missing docIds).length)
    | .error e => .error e

/-! ## What they leave -/

/-- A call that fails leaves the tables as they were. -/
def after {α : Type} (t : Tables) : Except MemoryError (Tables × α) → Tables
  | .ok (t', _) => t'
  | .error _ => t

/-- The tables after a batch, which leaves them as they are if it fails. -/
def batch (ts : ℤ) (docIds : List ℤ) (t : Tables) : Tables :=
  t.after (t.ensureRawMemoryAndEnqueueBatch ts docIds)

/-- The function for one document, on each in order. -/
def each (ts : ℤ) (docIds : List ℤ) (t : Tables) : Tables :=
  docIds.foldl (fun t docId => t.after (t.ensureRawMemoryAndEnqueue ts docId)) t

/-- The document is in the queue. -/
def queued (t : Tables) (docId : ℤ) : Bool := t.queue.any fun q => q.docId = docId

/-- The function for one document does not fail. -/
def Accepts (t : Tables) (docId : ℤ) : Prop := t.hasRaw docId = true ∨ docId ∈ t.docs

/-! ## The parts of a call -/

/-- The raw row that is inserted for a document. -/
def appendRaw (ts : ℤ) (t : Tables) (docId : ℤ) : Tables :=
  { t with memories := t.memories ++ [newRow t.memories ts docId .raw none none Memory.full] }

/-- The same, if there is none. -/
def addRaw (ts : ℤ) (t : Tables) (docId : ℤ) : Tables :=
  if t.hasRaw docId then t else t.appendRaw ts docId

section Parts

variable {t : Tables} {ts docId i : ℤ} {docIds : List ℤ}

@[simp] theorem docs_appendRaw : (t.appendRaw ts docId).docs = t.docs := rfl

@[simp] theorem docs_addRaw : (t.addRaw ts docId).docs = t.docs := by
  rw [addRaw]
  split <;> rfl

@[simp] theorem docs_enqueueExtraction : (t.enqueueExtraction ts docId).docs = t.docs := by
  rw [enqueueExtraction]
  split <;> rfl

@[simp] theorem hasRaw_appendRaw :
    (t.appendRaw ts docId).hasRaw i = (t.hasRaw i || decide (docId = i)) := by
  simp [hasRaw, appendRaw, newRow, Memory.isRawFor, Memory.isActiveFor]

@[simp] theorem hasRaw_addRaw : (t.addRaw ts docId).hasRaw i =
    (t.hasRaw i || decide (docId = i)) := by
  rw [addRaw]
  split
  next hraw =>
    by_cases h : docId = i
    · rw [← h, hraw]
      rfl
    · simp [h]
  next => exact hasRaw_appendRaw

@[simp] theorem hasRaw_enqueueExtraction :
    (t.enqueueExtraction ts docId).hasRaw i = t.hasRaw i := by
  rw [enqueueExtraction]
  split <;> rfl

@[simp] theorem queued_addRaw : (t.addRaw ts docId).queued i = t.queued i := by
  rw [addRaw]
  split <;> rfl

@[simp] theorem queued_enqueueExtraction :
    (t.enqueueExtraction ts docId).queued i = (t.queued i || decide (docId = i)) := by
  rw [enqueueExtraction]
  split
  next hqueued =>
    by_cases h : docId = i
    · rw [← h, queued, hqueued]
      rfl
    · simp [h]
  next => simp [queued]

/-- A raw memory is put if its document is there. -/
theorem putMemory_raw : t.putMemory ts docId .raw none none Memory.full =
    if docId ∈ t.docs then .ok (t.appendRaw ts docId, nextId t.memories)
    else .error foreignKeyFailed := by
  rw [putMemory]
  simp only [Option.mem_def, reduceCtorEq, false_implies, implies_true, and_true]
  rfl

/-- One call that does not fail. -/
theorem after_ensure (h : t.Accepts docId) : t.after (t.ensureRawMemoryAndEnqueue ts docId) =
    (t.addRaw ts docId).enqueueExtraction ts docId := by
  rw [ensureRawMemoryAndEnqueue, ensureRawMemory, addRaw]
  cases hfind : t.memories.find? fun m => m.isRawFor docId with
  | some m =>
    have hm : m.isRawFor docId = true := by simpa using List.find?_some hfind
    have hraw : t.hasRaw docId = true :=
      List.any_eq_true.mpr ⟨m, List.mem_of_find?_eq_some hfind, hm⟩
    rw [if_pos hraw]
    rfl
  | none =>
    have hraw : ¬t.hasRaw docId = true := by
      rw [hasRaw, List.any_eq_true]
      rintro ⟨m, hm, hmraw⟩
      exact List.find?_eq_none.mp hfind m hm hmraw
    rw [if_neg hraw, putMemory_raw, if_pos (h.resolve_left hraw)]
    rfl

/-- One that fails: the document needs a memory and does not exist. -/
theorem after_ensure_of_not (h : ¬t.Accepts docId) :
    t.after (t.ensureRawMemoryAndEnqueue ts docId) = t := by
  obtain ⟨hraw, hdoc⟩ := not_or.mp h
  have hfind : (t.memories.find? fun m => m.isRawFor docId) = none := by
    rw [List.find?_eq_none]
    intro m hm hmraw
    exact hraw (List.any_eq_true.mpr ⟨m, hm, hmraw⟩)
  rw [ensureRawMemoryAndEnqueue, ensureRawMemory, hfind, putMemory_raw, if_neg hdoc]
  rfl

/-- The two tables of a call have nothing to do with each other. -/
theorem addRaw_enqueueExtraction : (t.enqueueExtraction ts i).addRaw ts docId =
    (t.addRaw ts docId).enqueueExtraction ts i := by
  by_cases hraw : t.hasRaw docId = true
  · rw [addRaw, addRaw, hasRaw_enqueueExtraction, if_pos hraw, if_pos hraw]
  · rw [addRaw, addRaw, hasRaw_enqueueExtraction, if_neg hraw, if_neg hraw, enqueueExtraction,
      enqueueExtraction, apply_ite (appendRaw ts · docId)]
    rfl

theorem foldl_addRaw_enqueueExtraction :
    docIds.foldl (addRaw ts) (t.enqueueExtraction ts i) =
      (docIds.foldl (addRaw ts) t).enqueueExtraction ts i := by
  induction docIds generalizing t with
  | nil => rfl
  | cons docId rest ih => rw [List.foldl_cons, List.foldl_cons, addRaw_enqueueExtraction, ih]

/-- One call, and then the others. -/
theorem each_cons : t.each ts (docId :: docIds) =
    (t.after (t.ensureRawMemoryAndEnqueue ts docId)).each ts docIds := rfl

/-- The calls without a failure: all memories, and then all places in the queue. -/
theorem each_eq (h : ∀ docId ∈ docIds, t.Accepts docId) : t.each ts docIds =
    docIds.foldl (enqueueExtraction ts) (docIds.foldl (addRaw ts) t) := by
  induction docIds generalizing t with
  | nil => rfl
  | cons docId rest ih =>
    obtain ⟨hdoc, hrest⟩ := List.forall_mem_cons.mp h
    have hnext : ∀ i ∈ rest, ((t.addRaw ts docId).enqueueExtraction ts docId).Accepts i := by
      intro i hi
      refine (hrest i hi).imp (fun hraw => ?_) fun hdocs => ?_
      · simp [hraw]
      · simpa using hdocs
    rw [each_cons, after_ensure hdoc, ih hnext, foldl_addRaw_enqueueExtraction, List.foldl_cons,
      List.foldl_cons]

/-- A batch inserts its rows if all documents are there. -/
theorem insertRaws_eq (h : ∀ docId ∈ docIds, docId ∈ t.docs) :
    insertRaws ts t docIds = .ok (docIds.foldl (appendRaw ts) t) := by
  induction docIds generalizing t with
  | nil => rfl
  | cons docId rest ih =>
    obtain ⟨hdoc, hrest⟩ := List.forall_mem_cons.mp h
    rw [insertRaws, putMemory_raw, if_pos hdoc]
    exact ih hrest

/-- It fails if one is not. -/
theorem insertRaws_error (h : ¬∀ docId ∈ docIds, docId ∈ t.docs) :
    insertRaws ts t docIds = .error foreignKeyFailed := by
  induction docIds generalizing t with
  | nil => exact absurd (List.forall_mem_nil _) h
  | cons docId rest ih =>
    rw [insertRaws, putMemory_raw]
    by_cases hdoc : docId ∈ t.docs
    · rw [if_pos hdoc]
      refine ih fun hrest => h ?_
      exact List.forall_mem_cons.mpr ⟨hdoc, hrest⟩
    · rw [if_neg hdoc]

/-- The batch without a failure. -/
theorem batch_eq (h : ∀ docId ∈ t.missing docIds, docId ∈ t.docs) : t.batch ts docIds =
    docIds.foldl (enqueueExtraction ts) ((t.missing docIds).foldl (appendRaw ts) t) := by
  rw [batch, ensureRawMemoryAndEnqueueBatch]
  split
  next hempty =>
    rw [List.isEmpty_iff.mp hempty]
    rfl
  next =>
    rw [insertRaws_eq h]
    rfl

/-- A failed batch changes nothing. -/
theorem batch_eq_self (h : ¬∀ docId ∈ t.missing docIds, docId ∈ t.docs) :
    t.batch ts docIds = t := by
  rw [batch, ensureRawMemoryAndEnqueueBatch]
  split
  next => rfl
  next =>
    rw [insertRaws_error h]
    rfl

/-! ## Where they differ -/

theorem memories_foldl_enqueueExtraction :
    (docIds.foldl (enqueueExtraction ts) t).memories = t.memories := by
  induction docIds generalizing t with
  | nil => rfl
  | cons docId rest ih =>
    rw [List.foldl_cons, ih, enqueueExtraction]
    split <;> rfl

theorem docIds_foldl_appendRaw :
    (docIds.foldl (appendRaw ts) t).memories.map (fun m => m.docId) =
      t.memories.map (fun m => m.docId) ++ docIds := by
  induction docIds generalizing t with
  | nil => simp
  | cons docId rest ih =>
    rw [List.foldl_cons, ih]
    simp [appendRaw, newRow]

/-- One by one, each document gets one memory at most. -/
theorem foldl_addRaw (ts : ℤ) (docIds : List ℤ) (t : Tables) : ∃ added : List ℤ,
    docIds.foldl (addRaw ts) t = added.foldl (appendRaw ts) t ∧ added.Nodup ∧
      ∀ i ∈ added, t.hasRaw i = false := by
  induction docIds generalizing t with
  | nil => exact ⟨[], rfl, List.nodup_nil, List.forall_mem_nil _⟩
  | cons docId rest ih =>
    obtain ⟨added, heq, hnodup, hnew⟩ := ih (t.addRaw ts docId)
    rw [List.foldl_cons, heq]
    by_cases hraw : t.hasRaw docId = true
    · rw [addRaw, if_pos hraw] at hnew ⊢
      exact ⟨added, rfl, hnodup, hnew⟩
    · rw [addRaw, if_neg hraw] at hnew ⊢
      have hfresh : ∀ i ∈ added, t.hasRaw i = false ∧ docId ≠ i := by
        intro i hi
        simpa using hnew i hi
      refine ⟨docId :: added, rfl, List.nodup_cons.mpr ⟨fun hmem => ?_, hnodup⟩, ?_⟩
      · exact (hfresh docId hmem).2 rfl
      · exact List.forall_mem_cons.mpr
          ⟨Bool.eq_false_iff.mpr hraw, fun i hi => (hfresh i hi).1⟩

/-- What is missing: the first document, and the rest. -/
theorem missing_cons : t.missing (docId :: docIds) =
    if t.hasRaw docId then t.missing docIds else docId :: t.missing docIds := by
  rw [missing, List.filter_cons]
  cases t.hasRaw docId <;> rfl

/-- What is missing once is missing one by one. -/
theorem foldl_appendRaw_missing (h : (t.missing docIds).Nodup) :
    (t.missing docIds).foldl (appendRaw ts) t = docIds.foldl (addRaw ts) t := by
  induction docIds generalizing t with
  | nil => rfl
  | cons docId rest ih =>
    rw [missing_cons] at h ⊢
    rw [List.foldl_cons, addRaw]
    by_cases hraw : t.hasRaw docId = true
    · rw [if_pos hraw] at h ⊢
      rw [if_pos hraw]
      exact ih h
    · rw [if_neg hraw] at h ⊢
      obtain ⟨hnotMem, hnodup⟩ := List.nodup_cons.mp h
      -- no other place of the document is left in the list
      have hsame : (t.appendRaw ts docId).missing rest = t.missing rest := by
        refine List.filter_congr fun i hi => ?_
        by_cases hi' : docId = i
        · refine absurd (List.mem_filter.mpr ⟨hi' ▸ hi, ?_⟩) hnotMem
          simp [Bool.eq_false_iff.mpr hraw]
        · simp [hi']
      rw [if_neg hraw, List.foldl_cons, ← hsame]
      exact ih (hsame ▸ hnodup)

/-- A batch does what the calls do, if no document is there twice. -/
theorem batch_eq_each_of_docs (h : ∀ docId ∈ t.missing docIds, docId ∈ t.docs) :
    t.batch ts docIds = t.each ts docIds ↔ (t.missing docIds).Nodup := by
  have haccepts : ∀ docId ∈ docIds, t.Accepts docId := by
    intro docId hmem
    by_cases hraw : t.hasRaw docId = true
    · exact .inl hraw
    · exact .inr (h docId (List.mem_filter.mpr ⟨hmem, by simp [Bool.eq_false_iff.mpr hraw]⟩))
  rw [batch_eq h, each_eq haccepts]
  constructor
  · intro heq
    obtain ⟨added, hadded, hnodup, -⟩ := foldl_addRaw ts docIds t
    have hrows := congrArg (fun t : Tables => t.memories.map fun m => m.docId) heq
    simp only [memories_foldl_enqueueExtraction, hadded, docIds_foldl_appendRaw,
      List.append_cancel_left_eq] at hrows
    rwa [hrows]
  · intro hnodup
    rw [foldl_appendRaw_missing hnodup]

/-! ## The failure of a batch -/

/-- What a call leaves in the tables. -/
structure Grows (t t' : Tables) (docId : ℤ) : Prop where
  docs_eq : t'.docs = t.docs
  hasRaw : ∀ i, t.hasRaw i = true → t'.hasRaw i = true
  queued : ∀ i, t.queued i = true → t'.queued i = true
  accepted : t.Accepts docId → t'.hasRaw docId = true ∧ t'.queued docId = true

/-- What a call can add. -/
theorem grows_call (t : Tables) (ts docId : ℤ) :
    Grows t (t.after (t.ensureRawMemoryAndEnqueue ts docId)) docId := by
  by_cases h : t.Accepts docId
  · rw [after_ensure h]
    exact ⟨by simp, fun i hi => by simp [hi], fun i hi => by simp [hi], fun _ => by simp⟩
  · rw [after_ensure_of_not h]
    exact ⟨rfl, fun _ => id, fun _ => id, fun hacc => absurd hacc h⟩

theorem Grows.accepts {t' : Tables} (h : Grows t t' docId) (hi : t.Accepts i) : t'.Accepts i :=
  hi.imp (h.hasRaw i) fun hdoc => h.docs_eq ▸ hdoc

/-- What is there stays. -/
theorem each_keeps (hi : t.hasRaw i = true ∧ t.queued i = true) :
    (t.each ts docIds).hasRaw i = true ∧ (t.each ts docIds).queued i = true := by
  induction docIds generalizing t with
  | nil => exact hi
  | cons docId rest ih =>
    have hcall := grows_call t ts docId
    exact ih ⟨hcall.hasRaw i hi.1, hcall.queued i hi.2⟩

/-- What is accepted is there afterwards. -/
theorem each_accepted (hmem : i ∈ docIds) (hi : t.Accepts i) :
    (t.each ts docIds).hasRaw i = true ∧ (t.each ts docIds).queued i = true := by
  induction docIds generalizing t with
  | nil => cases hmem
  | cons docId rest ih =>
    have hcall := grows_call t ts docId
    rw [each_cons]
    rcases List.mem_cons.mp hmem with rfl | hrest
    · exact each_keeps (hcall.accepted hi)
    · exact ih hrest (hcall.accepts hi)

/-- The calls that find everything there change nothing. -/
theorem each_eq_self
    (h : ∀ docId ∈ docIds, t.Accepts docId → t.hasRaw docId = true ∧ t.queued docId = true) :
    t.each ts docIds = t := by
  induction docIds with
  | nil => rfl
  | cons docId rest ih =>
    obtain ⟨hdoc, hrest⟩ := List.forall_mem_cons.mp h
    have hcall : t.after (t.ensureRawMemoryAndEnqueue ts docId) = t := by
      by_cases hacc : t.Accepts docId
      · obtain ⟨hraw, hqueued⟩ := hdoc hacc
        rw [queued] at hqueued
        rw [after_ensure hacc, addRaw, if_pos hraw, enqueueExtraction, if_pos hqueued]
      · exact after_ensure_of_not hacc
    rw [each_cons, hcall]
    exact ih hrest

end Parts

/-- **The batch leaves the tables as the calls one by one do** if and only if no document that has
no raw memory is in the list twice, and where one of these does not exist, if the calls change
nothing. -/
theorem batch_eq_each_iff (t : Tables) (ts : ℤ) (docIds : List ℤ) :
    t.batch ts docIds = t.each ts docIds ↔
      if ∀ docId ∈ t.missing docIds, docId ∈ t.docs then (t.missing docIds).Nodup
      else ∀ docId ∈ docIds, t.Accepts docId → t.hasRaw docId = true ∧ t.queued docId = true := by
  split
  next hdocs => exact batch_eq_each_of_docs hdocs
  next hdocs =>
    rw [batch_eq_self hdocs]
    constructor
    · intro heq docId hmem hacc
      rw [heq]
      exact each_accepted hmem hacc
    · intro h
      exact (each_eq_self h).symm

/-- A document without a raw memory. -/
def oneDocument : Tables := ⟨[1], [], [], []⟩

/-- The batch gives a document that is in the list twice two raw memories. -/
theorem batch_twice : oneDocument.batch 0 [1, 1] ≠ oneDocument.each 0 [1, 1] ∧
    (oneDocument.batch 0 [1, 1]).memories.length = 2 ∧
    (oneDocument.each 0 [1, 1]).memories.length = 1 := by
  decide

end Tables

/-! ## The rows without the columns that nothing reads -/

section Columns

variable [Blake3] {s : MemoryStore} {t : Tables}

/-- The same documents, and the same memories but for some of their columns. -/
structure Shows (s : MemoryStore) (t : Tables) : Prop where
  docs_eq : t.docs = s.db.docs.rows.map Doc.id
  memories_eq : t.memories.map MemoryRow.toMemory = s.memories

theorem Shows.nextId_eq (h : Shows s t) : nextId t.memories = s.nextId := by
  rw [nextId, MemoryStore.nextId, ← h.memories_eq, List.map_map]
  rfl

/-- Both fail, or both go on. -/
def Agrees {α : Type} : Except MemoryError (MemoryStore × α) → Except MemoryError (Tables × α) →
    Prop
  | .ok (s, a), .ok (t, b) => Shows s t ∧ a = b
  | .error e, .error e' => e = e'
  | _, _ => False

/-- The two models of a put agree. -/
theorem agrees_putMemory (h : Shows s t) (ts docId : ℤ) (memoryType : MemoryType)
    (projectTags : Option String) (confidence : F64) :
    Agrees (s.putMemory ts docId memoryType confidence)
      (t.putMemory ts docId memoryType none projectTags confidence) := by
  have hdoc : (s.db.docs.rows.any fun d => d.id = docId) = true ↔ docId ∈ t.docs := by
    rw [h.docs_eq]
    simp
  rw [MemoryStore.putMemory, MemoryStore.putMemoryWithDate, Tables.putMemory]
  simp only [Option.mem_def, reduceCtorEq, false_implies, implies_true, and_true]
  by_cases hmem : docId ∈ t.docs
  · rw [if_pos (hdoc.mpr hmem), if_pos hmem]
    refine ⟨⟨h.docs_eq, ?_⟩, h.nextId_eq.symm⟩
    rw [List.map_append, h.memories_eq, ← h.nextId_eq]
    rfl
  · rw [if_neg (hdoc.not.mpr hmem), if_neg hmem]
    rfl

theorem Shows.hasRaw_eq (h : Shows s t) (docId : ℤ) :
    t.hasRaw docId = s.memories.any (Memory.isRawFor docId) := by
  rw [← h.memories_eq, List.any_map]
  rfl

/-- **The function for one document is that of the store.** -/
theorem agrees_ensureRawMemory (h : Shows s t) (ts docId : ℤ) :
    Agrees (s.ensureRawMemory ts docId) (t.ensureRawMemory ts docId) := by
  have hfind : s.memories.find? (Memory.isRawFor docId) =
      (t.memories.find? fun m => m.isRawFor docId).map MemoryRow.toMemory := by
    rw [← h.memories_eq, List.find?_map]
    rfl
  rw [MemoryStore.ensureRawMemory, Tables.ensureRawMemory, hfind]
  cases t.memories.find? fun m => m.isRawFor docId with
  | some m => exact ⟨h, rfl⟩
  | none => exact agrees_putMemory h ts docId .raw none Memory.full

theorem agrees_insertRaws (h : Shows s t) (ts : ℤ) (docIds : List ℤ) :
    Agrees ((MemoryStore.insertRaws ts s docIds).map fun s => (s, ()))
      ((Tables.insertRaws ts t docIds).map fun t => (t, ())) := by
  induction docIds generalizing s t with
  | nil => exact ⟨h, rfl⟩
  | cons docId rest ih =>
    have hput := agrees_putMemory h ts docId .raw none Memory.full
    rw [MemoryStore.insertRaws, Tables.insertRaws]
    cases hs : s.putMemory ts docId .raw Memory.full with
    | error e =>
      cases ht : t.putMemory ts docId .raw none none Memory.full with
      | error e' =>
        rw [hs, ht] at hput
        exact hput
      | ok p =>
        rw [hs, ht] at hput
        exact hput.elim
    | ok q =>
      cases ht : t.putMemory ts docId .raw none none Memory.full with
      | error e' =>
        rw [hs, ht] at hput
        exact hput.elim
      | ok p =>
        rw [hs, ht] at hput
        exact ih hput.1

theorem Shows.foldl_enqueueExtraction (h : Shows s t) (ts : ℤ) (docIds : List ℤ) :
    Shows s (docIds.foldl (Tables.enqueueExtraction ts) t) := by
  refine ⟨?_, by rw [Tables.memories_foldl_enqueueExtraction, h.memories_eq]⟩
  rw [← h.docs_eq]
  clear h
  induction docIds generalizing t with
  | nil => rfl
  | cons docId rest ih => rw [List.foldl_cons, ih, Tables.docs_enqueueExtraction]

/-- **The batch is that of the store.** -/
theorem agrees_ensureRawMemoryBatch (h : Shows s t) (ts : ℤ) (docIds : List ℤ) :
    Agrees (s.ensureRawMemoryBatch ts docIds) (t.ensureRawMemoryAndEnqueueBatch ts docIds) := by
  have hmissing : t.missing docIds = s.missingRaws docIds :=
    List.filter_congr fun docId _ => by rw [h.hasRaw_eq]
  have hinsert := agrees_insertRaws h ts (s.missingRaws docIds)
  rw [MemoryStore.ensureRawMemoryBatch, Tables.ensureRawMemoryAndEnqueueBatch, hmissing]
  split
  next => exact ⟨h, rfl⟩
  next =>
    simp only
    cases hs : MemoryStore.insertRaws ts s (s.missingRaws docIds) with
    | error e =>
      cases ht : Tables.insertRaws ts t (s.missingRaws docIds) with
      | error e' =>
        rw [hs, ht] at hinsert
        exact hinsert
      | ok t' =>
        rw [hs, ht] at hinsert
        exact hinsert.elim
    | ok s' =>
      cases ht : Tables.insertRaws ts t (s.missingRaws docIds) with
      | error e' =>
        rw [hs, ht] at hinsert
        exact hinsert.elim
      | ok t' =>
        rw [hs, ht] at hinsert
        exact ⟨hinsert.1.foldl_enqueueExtraction ts docIds, rfl⟩

end Columns

end SynapseMemory.RawMemories
