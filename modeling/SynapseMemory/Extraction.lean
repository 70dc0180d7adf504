import SynapseMemory.Memories
import SynapseMemory.Passes
import SynapseMemory.Space
import SynapseMemory.Transition

/-!
# The workers of the extraction queue

`run_once` reads the pending rows of `extraction_queue`, and for each document the text, from which
the extractor makes items. Each item is a row of `memories`, after an upsert of its entity, and
after the row come the edges of its relations, whose failures are ignored. The status of the
document is written when all of its items are in the table. Every statement is a transaction by
itself, and the rows that a worker has read are pending until it is done with them.

So a second worker can take a document that a first one is working on, and a document that a worker
left in the middle is taken again from its first item. A row holds here, beside its columns, the
place of the item it was made from. The worker's passes are those of `Passes`.

The rows of `edges` are given by their keys, since nothing reads their weights. What the extractor
makes of a text is the parameter `Extractor`.
-/

namespace SynapseMemory.Extract

open Space Transition

/-- `Relation` -/
structure Relation where
  subject : Text
  verb : Text
  object : Text
  deriving DecidableEq

/-- `ExtractedMemory` -/
structure ExtractedMemory where
  memoryType : MemoryType
  entity : Option Text
  fact : Text
  confidence : F64
  eventDate : Option String
  relations : List Relation
  deriving DecidableEq

/-- The extractor that the worker is given. -/
class Extractor where
  extract : Text → Except Text (List ExtractedMemory)

/-- The column `status` of `extraction_queue`. -/
inductive Status where
  | pending
  | done
  | skipped
  | error
  | promoted
  deriving DecidableEq

/-- A row of `extraction_queue`. -/
structure Queued where
  docId : ℤ
  enqueuedTs : ℤ
  attempts : ℕ
  lastError : Option Text
  status : Status
  deriving DecidableEq

/-- A row of `entities`. -/
structure Entity where
  id : ℤ
  canonicalName : Text
  deriving DecidableEq

/-- A row of `memories`, and the place of the item that it was made from, if an extraction made it:
this is no column. -/
structure Row where
  memory : Memory
  item : Option ℕ
  deriving DecidableEq

/-- The tables that a worker reads and writes. -/
structure Db where
  docs : List (ℤ × Text)
  queue : List Queued
  entities : List Entity
  memories : List Row
  edges : List (ℤ × ℤ × Text)
  deriving DecidableEq

/-! ## The default extractor -/

/-- The extractor of the tests and of the worker without a language model, for a way to put a text
into lower case. -/
def ruleExtract (toLowercase : Text → Text) (text : Text) : Except Text (List ExtractedMemory) :=
  let lower := toLowercase text
  let has (s : String) := Text.containsStr lower s.toList
  let (memoryType, confidence) : MemoryType × F64 :=
    if has "decided" || has "chose" || has "we will" then (.decision, 0x3FE3333333333333#64)
    else if has "learned" || has "turns out" || has "lesson" then
      (.lesson, 0x3FE3333333333333#64)
    else if has "prefer" || has "likes" || has "hates" then (.preference, 0x3FE199999999999A#64)
    else (.fact, 0x3FE0000000000000#64)
  .ok [⟨memoryType, none, Text.trim text, confidence, none, []⟩]

/-- `RuleExtractor` on the letters of ASCII. -/
@[reducible] def Extractor.rule : Extractor := ⟨ruleExtract Text.toAsciiLowercase⟩

/-! ## The statements -/

/-- What an upserted entity is for. -/
inductive Use where
  | memory (docId : ℤ) (index : ℕ) (item : ExtractedMemory)
  | subject (r : Relation)
  | object (r : Relation) (subjectId : ℤ)

/-- A statement that a call of `run_once` comes to for one document. -/
inductive Task where
  | findEntity (name : Text) (use : Use)
  | insertEntity (name : Text) (use : Use)
  | insertMemory (docId : ℤ) (index : ℕ) (item : ExtractedMemory) (entityId : Option ℤ)
  | ensureSchema (relations : List Relation)
  | insertEdge (subjectId objectId : ℤ) (verb : Text)
  | markStatus (docId : ℤ) (status : Status) (error : Option Text)

/-- What comes after an upsert. -/
def Use.upserted (id : ℤ) : Use → List Task
  | .memory docId index item => [.insertMemory docId index item (some id)]
  | .subject r => [.findEntity (Text.trim r.object) (.object r id)]
  | .object r subjectId => [.insertEdge subjectId id (Text.trim r.verb)]

/-- `relate_extracted` -/
def relateExtracted (relations : List Relation) : List Task :=
  if relations = [] then [] else [.ensureSchema relations]

/-- The first statement for an extracted memory. -/
def itemTask (docId : ℤ) (item : ExtractedMemory) (index : ℕ) : Task :=
  match item.entity with
  | some name => .findEntity name (.memory docId index item)
  | none => .insertMemory docId index item none

/-- The statements for a document with this text. -/
def tasks [Extractor] (docId : ℤ) (text : Text) : List Task :=
  if text = [] then [.markStatus docId .skipped (some "empty text".toList)]
  else
    match Extractor.extract text with
    | .ok items =>
      items.mapIdx (fun index item => itemTask docId item index) ++ [.markStatus docId .done none]
    | .error e => [.markStatus docId .error (some e)]

/-- What a call goes on with after a statement failed, if it goes on. -/
def Task.failed : Task → Option (List Task)
  | .findEntity name use => some [.insertEntity name use]
  | .insertEntity _ (.memory _ _ _) => none
  | .insertEntity _ _ => some []
  | .insertMemory _ _ _ _ => none
  | .ensureSchema _ => some []
  | .insertEdge _ _ _ => some []
  | .markStatus _ _ _ => none

namespace Db

/-- One more than the largest id of a table. -/
def nextId (ids : List ℤ) : ℤ := ids.max?.getD 0 + 1

/-- The foreign keys of a memory. -/
def accepts (db : Db) (docId : ℤ) (entityId : Option ℤ) : Bool :=
  db.docs.any (fun d => d.1 = docId) && entityId.all fun id => db.entities.any fun e => e.id = id

/-- `put_memory_with_date`: without a date it is `put_memory` -/
def putMemory (db : Db) (ts docId : ℤ) (index : ℕ) (item : ExtractedMemory)
    (entityId : Option ℤ) : Db :=
  let id := nextId (db.memories.map fun r => r.memory.id)
  let m : Memory :=
    ⟨id, docId, item.memoryType, entityId, item.confidence, none, ts, item.eventDate⟩
  { db with memories := db.memories ++ [⟨m, some index⟩] }

/-- `mark_status` -/
def markStatus (db : Db) (docId : ℤ) (status : Status) (error : Option Text) : Db :=
  { db with
    queue := db.queue.map fun q =>
      if q.docId = docId then { q with status, attempts := q.attempts + 1, lastError := error }
      else q }

/-- `INSERT OR REPLACE INTO edges` -/
def insertEdge (db : Db) (edge : ℤ × ℤ × Text) : Db :=
  { db with edges := db.edges.filter (· ≠ edge) ++ [edge] }

/-- Execute a statement: the database after it, and the statements that it brings, or nothing if it
fails. A name that is in the table is no row for `INSERT`, and one that is not, none for
`query_row`. -/
def exec (db : Db) (ts : ℤ) : Task → Option (Db × List Task)
  | .findEntity name use =>
    (db.entities.find? fun e => e.canonicalName = name).map fun e => (db, use.upserted e.id)
  | .insertEntity name use =>
    if db.entities.any fun e => e.canonicalName = name then none
    else
      let id := nextId (db.entities.map Entity.id)
      some ({ db with entities := db.entities ++ [⟨id, name⟩] }, use.upserted id)
  | .insertMemory docId index item entityId =>
    if db.accepts docId entityId then
      some (db.putMemory ts docId index item entityId, relateExtracted item.relations)
    else none
  | .ensureSchema relations =>
    some (db, relations.map fun r => .findEntity (Text.trim r.subject) (.subject r))
  | .insertEdge subjectId objectId verb => some (db.insertEdge (subjectId, objectId, verb), [])
  | .markStatus docId status error => some (db.markStatus docId status error, [])

/-- `INSERT OR IGNORE` into the queue. -/
def enqueueExtraction (db : Db) (ts docId : ℤ) : Db :=
  if db.queue.any fun q => q.docId = docId then db
  else { db with queue := db.queue ++ [⟨docId, ts, 0, none, .pending⟩] }

/-- `pop_extraction_batch` -/
def popExtractionBatch (db : Db) (n : UInt64) : List ℤ :=
  let pending := db.queue.filter fun q => q.status = .pending
  (sqlLimit n (pending.insertionSort fun p q => p.enqueuedTs ≤ q.enqueuedTs)).map Queued.docId

/-- The text of a document, which is empty if the statement finds none. -/
def text (db : Db) (docId : ℤ) : Text :=
  ((db.docs.find? fun d => d.1 = docId).map Prod.snd).getD []

end Db

/-! ## The workers -/

/-- Where a call is: what it has to do for its document, and the documents that come after. -/
structure Call where
  now : List Task
  later : List ℤ

/-- The worker is not in a call. -/
def Call.idle : Call := ⟨[], []⟩

/-- The database, and where each worker is. -/
structure State (ι : Type) where
  db : Db
  call : ι → Call

/-- What happens next. -/
inductive Stmt (ι : Type) where
  /-- another client puts a document into the queue -/
  | enqueue (docId ts : ℤ)
  /-- the worker calls `run_once` -/
  | pop (i : ι) (batch : UInt64)
  /-- the statement that the worker comes to -/
  | exec (i : ι) (ts : ℤ)
  /-- it fails -/
  | fail (i : ι)
  /-- the worker is stopped -/
  | stop (i : ι)

/-- Where a call is after a statement failed. -/
def afterFailure (task : Task) (now : List Task) (later : List ℤ) : Call :=
  match task.failed with
  | some more => ⟨more ++ now, later⟩
  | none => .idle

namespace State

variable {ι : Type} [DecidableEq ι]

/-- No worker is in a call, and no row was made by an extraction. -/
def start (ι : Type) (docs : List (ℤ × Text)) (queue : List Queued) (entities : List Entity)
    (memories : List Memory) : State ι :=
  ⟨⟨docs, queue, entities, memories.map fun m => ⟨m, none⟩, []⟩, fun _ => .idle⟩

/-- The worker comes to another place of its call. -/
def goTo (s : State ι) (db : Db) (i : ι) (c : Call) : State ι := ⟨db, Function.update s.call i c⟩

/-- A worker is in one call at a time. -/
def step [Extractor] (s : State ι) : Stmt ι → Option (State ι)
  | .enqueue docId ts => some { s with db := s.db.enqueueExtraction ts docId }
  | .pop i batch =>
    match s.call i with
    | ⟨[], []⟩ => some (s.goTo s.db i ⟨[], s.db.popExtractionBatch batch⟩)
    | _ => none
  | .exec i ts =>
    match s.call i with
    | ⟨task :: now, later⟩ =>
      match s.db.exec ts task with
      | some (db, more) => some (s.goTo db i ⟨more ++ now, later⟩)
      | none => some (s.goTo s.db i (afterFailure task now later))
    | ⟨[], docId :: later⟩ => some (s.goTo s.db i ⟨tasks docId (s.db.text docId), later⟩)
    | ⟨[], []⟩ => none
  | .fail i =>
    match s.call i with
    | ⟨task :: now, later⟩ => some (s.goTo s.db i (afterFailure task now later))
    -- a text that cannot be read is an empty one
    | ⟨[], docId :: later⟩ => some (s.goTo s.db i ⟨tasks docId [], later⟩)
    | ⟨[], []⟩ => some s
  | .stop i => some (s.goTo s.db i .idle)

end State

/-! ## The passes of the workers -/

/-- The document and the place of the item that the row was made from. -/
def Row.part (r : Row) : Option (ℤ × ℕ) := r.item.map fun index => (r.memory.docId, index)

/-- The items that are in the table. -/
def Db.made (db : Db) : List (ℤ × ℕ) := db.memories.filterMap Row.part

/-- No item was turned into a row twice. -/
def Db.AtMostOnce (db : Db) : Prop := db.made.Nodup

instance (db : Db) : Decidable db.AtMostOnce := inferInstanceAs (Decidable db.made.Nodup)

/-- The item whose row is to come after an upsert. -/
def Use.part : Use → Option (ℤ × ℕ)
  | .memory docId index _ => some (docId, index)
  | _ => none

/-- The item whose row is to come. -/
def Task.part : Task → Option (ℤ × ℕ)
  | .findEntity _ use => use.part
  | .insertEntity _ use => use.part
  | .insertMemory docId index _ _ => some (docId, index)
  | _ => none

/-- The items whose rows are to come. -/
def parts (now : List Task) : List (ℤ × ℕ) := now.filterMap Task.part

@[simp] theorem parts_nil : parts [] = [] := rfl

@[simp] theorem parts_cons (task : Task) (now : List Task) :
    parts (task :: now) = task.part.toList ++ parts now := by
  cases h : task.part <;> simp [parts, h]

@[simp] theorem parts_append (now more : List Task) :
    parts (now ++ more) = parts now ++ parts more :=
  List.filterMap_append

theorem parts_upserted (use : Use) (id : ℤ) : parts (use.upserted id) = use.part.toList := by
  cases use <;> rfl

theorem parts_relateExtracted (relations : List Relation) :
    parts (relateExtracted relations) = [] := by
  rw [relateExtracted]
  split <;> rfl

theorem part_itemTask (docId : ℤ) (item : ExtractedMemory) (index : ℕ) :
    (itemTask docId item index).part = some (docId, index) := by
  rw [itemTask]
  split <;> rfl

/-- The parts of a document, in order. -/
theorem parts_mapIdx_itemTask (docId : ℤ) (items : List ExtractedMemory) :
    parts (items.mapIdx fun index item => itemTask docId item index) =
      (List.range items.length).map (docId, ·) := by
  have hpart : Task.part ∘ (fun p : ExtractedMemory × ℕ => itemTask docId p.1 p.2) =
      some ∘ fun p => (docId, p.2) := by
    funext p
    exact part_itemTask docId p.1 p.2
  have hplaces : List.range items.length = items.zipIdx.map Prod.snd := by
    rw [List.zipIdx_map_snd, List.range_eq_range']
  rw [parts, List.mapIdx_eq_zipIdx_map, List.filterMap_map, hpart, List.filterMap_eq_map, hplaces,
    List.map_map]
  rfl

/-- The statements for a document come to its items in order, or to none. -/
theorem parts_tasks [Extractor] (docId : ℤ) (text : Text) :
    ∃ n, parts (tasks docId text) = (List.range n).map (docId, ·) := by
  rw [tasks]
  split
  · exact ⟨0, rfl⟩
  · split
    next items _ =>
      refine ⟨items.length, ?_⟩
      rw [parts_append, parts_mapIdx_itemTask]
      exact List.append_nil _
    · exact ⟨0, rfl⟩

/-- A statement that fails leaves the items to come, or ends the call. -/
theorem parts_afterFailure (task : Task) (now : List Task) (later : List ℤ) :
    parts (afterFailure task now later).now = task.part.toList ++ parts now ∨
      afterFailure task now later = .idle := by
  cases task with
  | findEntity name use => exact .inl (by simp [afterFailure, Task.failed, Task.part])
  | insertEntity name use =>
    cases use with
    | memory docId index item => exact .inr rfl
    | subject r => exact .inl rfl
    | object r subjectId => exact .inl rfl
  | insertMemory docId index item entityId => exact .inr rfl
  | ensureSchema relations => exact .inl rfl
  | insertEdge subjectId objectId verb => exact .inl rfl
  | markStatus docId status error => exact .inr rfl

/-- A statement that makes no row leaves the items to come and those in the table. -/
theorem exec_parts {db db' : Db} {ts : ℤ} {task : Task} {more : List Task}
    (h : db.exec ts task = some (db', more)) :
    ((∀ docId index item entityId, task ≠ .insertMemory docId index item entityId) ∧
        parts more = task.part.toList ∧ db'.made = db.made) ∨
      ∃ docId index item entityId, task = .insertMemory docId index item entityId ∧
        db.accepts docId entityId = true ∧ parts more = [] ∧
        db'.made = db.made ++ [(docId, index)] := by
  cases task with
  | findEntity name use =>
    obtain ⟨e, _, he⟩ := Option.map_eq_some_iff.mp h
    cases he
    exact .inl ⟨nofun, parts_upserted use e.id, rfl⟩
  | insertEntity name use =>
    rw [Db.exec] at h
    split at h
    · cases h
    · cases h
      exact .inl ⟨nofun, parts_upserted use _, rfl⟩
  | insertMemory docId index item entityId =>
    rw [Db.exec] at h
    split at h
    next haccepts =>
      cases h
      refine .inr ⟨docId, index, item, entityId, rfl, haccepts, parts_relateExtracted _, ?_⟩
      rw [Db.putMemory, Db.made, List.filterMap_append]
      rfl
    · cases h
  | ensureSchema relations =>
    cases h
    refine .inl ⟨nofun, ?_, rfl⟩
    rw [parts, List.filterMap_map]
    exact List.filterMap_eq_nil_iff.mpr fun _ _ => rfl
  | insertEdge subjectId objectId verb =>
    cases h
    exact .inl ⟨nofun, rfl, rfl⟩
  | markStatus docId status error =>
    cases h
    exact .inl ⟨nofun, rfl, rfl⟩

/-- The document and the entity of the row that comes next, if it is of a first item. -/
def firstRow : List Task → Option (ℤ × Option ℤ)
  | .insertMemory docId 0 _ entityId :: _ => some (docId, entityId)
  | _ => none

namespace State

variable {ι : Type} [DecidableEq ι]

/-- The items that each worker has to come to, and those in the table. -/
def ledger (s : State ι) : Passes.Ledger ι ℤ := ⟨fun i => parts (s.call i).now, s.db.made⟩

/-- A worker that makes a row of the first item of a document finds no row of any of its items. -/
def Unstarted (s : State ι) : Stmt ι → Prop
  | .exec i _ => ∀ p ∈ firstRow (s.call i).now, s.db.accepts p.1 p.2 = true →
      p.1 ∉ s.db.made.map Prod.fst
  | _ => True

instance (s : State ι) : (a : Stmt ι) → Decidable (Unstarted s a)
  | .exec i _ =>
    inferInstanceAs (Decidable (∀ p ∈ firstRow (s.call i).now, s.db.accepts p.1 p.2 = true →
      p.1 ∉ s.db.made.map Prod.fst))
  | .enqueue _ _ => inferInstanceAs (Decidable True)
  | .pop _ _ => inferInstanceAs (Decidable True)
  | .fail _ => inferInstanceAs (Decidable True)
  | .stop _ => inferInstanceAs (Decidable True)

omit [DecidableEq ι] in
@[simp] theorem ledger_todo (s : State ι) (i : ι) : s.ledger.todo i = parts (s.call i).now := rfl

omit [DecidableEq ι] in
/-- The condition on a statement, for the task that it carries out. -/
theorem unstarted_exec {s : State ι} {i : ι} {task : Task} {now : List Task} {later : List ℤ}
    (hcall : s.call i = ⟨task :: now, later⟩) (ts : ℤ) :
    s.Unstarted (.exec i ts) ↔ ∀ docId item entityId, task = .insertMemory docId 0 item entityId →
      s.db.accepts docId entityId = true → docId ∉ s.db.made.map Prod.fst := by
  rw [Unstarted, hcall]
  refine ⟨?_, ?_⟩
  · rintro h docId item entityId rfl
    exact h (docId, entityId) rfl
  · rintro h ⟨docId, entityId⟩ hp
    simp only [firstRow] at hp
    split at hp
    next heq =>
      cases hp
      exact h docId _ entityId (List.cons.inj heq).1
    next => cases hp

omit [DecidableEq ι] in
/-- The part of an insert is the next one. -/
theorem todo_insertMemory {s : State ι} {i : ι} {docId : ℤ} {index : ℕ} {item : ExtractedMemory}
    {entityId : Option ℤ} {now : List Task} {later : List ℤ}
    (hcall : s.call i = ⟨.insertMemory docId index item entityId :: now, later⟩) :
    s.ledger.todo i = (docId, index) :: parts now := by
  rw [ledger_todo, hcall, parts_cons]
  rfl

omit [DecidableEq ι] in
/-- When the insert of a memory is fresh in the ledger. -/
theorem fresh_insertMemory_iff {s : State ι} {i : ι} {docId : ℤ} {index : ℕ}
    {item : ExtractedMemory} {entityId : Option ℤ} {now : List Task} {later : List ℤ}
    (hcall : s.call i = ⟨.insertMemory docId index item entityId :: now, later⟩)
    (haccepts : s.db.accepts docId entityId = true) (ts : ℤ) :
    s.ledger.Fresh (.next i) ↔ s.Unstarted (.exec i ts) := by
  have htodo := todo_insertMemory hcall
  rw [unstarted_exec hcall]
  refine ⟨?_, ?_⟩
  · rintro hfresh docId' item' entityId' heq _ hmem
    cases heq
    obtain ⟨p, hp, rfl⟩ := List.mem_map.mp hmem
    exact hfresh p.1 (parts now) htodo p.2 hp
  · intro hunstarted job rest hjob k hk
    obtain ⟨hpart, rfl⟩ := List.cons.inj (htodo.symm.trans hjob)
    cases hpart
    exact hunstarted docId item entityId rfl haccepts (List.mem_map_of_mem hk)

/-- The ledger after a worker has moved on. -/
theorem ledger_goTo (s : State ι) (db : Db) (i : ι) (c : Call) :
    (s.goTo db i c).ledger = ⟨Function.update s.ledger.todo i (parts c.now), db.made⟩ := by
  rw [ledger, goTo]
  congr 1
  funext j
  by_cases hji : j = i
  · subst hji
    simp
  · simp [Function.update_of_ne hji, ledger]

/-- Where no part changes, neither does the ledger. -/
theorem ledger_goTo_of_parts {s : State ι} {db : Db} {i : ι} {c : Call}
    (hmade : db.made = s.db.made) (hparts : parts c.now = parts (s.call i).now) :
    (s.goTo db i c).ledger = s.ledger := by
  have htodo : parts c.now = s.ledger.todo i := hparts
  rw [ledger_goTo, htodo, Function.update_eq_self, hmade]
  rfl

theorem ledger_goTo_idle (s : State ι) (i : ι) :
    (s.goTo s.db i .idle).ledger = s.ledger.apply (.leave i) :=
  ledger_goTo s s.db i .idle

/-- After a failure the worker waits, or it leaves. -/
theorem ledger_afterFailure {s : State ι} {i : ι} {task : Task} {now : List Task} {later : List ℤ}
    (hcall : s.call i = ⟨task :: now, later⟩) :
    (s.goTo s.db i (afterFailure task now later)).ledger = s.ledger.apply .wait ∨
      (s.goTo s.db i (afterFailure task now later)).ledger = s.ledger.apply (.leave i) := by
  rcases parts_afterFailure task now later with hparts | hidle
  · exact .inl (ledger_goTo_of_parts rfl (by rw [hparts, hcall, parts_cons]))
  · rw [hidle]
    exact .inr (ledger_goTo_idle s i)

variable [Extractor]

/-- A worker takes the parts of a document. -/
theorem ledger_tasks {s : State ι} {i : ι} (docId : ℤ) (text : Text) (later : List ℤ) :
    ∃ n, (s.goTo s.db i ⟨tasks docId text, later⟩).ledger = s.ledger.apply (.take i docId n) := by
  obtain ⟨n, hn⟩ := parts_tasks docId text
  refine ⟨n, ?_⟩
  rw [ledger_goTo, hn]
  rfl

/-- Every statement is a change of the ledger, which is fresh exactly if the statement is. -/
theorem step_ledger {s s' : State ι} {a : Stmt ι} (h : s.step a = some s') :
    ∃ c, s'.ledger = s.ledger.apply c ∧ (s.ledger.Fresh c ↔ s.Unstarted a) := by
  cases a with
  | enqueue docId ts =>
    cases h
    refine ⟨.wait, ?_, Iff.rfl⟩
    rw [ledger, Db.enqueueExtraction]
    split <;> rfl
  | pop i batch =>
    rw [step] at h
    split at h
    next hcall =>
      cases h
      exact ⟨.wait, ledger_goTo_of_parts rfl (by rw [hcall]), Iff.rfl⟩
    next => cases h
  | exec i ts =>
    rw [step] at h
    split at h
    next task now later hcall =>
      split at h
      next db more hexec =>
        cases h
        rcases exec_parts hexec with ⟨hother, hparts, hmade⟩ | ⟨docId, index, item, entityId, rfl,
          haccepts, hparts, hmade⟩
        · refine ⟨.wait, ledger_goTo_of_parts hmade ?_, iff_of_true trivial ?_⟩
          · rw [hcall, parts_append, hparts, parts_cons]
          · rw [unstarted_exec hcall]
            exact fun docId item entityId heq => absurd heq (hother docId 0 item entityId)
        · refine ⟨.next i, ?_, fresh_insertMemory_iff hcall haccepts ts⟩
          rw [ledger_goTo, parts_append, hparts, hmade, Passes.Ledger.apply,
            todo_insertMemory hcall]
          rfl
      next hexec =>
        cases h
        have hunstarted : s.Unstarted (.exec i ts) := by
          rw [unstarted_exec hcall]
          rintro docId item entityId rfl haccepts
          rw [Db.exec, if_pos haccepts] at hexec
          cases hexec
        rcases ledger_afterFailure hcall with hwait | hleave
        · exact ⟨.wait, hwait, iff_of_true trivial hunstarted⟩
        · exact ⟨.leave i, hleave, iff_of_true trivial hunstarted⟩
    next docId later hcall =>
      cases h
      obtain ⟨n, hn⟩ := ledger_tasks (s := s) (i := i) docId (s.db.text docId) later
      refine ⟨.take i docId n, hn, iff_of_true trivial ?_⟩
      rw [Unstarted, hcall]
      intro p hp
      cases hp
    next => cases h
  | fail i =>
    rw [step] at h
    split at h
    next task now later hcall =>
      cases h
      rcases ledger_afterFailure hcall with hwait | hleave
      · exact ⟨.wait, hwait, Iff.rfl⟩
      · exact ⟨.leave i, hleave, Iff.rfl⟩
    next docId later hcall =>
      cases h
      obtain ⟨n, hn⟩ := ledger_tasks (s := s) (i := i) docId [] later
      exact ⟨.take i docId n, hn, Iff.rfl⟩
    next hcall =>
      cases h
      exact ⟨.wait, rfl, Iff.rfl⟩
  | stop i =>
    cases h
    exact ⟨.leave i, ledger_goTo_idle s i, Iff.rfl⟩

omit [Extractor] [DecidableEq ι] in
/-- At first no part was made. -/
theorem once_start (docs : List (ℤ × Text)) (queue : List Queued) (entities : List Entity)
    (memories : List Memory) : (start ι docs queue entities memories).ledger.Once := by
  have hmade : (start ι docs queue entities memories).db.made = [] := by
    rw [start, Db.made, List.filterMap_map]
    exact List.filterMap_eq_nil_iff.mpr fun _ _ => rfl
  rw [ledger, hmade]
  exact Passes.Ledger.once_new

/-- **When an item is extracted at most once.** After the statements of any number of workers, in
any order and with any failures, no item was turned into a row twice if and only if each row of a
first item was made for a document without rows. -/
theorem extracted_once_iff {docs : List (ℤ × Text)} {queue : List Queued} {entities : List Entity}
    {memories : List Memory} {stmts : List (Stmt ι)} {s : State ι}
    (hrun : run step (start ι docs queue entities memories) stmts = some s) :
    s.db.AtMostOnce ↔
      Meets step Unstarted (start ι docs queue entities memories) stmts := by
  have hkeep : ∀ (s : State ι) a s', s.ledger.Once → Unstarted s a → step s a = some s' →
      s'.ledger.Once := by
    intro s a s' honce hcond hstep
    obtain ⟨c, hc, hfresh⟩ := step_ledger hstep
    rw [hc]
    exact honce.apply (hfresh.mpr hcond)
  have hbreak : ∀ (s : State ι) a s', s.ledger.Once → ¬Unstarted s a → step s a = some s' →
      ¬s'.db.AtMostOnce := by
    intro s a s' honce hcond hstep
    obtain ⟨c, hc, hfresh⟩ := step_ledger hstep
    have hrepeats := honce.not_nodup_apply (mt hfresh.mp hcond)
    rwa [← hc] at hrepeats
  have hstay : ∀ (s : State ι) a s', ¬s.db.AtMostOnce → step s a = some s' → ¬s'.db.AtMostOnce := by
    intro s a s' hrepeats hstep
    obtain ⟨c, hc, _⟩ := step_ledger hstep
    have hkept := Passes.Ledger.not_nodup_apply (l := s.ledger) hrepeats c
    rwa [← hc] at hkept
  rcases run_exact _ _ hkeep hbreak hstay hrun (once_start docs queue entities memories) with
    ⟨hmeets, honce⟩ | ⟨hmeets, hrepeats⟩
  · exact iff_of_true honce.nodup hmeets
  · exact iff_of_false hrepeats hmeets

end State

/-- A document that waits for its extraction. -/
def oneQueued (ι : Type) : State ι :=
  .start ι [(1, "We decided to use SQLite".toList)] [⟨1, 0, 0, none, .pending⟩] [] []

/-- One worker after the other. -/
def inTurn : List (Stmt Bool) :=
  [.pop true 16, .exec true 0, .exec true 0, .exec true 0, .pop false 16]

/-- Two workers in turns make each memory once. -/
theorem inTurn_once :
    let _ := Extractor.rule
    ∃ s, run State.step (oneQueued Bool) inTurn = some s ∧ s.db.AtMostOnce := by
  intro _
  obtain ⟨s, hs⟩ : ∃ s, run State.step (oneQueued Bool) inTurn = some s := ⟨_, rfl⟩
  exact ⟨s, hs, (State.extracted_once_iff hs).mpr (of_decide_eq_true rfl)⟩

/-- A worker that is stopped before it writes the status, and the run after it. -/
def stopped : List (Stmt Bool) :=
  [.pop true 16, .exec true 0, .exec true 0, .stop true, .pop false 16, .exec false 0,
    .exec false 0]

/-- Two workers that read the queue before either of them writes to it. -/
def bothPop : List (Stmt Bool) :=
  [.pop true 16, .pop false 16, .exec true 0, .exec false 0, .exec true 0, .exec false 0,
    .exec true 0, .exec false 0]

/-- Both workers pop the same document, or one of them is stopped in between. A memory is made
twice. -/
theorem bothPop_twice :
    let _ := Extractor.rule
    (∃ s, run State.step (oneQueued Bool) bothPop = some s ∧ ¬s.db.AtMostOnce) ∧
      ∃ s, run State.step (oneQueued Bool) stopped = some s ∧ ¬s.db.AtMostOnce := by
  intro _
  exact ⟨⟨_, rfl, by decide +kernel⟩, _, rfl, by decide +kernel⟩

end SynapseMemory.Extract
