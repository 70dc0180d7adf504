import SynapseMemory.Transition

/-!
# The daemon as a concurrent system

Requests on different connections run at the same time and meet only at the locks of `State`.
Between two of its lock acquisitions a request touches nothing shared, so it is modelled as a
process with one phase per critical section, and a run of the daemon interleaves the sections of
any number of processes:

* a **write** (`Put`, `PutBatch`, `Transaction`) stores its items in one transaction, adjusts
  `stats_cache`, adds each embedding to the lifted index, clears `query_cache`, and audits;
* a **search** reads the fingerprint of the database, compares it with `db_seen`, clears or
  consults `query_cache`, reads the database, logs the query, and stores its hits;
* **stats** answers from `stats_cache`, or counts under the store lock and refills it;
* **delete** and **merge** write under the store lock and ask for it again in `audit` before they
  release it;
* the **warm-up** reads `docs_vec` and publishes the index later.

Documents are known by the hash of their text, by which the store recognises duplicates. An
embedding is carried as it was given; both ways into the index normalise it alike. Instants are
left out: whether a cached count is within its time to live is a choice of the action.

`clock` and the lists `cleared` and `answered` are not part of the program. They record when
writes happened, for the statements about runs. -/

namespace SynapseMemory

namespace Daemon

/-! ## The database -/

/-- A document to store: the hash of its text and its embedding. -/
structure Item (H E : Type) where
  hash : H
  embedding : Option E
  deriving DecidableEq

/-- What storing an item gave: the id, whether a row was inserted, and the embedding of the
request. -/
structure Row (E : Type) where
  id : ℕ
  inserted : Bool
  embedding : Option E
  deriving DecidableEq

/-- The tables `docs` and `docs_vec`. Ids are given out in ascending order and never again. -/
structure Tables (H E : Type) where
  docs : List (ℕ × H)
  vecs : List (ℕ × E)
  nextId : ℕ
  nextId_pos : 0 < nextId
  docs_pos : ∀ d ∈ docs, 0 < d.1
  docs_lt : ∀ d ∈ docs, d.1 < nextId
  docs_nodup : (docs.map Prod.fst).Nodup
  vecs_nodup : (vecs.map Prod.fst).Nodup
  vecs_docs : ∀ v ∈ vecs, v.1 ∈ docs.map Prod.fst

namespace Tables

variable {H E : Type}

/-- A new database. -/
def empty : Tables H E where
  docs := []
  vecs := []
  nextId := 1
  nextId_pos := Nat.one_pos
  docs_pos := by simp
  docs_lt := by simp
  docs_nodup := List.nodup_nil
  vecs_nodup := List.nodup_nil
  vecs_docs := by simp

/-- The highest id, `COALESCE(MAX(id),0)`. -/
def maxId (t : Tables H E) : ℕ := (t.docs.map Prod.fst).foldr max 0

theorem vecs_lt (t : Tables H E) {v : ℕ × E} (hv : v ∈ t.vecs) : v.1 < t.nextId := by
  obtain ⟨d, hd, heq⟩ := List.mem_map.mp (t.vecs_docs v hv)
  rw [← heq]
  exact t.docs_lt d hd

/-- Insert a new row in `docs`, and one in `docs_vec` when there is an embedding. -/
def append (t : Tables H E) (item : Item H E) : Tables H E where
  docs := t.docs ++ [(t.nextId, item.hash)]
  vecs := t.vecs ++ (item.embedding.map (t.nextId, ·)).toList
  nextId := t.nextId + 1
  nextId_pos := t.nextId.succ_pos
  docs_pos := by
    intro d hd
    rcases List.mem_append.mp hd with hd | hd
    · exact t.docs_pos d hd
    · obtain rfl := List.mem_singleton.mp hd
      exact t.nextId_pos
  docs_lt := by
    intro d hd
    rcases List.mem_append.mp hd with hd | hd
    · exact Nat.lt_succ_of_lt (t.docs_lt d hd)
    · obtain rfl := List.mem_singleton.mp hd
      exact t.nextId.lt_succ_self
  docs_nodup := by
    rw [List.map_append]
    refine t.docs_nodup.append (List.nodup_singleton _) ?_
    intro id hid hnew
    obtain rfl := List.mem_singleton.mp hnew
    obtain ⟨d, hd, heq⟩ := List.mem_map.mp hid
    exact absurd heq (Nat.ne_of_lt (t.docs_lt d hd))
  vecs_nodup := by
    rw [List.map_append]
    refine t.vecs_nodup.append ?_ ?_
    · cases item.embedding with
      | none => exact List.nodup_nil
      | some e => exact List.nodup_singleton _
    · intro id hid hnew
      obtain ⟨v, hv, rfl⟩ := List.mem_map.mp hid
      cases he : item.embedding with
      | none =>
        rw [he] at hnew
        cases hnew
      | some e =>
        rw [he] at hnew
        exact absurd (List.mem_singleton.mp hnew) (Nat.ne_of_lt (t.vecs_lt hv))
  vecs_docs := by
    intro v hv
    rw [List.map_append, List.mem_append]
    rcases List.mem_append.mp hv with hv | hv
    · exact .inl (t.vecs_docs v hv)
    · cases he : item.embedding with
      | none =>
        rw [he] at hv
        cases hv
      | some e =>
        rw [he] at hv
        obtain rfl := List.mem_singleton.mp hv
        exact .inr (List.mem_singleton.mpr rfl)

/-- Delete a document and its vector. -/
def remove (t : Tables H E) (id : ℕ) : Tables H E where
  docs := t.docs.filter (fun d => d.1 ≠ id)
  vecs := t.vecs.filter (fun v => v.1 ≠ id)
  nextId := t.nextId
  nextId_pos := t.nextId_pos
  docs_pos := fun d hd => t.docs_pos d (List.mem_of_mem_filter hd)
  docs_lt := fun d hd => t.docs_lt d (List.mem_of_mem_filter hd)
  docs_nodup := t.docs_nodup.sublist (List.filter_sublist.map _)
  vecs_nodup := t.vecs_nodup.sublist (List.filter_sublist.map _)
  vecs_docs := by
    intro v hv
    obtain ⟨hv, hne⟩ := List.mem_filter.mp hv
    obtain ⟨d, hd, heq⟩ := List.mem_map.mp (t.vecs_docs v hv)
    refine List.mem_map.mpr ⟨d, List.mem_filter.mpr ⟨hd, ?_⟩, heq⟩
    rw [heq]
    exact hne

variable [DecidableEq H]

/-- Store one item: a text that is there already keeps its row and its vector as they are. -/
def put (t : Tables H E) (item : Item H E) : Tables H E × Row E :=
  match t.docs.find? (fun d => d.2 = item.hash) with
  | some d => (t, ⟨d.1, false, item.embedding⟩)
  | none => (t.append item, ⟨t.nextId, true, item.embedding⟩)

/-- The transaction of a batch. -/
def putBatch : Tables H E → List (Item H E) → Tables H E × List (Row E)
  | t, [] => (t, [])
  | t, item :: rest =>
    let (t, row) := t.put item
    let (t, rows) := putBatch t rest
    (t, row :: rows)

end Tables

/-! ## Processes -/

/-- Search results: the documents found, and when the database was first read for them. -/
structure Hits where
  asOf : ℕ
  ids : List ℕ
  deriving DecidableEq

/-- A write that was answered: when its store call happened, and what it deleted. -/
structure Written where
  time : ℕ
  deleted : Option ℕ
  deriving DecidableEq

/-- The requests that touch the shared state. -/
inductive Req (H E K : Type) where
  | write (items : List (Item H E))
  | merge
  | delete (id : ℕ)
  | search (key : K)
  | stats

/-- What a request is answered with. -/
inductive Answer where
  | ids (ids : List ℕ)
  | ok
  | failed
  /-- The hits, with the writes that had been answered when the search started. -/
  | hits (after : List Written) (hits : Hits)
  | stats (docs vecs : ℕ)
  deriving DecidableEq

/-- Where a request stands. -/
inductive Proc (H E K : Type) where
  | idle
  /-- A write before its store call. -/
  | write (items : List (Item H E))
  /-- After the store call, which gave out ids from `base` on; the counts are to be adjusted. -/
  | stored (time base : ℕ) (rows : List (Row E))
  /-- The rows whose embeddings are still to be added to the index. -/
  | lifting (time : ℕ) (rows todo : List (Row E))
  /-- The cache was cleared; the audit is to come. -/
  | cleared (time : ℕ) (rows : List (Row E))
  | merge
  /-- After the store call, with the store guard of the scrutinee still alive. -/
  | merged (time : ℕ)
  | mergeAudited (time : ℕ)
  | delete (id : ℕ)
  /-- Likewise; the flag tells whether a document was there. -/
  | removed (id : ℕ) (hit : Bool) (time : ℕ)
  | deleteAudited (id time : ℕ)
  | search (key : K) (after : List Written)
  | probed (key : K) (after : List Written) (fingerprint : ℕ)
  | wiping (key : K) (after : List Written)
  | getting (key : K) (after : List Written)
  | reading (key : K) (after : List Written) (asOf : Option ℕ) (ids : List ℕ)
  | logged (key : K) (after : List Written) (hits : Hits)
  | stats
  | counting
  /-- The counts were taken under the store guard, which is still alive. -/
  | counted (docs vecs : ℕ)
  | done (answer : Answer)

/-- The cached counts, with the highest id they cover. -/
structure Snapshot where
  docs : ℕ
  vecs : ℕ
  maxId : ℕ
  deriving DecidableEq

/-- One pass of the loop of `adjust_stats_cache_after_batch`. -/
def Snapshot.adjust {E : Type} (snap : Snapshot) (row : Row E) : Snapshot :=
  if snap.maxId < row.id then
    { docs := snap.docs + 1, vecs := snap.vecs + (if row.embedding.isSome then 1 else 0)
      maxId := row.id }
  else snap

/-- The background warm-up of the index. -/
inductive Warm (E : Type) where
  | idle
  | read (snapshot : List (ℕ × E))
  | published
  /-- `docs_vec` was empty, which is an error of the warm-up. -/
  | failed
  deriving DecidableEq

/-- What the processes share, and where each of them is. -/
structure State (H E K : Type) where
  tables : Tables H E
  /-- The fingerprint of the database files. -/
  version : ℕ
  /-- The process that holds the store between two of its sections. -/
  storeHeld : Option ℕ
  dbSeen : Option ℕ
  queryCache : List (K × Hits)
  statsCache : Option Snapshot
  index : Option (List (ℕ × E))
  warm : Warm E
  procs : ℕ → Proc H E K
  clock : ℕ
  cleared : List ℕ
  answered : List Written

namespace State

variable {H E K : Type}

/-- The daemon after start-up on a database. -/
def initial (tables : Tables H E) : State H E K where
  tables := tables
  version := 0
  storeHeld := none
  dbSeen := none
  queryCache := []
  statsCache := none
  index := none
  warm := .idle
  procs := fun _ => .idle
  clock := 0
  cleared := []
  answered := []

/-- Move a process to its next phase. -/
def goto (s : State H E K) (p : ℕ) (phase : Proc H E K) : State H E K :=
  { s with procs := Function.update s.procs p phase }

end State

/-! ## Critical sections -/

/-- The sections of the requests and of the warm-up, with what the environment decides. -/
inductive Action (H E K : Type) where
  | start (p : ℕ) (req : Req H E K)
  /-- The store call, and whether it goes through: the texts are not known here, so a `Delete` that
  the full-text index refuses (that of the only document, for one) is one of the calls that fail. -/
  | store (p : ℕ) (ok : Bool)
  | adjust (p : ℕ)
  | lift (p : ℕ)
  | clear (p : ℕ)
  | audit (p : ℕ) (ok : Bool)
  | probe (p : ℕ)
  | see (p : ℕ)
  | wipe (p : ℕ)
  | get (p : ℕ)
  /-- One statement on the database, which finds some of its documents, or a look at the index,
  whose results are documents only after such a statement. -/
  | read (p : ℕ) (ids : List ℕ)
  /-- The insert in the query log, which may fail. -/
  | log (p : ℕ) (ok : Bool)
  | putCached (p : ℕ)
  /-- An error before the store call of a write, in a search, or in the counts. -/
  | fail (p : ℕ)
  /-- Whether the cached counts are within their time to live. -/
  | look (p : ℕ) (fresh : Bool)
  | count (p : ℕ)
  /-- Whether `sql_conn` gave the highest id. -/
  | fill (p : ℕ) (maxOk : Bool)
  | warmRead
  | warmPublish

/-- How many queries the cache keeps. -/
def queryCacheMax : ℕ := 4096

section Exec

variable {H E K : Type} [DecidableEq H] [DecidableEq K]

/-- The first phase of a request. -/
def arrive (s : State H E K) : Req H E K → Proc H E K
  | .write items => .write items
  | .merge => .merge
  | .delete id => .delete id
  | .search key => .search key s.answered
  | .stats => .stats

/-- The store call of a write: one transaction, with ids from the next one on. -/
def commit (s : State H E K) (p : ℕ) (items : List (Item H E)) : State H E K :=
  { s with
    tables := (s.tables.putBatch items).1
    version := s.version + 1
    clock := s.clock + 1
    procs := Function.update s.procs p
      (.stored (s.clock + 1) s.tables.nextId (s.tables.putBatch items).2) }

/-- `add_row`: an id that the index has keeps its vector. -/
def addRow (index : List (ℕ × E)) (id : ℕ) (e : E) : List (ℕ × E) :=
  if id ∈ index.map Prod.fst then index else index ++ [(id, e)]

/-- `update_lifted_ndarray`: nothing happens while the index is absent. -/
def updateLifted (index : Option (List (ℕ × E))) (row : Row E) : Option (List (ℕ × E)) :=
  match row.embedding with
  | none => index
  | some e => index.map fun idx => addRow idx row.id e

/-- One section of one process, when it is its turn and the store is free where it is needed. -/
def exec (s : State H E K) : Action H E K → Option (State H E K)
  | .start p req =>
    match s.procs p with
    | .idle => some (s.goto p (arrive s req))
    | _ => none
  | .store p ok =>
    if s.storeHeld = none then
      match s.procs p with
      | .write items => some (if ok then commit s p items else s.goto p (.done .failed))
      | .merge =>
        -- the guard of the scrutinee lives on, so the store stays held
        some (if ok then
          { s.goto p (.merged (s.clock + 1)) with
            version := s.version + 1, clock := s.clock + 1, storeHeld := some p }
        else s.goto p (.done .failed))
      | .delete id =>
        some (if ok then
          { s.goto p (.removed id (id ∈ s.tables.docs.map Prod.fst) (s.clock + 1)) with
            tables := s.tables.remove id
            version := s.version + 1, clock := s.clock + 1, storeHeld := some p }
        else s.goto p (.done .failed))
      | _ => none
    else none
  | .adjust p =>
    match s.procs p with
    | .stored time _ rows =>
      some { s.goto p (.lifting time rows rows) with
        statsCache := s.statsCache.map fun snap => rows.foldl Snapshot.adjust snap }
    | _ => none
  | .lift p =>
    match s.procs p with
    | .lifting time rows (row :: todo) =>
      some { s.goto p (.lifting time rows todo) with index := updateLifted s.index row }
    | _ => none
  | .clear p =>
    match s.procs p with
    | .lifting time rows [] =>
      some { s.goto p (.cleared time rows) with queryCache := [], cleared := time :: s.cleared }
    | .mergeAudited time =>
      -- the end of the arm would release the guard
      some { s.goto p (.done .ok) with
        queryCache := [], cleared := time :: s.cleared
        answered := ⟨time, none⟩ :: s.answered, storeHeld := none }
    | .deleteAudited id time =>
      some { s.goto p (.done .ok) with
        queryCache := [], cleared := time :: s.cleared
        answered := ⟨time, some id⟩ :: s.answered, storeHeld := none }
    | _ => none
  | .audit p ok =>
    if s.storeHeld = none then
      match s.procs p with
      | .cleared time rows =>
        some { s.goto p (.done (.ids (rows.map Row.id))) with
          version := if ok then s.version + 1 else s.version
          answered := ⟨time, none⟩ :: s.answered }
      | .merged time =>
        -- `audit` asks for the store that the process itself holds
        some { s.goto p (.mergeAudited time) with
          version := if ok then s.version + 1 else s.version }
      | .removed id _ time =>
        some { s.goto p (.deleteAudited id time) with
          version := if ok then s.version + 1 else s.version }
      | _ => none
    else none
  | .probe p =>
    match s.procs p with
    | .search key after => some (s.goto p (.probed key after s.version))
    | _ => none
  | .see p =>
    match s.procs p with
    | .probed key after fp =>
      -- `db_seen` is unlocked before the cache is cleared, so another search may get in between
      some (if s.dbSeen = some fp then s.goto p (.getting key after)
        else { s.goto p (.wiping key after) with dbSeen := some fp })
    | _ => none
  | .wipe p =>
    match s.procs p with
    | .wiping key after => some { s.goto p (.reading key after none []) with queryCache := [] }
    | _ => none
  | .get p =>
    match s.procs p with
    | .getting key after =>
      some (match s.queryCache.lookup key with
        | some hits => s.goto p (.done (.hits after hits))
        | none => s.goto p (.reading key after none []))
    | _ => none
  | .read p found =>
    match s.procs p with
    | .reading key after asOf ids =>
      if ∀ id ∈ found, id ∈ s.tables.docs.map Prod.fst then
        some (s.goto p (.reading key after (some (asOf.getD s.clock)) (ids ++ found)))
      else none
    | _ => none
  | .log p ok =>
    if s.storeHeld = none then
      match s.procs p with
      | .reading key after asOf ids =>
        some { s.goto p (.logged key after ⟨asOf.getD s.clock, ids⟩) with
          version := if ok then s.version + 1 else s.version }
      | _ => none
    else none
  | .putCached p =>
    match s.procs p with
    | .logged key after hits =>
      -- nothing tells whether the cache was cleared since the hits were read
      let cache := if queryCacheMax ≤ s.queryCache.length then [] else s.queryCache
      some { s.goto p (.done (.hits after hits)) with
        queryCache := (key, hits) :: cache.filter (fun e => e.1 ≠ key) }
    | _ => none
  | .fail p =>
    match s.procs p with
    | .write _ => some (s.goto p (.done .failed))
    | .reading _ _ _ _ => some (s.goto p (.done .failed))
    | .counting => if s.storeHeld = none then some (s.goto p (.done .failed)) else none
    | _ => none
  | .look p fresh =>
    match s.procs p with
    | .stats =>
      some (match s.statsCache, fresh with
        | some snap, true => s.goto p (.done (.stats snap.docs snap.vecs))
        | _, _ => s.goto p .counting)
    | _ => none
  | .count p =>
    if s.storeHeld = none then
      match s.procs p with
      | .counting =>
        some { s.goto p (.counted s.tables.docs.length s.tables.vecs.length) with
          storeHeld := some p }
      | _ => none
    else none
  | .fill p maxOk =>
    match s.procs p with
    | .counted docs vecs =>
      some { s.goto p (.done (.stats docs vecs)) with
        statsCache := some ⟨docs, vecs, if maxOk then s.tables.maxId else docs⟩
        storeHeld := none }
    | _ => none
  | .warmRead =>
    match s.warm with
    | .idle => some { s with warm := .read s.tables.vecs }
    | _ => none
  | .warmPublish =>
    match s.warm with
    | .read [] => some { s with warm := .failed }
    | .read (v :: rest) => some { s with warm := .published, index := some (v :: rest) }
    | _ => none

end Exec

end Daemon

end SynapseMemory
