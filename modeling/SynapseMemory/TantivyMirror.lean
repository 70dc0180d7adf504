import SynapseMemory.Search
import SynapseMemory.Transition

/-!
# The Tantivy index of the documents

With the feature `tantivy-fts` a keyword search asks a Tantivy index of `docs`. The index lives in a
directory next to the database, with a file that says up to which id it was filled, the mark. When a
store is opened, the documents above the mark are added. After that each put adds its document and
commits; a batch adds its documents and leaves the commit to the next search. Only an open and a
search write the mark. Where the directory cannot be used the index is kept in memory, and it is
filled from the first document on.

An index never misses a document of an open store. It can have one twice: `put_batch` adds the
documents it has found, too, and an open adds again what the index has above the mark.
`mirrored_iff` says that this is all that goes wrong. The database itself goes on as it does without
an index (`run_db`).
-/

namespace SynapseMemory

open Proto Transition

/-! ## The index -/

/-- A document of the index. -/
structure FtsEntry where
  docId : ℤ
  text : String
  deriving DecidableEq

/-- `FtsIndex` -/
structure FtsIndex where
  /-- The documents that are committed. -/
  entries : List FtsEntry
  /-- The documents that were added since then. -/
  pending : List FtsEntry
  /-- The number in `synapse_meta.json`, or zero. -/
  lastIndexed : ℤ
  /-- The index has a directory. -/
  persistent : Bool
  deriving DecidableEq

namespace FtsIndex

/-- A new index in memory. -/
def inRam : FtsIndex := ⟨[], [], 0, false⟩

/-- `add` -/
def add (ix : FtsIndex) (docId : ℤ) (text : String) : FtsIndex :=
  { ix with pending := ix.pending ++ [⟨docId, text⟩] }

/-- `commit` -/
def commit (ix : FtsIndex) : FtsIndex :=
  { ix with entries := ix.entries ++ ix.pending, pending := [] }

/-- `set_last_indexed_doc_id` -/
def setLastIndexedDocId (ix : FtsIndex) (docId : ℤ) : FtsIndex :=
  if ix.persistent then { ix with lastIndexed := docId } else ix

/-- `last_indexed_doc_id` -/
def lastIndexedDocId (ix : FtsIndex) : ℤ := if ix.persistent then ix.lastIndexed else 0

/-- What the directory holds when the writer is gone. -/
def onDisk (ix : FtsIndex) : FtsIndex := { ix with pending := [] }

/-- The entries are added one after the other. -/
def addAll (ix : FtsIndex) (entries : List FtsEntry) : FtsIndex :=
  entries.foldl (fun ix e => ix.add e.docId e.text) ix

/-- The ids of the index with those that wait for a commit. -/
def ids (ix : FtsIndex) : List ℤ := (ix.entries ++ ix.pending).map FtsEntry.docId

/-- Adding entries makes them pending. -/
theorem addAll_eq (ix : FtsIndex) (entries : List FtsEntry) :
    ix.addAll entries = { ix with pending := ix.pending ++ entries } := by
  induction entries generalizing ix with
  | nil => rw [List.append_nil]; rfl
  | cons e entries ih =>
    rw [addAll, List.foldl_cons, ← addAll, ih, add]
    simp

@[simp] theorem ids_addAll (ix : FtsIndex) (entries : List FtsEntry) :
    (ix.addAll entries).ids = ix.ids ++ entries.map FtsEntry.docId := by
  rw [addAll_eq, ids, ids, ← List.append_assoc, List.map_append]

@[simp] theorem ids_add (ix : FtsIndex) (docId : ℤ) (text : String) :
    (ix.add docId text).ids = ix.ids ++ [docId] :=
  ids_addAll ix [⟨docId, text⟩]

@[simp] theorem ids_commit (ix : FtsIndex) : ix.commit.ids = ix.ids := by
  rw [ids, commit, List.append_nil]
  rfl

@[simp] theorem ids_setLastIndexedDocId (ix : FtsIndex) (docId : ℤ) :
    (ix.setLastIndexedDocId docId).ids = ix.ids := by
  rw [setLastIndexedDocId]
  split <;> rfl

theorem ids_of_pending {ix : FtsIndex} (h : ix.pending = []) :
    ix.ids = ix.entries.map FtsEntry.docId := by
  rw [ids, h, List.append_nil]

/-- What is on disk is a part of the index. -/
theorem ids_onDisk_sublist (ix : FtsIndex) : ix.onDisk.ids.Sublist ix.ids := by
  rw [ids_of_pending rfl, ids, List.map_append]
  exact List.sublist_append_left _ _

@[simp] theorem pending_setLastIndexedDocId (ix : FtsIndex) (docId : ℤ) :
    (ix.setLastIndexedDocId docId).pending = ix.pending := by
  rw [setLastIndexedDocId]
  split <;> rfl

/-- The mark does not pass a bound that neither the old nor the new one passes. -/
theorem lastIndexedDocId_set_le {ix : FtsIndex} {docId bound : ℤ}
    (hold : ix.lastIndexedDocId ≤ bound) (hnew : docId ≤ bound) :
    (ix.setLastIndexedDocId docId).lastIndexedDocId ≤ bound := by
  rw [setLastIndexedDocId]
  split
  next hp =>
    rw [lastIndexedDocId, if_pos hp]
    exact hnew
  next => exact hold

/-- The text of a document in the index. -/
def combined (title : Option String) (text : String) : String := title.getD "" ++ " " ++ text

end FtsIndex

/-! ## Ids in an index -/

namespace Store

variable [Blake3]

/-- No document is in the list twice. -/
structure AtMostOnce (s : Store) (ids : List ℤ) : Prop where
  le_seq : ∀ i ∈ ids, i ≤ s.docs.seq
  once : ∀ d ∈ s.docs.rows, ids.count d.id ≤ 1

/-- Every document is in the list, and only once. -/
structure ExactlyOnce (s : Store) (ids : List ℤ) : Prop extends AtMostOnce s ids where
  complete : ∀ d ∈ s.docs.rows, d.id ∈ ids

/-- A batch brings new texts, and no text twice. -/
def NewTexts (s : Store) (reqs : List (ℤ × PutRequest)) : Prop :=
  (∀ r ∈ reqs, s.byText r.2.text = none) ∧ (reqs.map fun r => Blake3.hash r.2.text).Nodup

/-- Later rows do not make an entry appear twice. -/
theorem AtMostOnce.later {s t : Store} {ids : List ℤ} (h : s.AtMostOnce ids)
    (hlater : RowsLater s t) : t.AtMostOnce ids := by
  refine ⟨fun i hi => (h.le_seq i hi).trans hlater.seq_le, fun d hd => ?_⟩
  rcases hlater.old_or_new d hd with hold | hnew
  · exact h.once d hold
  · have hnot : d.id ∉ ids := fun hi => absurd (h.le_seq d.id hi) (not_le.mpr hnew)
    rw [List.count_eq_zero_of_not_mem hnot]
    exact Nat.zero_le 1

theorem AtMostOnce.sublist {s : Store} {ids kept : List ℤ} (h : s.AtMostOnce ids)
    (hsub : kept.Sublist ids) : s.AtMostOnce kept :=
  ⟨fun i hi => h.le_seq i (hsub.subset hi), fun d hd => (hsub.count_le d.id).trans (h.once d hd)⟩

theorem ExactlyOnce.count_eq {s : Store} {ids : List ℤ} (h : s.ExactlyOnce ids) {d : Doc}
    (hd : d ∈ s.docs.rows) : ids.count d.id = 1 :=
  le_antisymm (h.once d hd) (List.count_pos_iff.mpr (h.complete d hd))

/-- An index that has each row once still does when a row is removed. -/
theorem ExactlyOnce.removed {s : Store} {ids : List ℤ} (h : s.ExactlyOnce ids) (id : ℤ) :
    (s.removed id).ExactlyOnce ids :=
  ⟨h.toAtMostOnce.later (s.removed_rowsLater id),
    fun d hd => h.complete d (mem_removed_rows.mp hd).1⟩

/-- It does when a row is inserted with its entry. -/
theorem ExactlyOnce.inserted {s s' : Store} {ids : List ℤ} {now id : ℤ} {req : PutRequest}
    (h : s.ExactlyOnce ids) (hnew : Inserted s now req s' id) : s'.ExactlyOnce (ids ++ [id]) := by
  have hlater := h.toAtMostOnce.later hnew.rowsLater
  have hid : id ∉ ids := by
    intro hi
    have hle := h.le_seq id hi
    rw [hnew.id_eq] at hle
    exact absurd hle (not_le.mpr (Int.lt_succ _))
  have hrows : ∀ d ∈ s'.docs.rows, d ∈ s.docs.rows ∨ d.id = id := by
    intro d hd
    rw [hnew.rows_eq] at hd
    rcases List.mem_append.mp hd with hd | hd
    · exact .inl hd
    · rw [List.mem_singleton.mp hd, hnew.id_eq]
      exact .inr rfl
  refine ⟨⟨?_, ?_⟩, ?_⟩
  · intro i hi
    rcases List.mem_append.mp hi with hi | hi
    · exact hlater.le_seq i hi
    · rw [List.mem_singleton.mp hi, hnew.id_eq, hnew.seq_eq]
  · intro d hd
    rw [List.count_append, List.count_singleton]
    by_cases heq : d.id = id
    · rw [heq, List.count_eq_zero_of_not_mem hid]
      simp
    · have hone := hlater.once d hd
      simpa [Ne.symm heq] using hone
  · intro d hd
    rcases hrows d hd with hold | heq
    · exact List.mem_append_left _ (h.complete d hold)
    · rw [heq]
      exact List.mem_append_right _ List.mem_cons_self

/-! ## A batch -/

/-- A text that is inserted is new to the batch. -/
theorem newTexts_cons_of_inserted {s s' : Store} {now id : ℤ} {req : PutRequest}
    {rest : List (ℤ × PutRequest)} (h : Inserted s now req s' id) :
    s.NewTexts ((now, req) :: rest) ↔ s'.NewTexts rest := by
  have hrest : (∀ r ∈ rest, s'.byText r.2.text = none) ↔
      (∀ r ∈ rest, s.byText r.2.text = none) ∧
        Blake3.hash req.text ∉ rest.map fun r => Blake3.hash r.2.text := by
    rw [List.mem_map]
    refine ⟨?_, ?_⟩
    · intro hall
      refine ⟨fun r hr => ((h.byText_eq_none r.2.text).mp (hall r hr)).1, ?_⟩
      rintro ⟨r, hr, heq⟩
      exact ((h.byText_eq_none r.2.text).mp (hall r hr)).2 heq.symm
    · rintro ⟨hold, hnot⟩ r hr
      exact (h.byText_eq_none r.2.text).mpr ⟨hold r hr, fun heq => hnot ⟨r, hr, heq.symm⟩⟩
  rw [NewTexts, NewTexts, List.forall_mem_cons, List.map_cons, List.nodup_cons, hrest]
  refine ⟨?_, ?_⟩
  · rintro ⟨⟨-, hold⟩, hnot, hnodup⟩
    exact ⟨⟨hold, hnot⟩, hnodup⟩
  · rintro ⟨⟨hold, hnot⟩, hnodup⟩
    exact ⟨⟨h.fresh, hold⟩, hnot, hnodup⟩

/-- An index that adds the ids of a batch keeps each document once exactly if the batch brings new
texts only. -/
theorem exactlyOnce_batch_iff {s s' : Store} {reqs : List (ℤ × PutRequest)} {ids new : List ℤ}
    (hexact : s.ExactlyOnce ids) (h : s.putBatch reqs = .ok (s', new)) :
    (s.NewTexts reqs → s'.ExactlyOnce (ids ++ new)) ∧
      ((∀ d ∈ s'.docs.rows, (ids ++ new).count d.id ≤ 1) → s.NewTexts reqs) := by
  induction reqs generalizing s ids new with
  | nil =>
    cases h
    rw [List.append_nil]
    exact ⟨fun _ => hexact, fun _ => ⟨nofun, List.nodup_nil⟩⟩
  | cons r rest ih =>
    obtain ⟨now, req⟩ := r
    obtain ⟨t, id, new', rfl, hrow, hrest⟩ := putBatch_cons h
    rcases findOrInsert_ok hrow with ⟨d, hd, rfl, rfl⟩ | hins
    · -- the document is in the index already, and the loop adds it again
      have hmem : d ∈ t.docs.rows := ((t.docs.byKey_eq_some).mp hd).1
      refine ⟨?_, ?_⟩
      · intro hnew
        have hnone := hnew.1 (now, req) List.mem_cons_self
        rw [hd] at hnone
        cases hnone
      · intro honce
        have htwo := honce d (putBatch_rows_mono h hmem)
        rw [List.count_append, hexact.count_eq hmem, List.count_cons_self] at htwo
        omega
    · rw [newTexts_cons_of_inserted hins, List.append_cons]
      exact ih (hexact.inserted hins) hrest

end Store

/-! ## Filling an index -/

namespace FtsIndex

variable [Blake3]

/-- The document of the index for a row. -/
def ofDoc (d : Doc) : FtsEntry := ⟨d.id, combined d.title d.text⟩

/-- `SELECT id, title, text FROM docs WHERE id > ?1 ORDER BY id ASC` -/
def rowsAbove (s : Store) (lastId : ℤ) : List Doc := s.docs.rows.filter fun d => lastId < d.id

/-- Add the rows above the mark, commit, and move the mark. -/
def catchUp (ix : FtsIndex) (s : Store) : FtsIndex :=
  let lastId := ix.lastIndexedDocId
  let rows := rowsAbove s lastId
  let newMax := (rows.getLast?.map Doc.id).getD lastId
  let ix := (ix.addAll (rows.map ofDoc)).commit
  if lastId < newMax then ix.setLastIndexedDocId newMax else ix

/-- What the mark of an index promises. -/
structure Marked (s : Store) (ix : FtsIndex) : Prop where
  last_le : ix.lastIndexedDocId ≤ s.docs.seq
  committed : ∀ d ∈ s.docs.rows, d.id ≤ ix.lastIndexedDocId → d.id ∈ ix.entries.map FtsEntry.docId

/-- The documents above the mark are not in the index. -/
def FreshAbove (s : Store) (ix : FtsIndex) : Prop :=
  ∀ d ∈ s.docs.rows, ix.lastIndexedDocId < d.id → d.id ∉ ix.ids

/-- The mark stays right for later rows. -/
theorem Marked.later {s t : Store} {ix : FtsIndex} (h : Marked s ix) (hlater : s.RowsLater t) :
    Marked t ix := by
  refine ⟨h.last_le.trans hlater.seq_le, fun d hd hle => ?_⟩
  rcases hlater.old_or_new d hd with hold | hnew
  · exact h.committed d hold hle
  · exact absurd (hle.trans h.last_le) (not_le.mpr hnew)

/-- In an index that has all documents, and committed them, every mark is right. -/
theorem Marked.of_committed {s : Store} {ix : FtsIndex} (hpending : ix.pending = [])
    (hexact : s.ExactlyOnce ix.ids) (hle : ix.lastIndexedDocId ≤ s.docs.seq) : Marked s ix := by
  refine ⟨hle, fun d hd _ => ?_⟩
  rw [← ids_of_pending hpending]
  exact hexact.complete d hd

theorem mem_rowsAbove {s : Store} {lastId : ℤ} {d : Doc} :
    d ∈ rowsAbove s lastId ↔ d ∈ s.docs.rows ∧ lastId < d.id := by
  rw [rowsAbove, List.mem_filter, decide_eq_true_eq]

/-- Catching up adds the rows above the mark. -/
theorem ids_catchUp (ix : FtsIndex) (s : Store) :
    (ix.catchUp s).ids = ix.ids ++ (rowsAbove s ix.lastIndexedDocId).map Doc.id := by
  have hids : (ix.addAll ((rowsAbove s ix.lastIndexedDocId).map ofDoc)).commit.ids =
      ix.ids ++ (rowsAbove s ix.lastIndexedDocId).map Doc.id := by
    rw [ids_commit, ids_addAll, List.map_map]
    rfl
  rw [catchUp]
  split
  next => rw [ids_setLastIndexedDocId, hids]
  next => exact hids

/-- It leaves nothing pending. -/
theorem pending_catchUp (ix : FtsIndex) (s : Store) : (ix.catchUp s).pending = [] := by
  rw [catchUp]
  split
  next => exact pending_setLastIndexedDocId _ _
  next => rfl

theorem lastIndexedDocId_catchUp_le {ix : FtsIndex} {s : Store}
    (h : ix.lastIndexedDocId ≤ s.docs.seq) : (ix.catchUp s).lastIndexedDocId ≤ s.docs.seq := by
  have hcommit : (ix.addAll ((rowsAbove s ix.lastIndexedDocId).map ofDoc)).commit.lastIndexedDocId =
      ix.lastIndexedDocId := by
    rw [addAll_eq]
    rfl
  have hmax : ((rowsAbove s ix.lastIndexedDocId).getLast?.map Doc.id).getD ix.lastIndexedDocId ≤
      s.docs.seq := by
    cases hlast : (rowsAbove s ix.lastIndexedDocId).getLast? with
    | none => exact h
    | some d => exact s.docs.le_seq d (mem_rowsAbove.mp (List.mem_of_getLast? hlast)).1
  rw [catchUp]
  split
  next => exact lastIndexedDocId_set_le (hcommit.le.trans h) hmax
  next => exact hcommit.le.trans h

/-- An index is filled from its mark: it has all documents then, and each once if those above the
mark were not in it. -/
theorem catchUp_exactlyOnce {s : Store} {ix : FtsIndex} (honce : s.AtMostOnce ix.ids)
    (hmarked : Marked s ix) (hfresh : FreshAbove s ix) : s.ExactlyOnce (ix.catchUp s).ids := by
  have hnodup : ((rowsAbove s ix.lastIndexedDocId).map Doc.id).Nodup :=
    s.docs.id_nodup.sublist (List.filter_sublist.map _)
  rw [ids_catchUp]
  refine ⟨⟨?_, ?_⟩, ?_⟩
  · intro i hi
    rcases List.mem_append.mp hi with hi | hi
    · exact honce.le_seq i hi
    · obtain ⟨d, hd, rfl⟩ := List.mem_map.mp hi
      exact s.docs.le_seq d (mem_rowsAbove.mp hd).1
  · intro d hd
    rw [List.count_append]
    by_cases habove : ix.lastIndexedDocId < d.id
    · rw [List.count_eq_zero_of_not_mem (hfresh d hd habove), Nat.zero_add]
      exact List.nodup_iff_count_le_one.mp hnodup d.id
    · have hnot : d.id ∉ (rowsAbove s ix.lastIndexedDocId).map Doc.id := by
        intro hmem
        obtain ⟨e, he, heq⟩ := List.mem_map.mp hmem
        exact habove (heq ▸ (mem_rowsAbove.mp he).2)
      rw [List.count_eq_zero_of_not_mem hnot]
      exact honce.once d hd
  · intro d hd
    rw [List.mem_append]
    by_cases habove : ix.lastIndexedDocId < d.id
    · exact .inr (List.mem_map_of_mem (mem_rowsAbove.mpr ⟨hd, habove⟩))
    · left
      rw [ids, List.map_append]
      exact List.mem_append_left _ (hmarked.committed d hd (not_lt.mp habove))

/-- A document above the mark that is in the index is added once more. -/
theorem freshAbove_of_catchUp {s : Store} {ix : FtsIndex}
    (h : ∀ d ∈ s.docs.rows, (ix.catchUp s).ids.count d.id ≤ 1) : FreshAbove s ix := by
  intro d hd habove hmem
  have hone := h d hd
  have hrow : d.id ∈ (rowsAbove s ix.lastIndexedDocId).map Doc.id :=
    List.mem_map_of_mem (mem_rowsAbove.mpr ⟨hd, habove⟩)
  rw [ids_catchUp, List.count_append] at hone
  have hold := List.count_pos_iff.mpr hmem
  have hnew := List.count_pos_iff.mpr hrow
  omega

/-- After catching up the mark is right. -/
theorem catchUp_marked {s : Store} {ix : FtsIndex} (hexact : s.ExactlyOnce (ix.catchUp s).ids)
    (hle : ix.lastIndexedDocId ≤ s.docs.seq) : Marked s (ix.catchUp s) :=
  Marked.of_committed (pending_catchUp ix s) hexact (lastIndexedDocId_catchUp_le hle)

end FtsIndex

/-! ## The store with its index -/

/-- The search of the index. -/
class Tantivy where
  search : List FtsEntry → Text → ℕ → Except String (List (ℤ × F64))

/-- The documents of one word, in the order they were added; every score is zero. -/
@[reducible] def Tantivy.scan : Tantivy where
  search entries query limit :=
    let found := entries.filter fun e => (Text.splitWhitespace e.text.toList).contains query
    .ok ((found.map fun e => (e.docId, 0)).take limit)

/-- The database, the directory of the index, and the index of a store that is open. -/
structure TantivyStore [Blake3] where
  db : Store
  dir : FtsIndex
  isOpen : Bool
  fts : Option FtsIndex

/-- A call on the store. -/
inductive TantivyAction where
  /-- `Store::open`. The index is in memory if the directory is locked or the path is a temporary
  one. -/
  | openStore (ram : Bool)
  /-- `open_encrypted`, which leaves the index to the first search. -/
  | openEncrypted
  | put (now : ℤ) (req : PutRequest)
  | putBatch (reqs : List (ℤ × PutRequest))
  | delete (id : ℤ)
  | searchLex (q : Text) (limit : ℕ)
  | close

namespace TantivyStore

variable [Blake3]

/-- Before the first open. -/
def new : TantivyStore := ⟨Store.empty, ⟨[], [], 0, true⟩, false, none⟩

/-- `init_tantivy_warm_start` -/
def initTantivyWarmStart (s : TantivyStore) (ram : Bool) : TantivyStore :=
  { s with isOpen := true, fts := some ((if ram then FtsIndex.inRam else s.dir).catchUp s.db) }

/-- `put` -/
def put (s : TantivyStore) (now : ℤ) (req : PutRequest) : TantivyStore :=
  match s.db.putInner now req with
  | .error _ => s
  | .ok (db, id) =>
    -- a text that is there returns before the index is reached
    if (s.db.byText req.text).isSome then { s with db }
    else
      { s with
        db
        fts := s.fts.map fun ix => (ix.add id (FtsIndex.combined req.title req.text)).commit }

/-- The document of the index for a request and the id it got. -/
def mirrorEntry (id : ℤ) (r : ℤ × PutRequest) : FtsEntry :=
  ⟨id, FtsIndex.combined r.2.title r.2.text⟩

/-- `mirror_batch_to_tantivy`, which does not commit. -/
def mirrorBatchToTantivy (s : TantivyStore) (reqs : List (ℤ × PutRequest)) (ids : List ℤ) :
    TantivyStore :=
  { s with fts := s.fts.map fun ix => ix.addAll (List.zipWith mirrorEntry ids reqs) }

/-- `put_batch` -/
def putBatch (s : TantivyStore) (reqs : List (ℤ × PutRequest)) : TantivyStore :=
  match s.db.putBatch reqs with
  | .error _ => s
  | .ok (db, ids) => { s with db }.mirrorBatchToTantivy reqs ids

/-- `SELECT COALESCE(MAX(id),0) FROM docs` -/
def maxId (db : Store) : ℤ := (db.docs.rows.map Doc.id).max?.getD 0

/-- Commit what waits, and move the mark to the last document. -/
def refresh (ix : FtsIndex) (db : Store) : FtsIndex :=
  let ix := ix.commit
  if 0 < maxId db then ix.setLastIndexedDocId (maxId db) else ix

/-- A store without an index builds one in memory. -/
def searchLex [Tantivy] (s : TantivyStore) (q : Text) (limit : ℕ) :
    TantivyStore × Except String (List Hit) :=
  match Search.fts5MatchQuery q with
  | none => (s, .ok [])
  | some query =>
    let ix := refresh (s.fts.getD (FtsIndex.inRam.catchUp s.db)) s.db
    ({ s with fts := some ix },
      (Tantivy.search ix.entries query limit).map (Search.hydrate s.db.docs.rows))

/-- What is not committed is lost, and an index in memory is lost. -/
def close (s : TantivyStore) : TantivyStore :=
  { s with
    dir := ((s.fts.filter FtsIndex.persistent).map FtsIndex.onDisk).getD s.dir
    isOpen := false
    fts := none }

/-- A call. It is `none` on a store that is not open, or open already. -/
def step [Tantivy] [Store.Tokenizer] (s : TantivyStore) (a : TantivyAction) : Option TantivyStore :=
  match s.isOpen, a with
  | false, .openStore ram => some (s.initTantivyWarmStart ram)
  | false, .openEncrypted => some { s with isOpen := true }
  | true, .put now req => some (s.put now req)
  | true, .putBatch reqs => some (s.putBatch reqs)
  | true, .delete id => some { s with db := s.db.after (s.db.delete id) }
  | true, .searchLex q limit => some (s.searchLex q limit).1
  | true, .close => some s.close
  | _, _ => none

/-- What an action does to the database. -/
def dbOps : TantivyAction → List Store.Op
  | .put now req => [.put now req]
  | .putBatch reqs => [.putBatch reqs]
  | .delete id => [.delete id]
  | _ => []

/-- The index has no part in what a put does to the database. -/
theorem put_db [Store.Tokenizer] (s : TantivyStore) (now : ℤ) (req : PutRequest) :
    (s.put now req).db = s.db.apply (.put now req) := by
  rw [put, Store.apply, Store.put]
  cases s.db.putInner now req with
  | error e => rfl
  | ok r =>
    simp only
    split <;> rfl

/-- The same of a batch. -/
theorem putBatch_db [Store.Tokenizer] (s : TantivyStore) (reqs : List (ℤ × PutRequest)) :
    (s.putBatch reqs).db = s.db.apply (.putBatch reqs) := by
  rw [putBatch, Store.apply]
  cases s.db.putBatch reqs <;> rfl

/-- A search does not change the database. -/
theorem searchLex_db [Tantivy] (s : TantivyStore) (q : Text) (limit : ℕ) :
    (s.searchLex q limit).1.db = s.db := by
  rw [searchLex]
  split <;> rfl

/-- The database goes on as it does without an index. -/
theorem run_db [Store.Tokenizer] [Tantivy] {s s' : TantivyStore} {as : List TantivyAction}
    (hrun : run step s as = some s') :
    s'.db = (as.flatMap dbOps).foldl Store.apply s.db := by
  refine run_simulates TantivyStore.db Store.apply dbOps (fun s a s' h => ?_) hrun
  unfold step at h
  split at h <;> cases h
  next => rfl
  next => rfl
  next now req _ => exact s.put_db now req
  next reqs _ => exact s.putBatch_db reqs
  next => rfl
  next q limit _ => exact s.searchLex_db q limit
  next => rfl

/-- The index that the store uses: that of its directory while it is closed. -/
def index (s : TantivyStore) : Option FtsIndex := if s.isOpen then s.fts else some s.dir

/-- No document is in the index twice. -/
def NeverTwice (s : TantivyStore) : Prop :=
  ∀ ix ∈ s.index, ∀ d ∈ s.db.docs.rows, ix.ids.count d.id ≤ 1

/-- Every document can be found in the index, and only once. -/
def FoundOnce (s : TantivyStore) : Prop :=
  ∃ ix, s.fts = some ix ∧ ∀ d ∈ s.db.docs.rows, (ix.entries.map FtsEntry.docId).count d.id = 1

/-- The action is a search that reaches the index. -/
def Refreshes : TantivyAction → Prop
  | .searchLex q _ => (Search.fts5MatchQuery q).isSome
  | _ => False

/-- A step keeps the index in line with the documents. -/
def Mirrors [Store.Tokenizer] [Tantivy] (s : TantivyStore) (a : TantivyAction) : Prop :=
  ∀ s' ∈ s.step a, s'.NeverTwice ∧ (Refreshes a → s'.FoundOnce)

/-- A batch that goes through brings new texts only, and an open of the directory finds no document
above the mark in it. -/
def AddsOnce (s : TantivyStore) : TantivyAction → Prop
  | .putBatch reqs => s.fts.isSome → (∃ r, s.db.putBatch reqs = .ok r) → s.db.NewTexts reqs
  | .openStore ram => s.isOpen = false → ram = false → FtsIndex.FreshAbove s.db s.dir
  | _ => True

/-- What holds as long as nothing was added twice. -/
structure InLine (s : TantivyStore) : Prop where
  dir_once : s.db.AtMostOnce s.dir.ids
  dir_marked : FtsIndex.Marked s.db s.dir
  fts_exact : ∀ ix ∈ s.fts, s.db.ExactlyOnce ix.ids
  fts_marked : ∀ ix ∈ s.fts, FtsIndex.Marked s.db ix
  closed : s.isOpen = false → s.fts = none

/-- A new store is in line. -/
theorem inLine_new : InLine new where
  dir_once := ⟨nofun, nofun⟩
  dir_marked := ⟨le_refl _, nofun⟩
  fts_exact := nofun
  fts_marked := nofun
  closed := fun _ => rfl

/-- A store in line has no entry twice. -/
theorem InLine.neverTwice {s : TantivyStore} (hs : s.InLine) : s.NeverTwice := by
  intro ix hix
  rw [index] at hix
  split at hix
  next => exact (hs.fts_exact ix hix).once
  next =>
    obtain rfl := Option.some.inj hix
    exact hs.dir_once.once

/-- The database changes, and the index of the store follows. -/
theorem InLine.follow {s : TantivyStore} {db : Store} {fts : Option FtsIndex} (hs : s.InLine)
    (hopen : s.isOpen = true) (hlater : s.db.RowsLater db)
    (hexact : ∀ ix ∈ fts, db.ExactlyOnce ix.ids) (hmarked : ∀ ix ∈ fts, FtsIndex.Marked db ix) :
    InLine { s with db, fts } where
  dir_once := hs.dir_once.later hlater
  dir_marked := hs.dir_marked.later hlater
  fts_exact := hexact
  fts_marked := hmarked
  closed := fun hclosed => absurd (hopen.symm.trans hclosed) (by decide)

theorem inRam_atMostOnce (s : Store) : s.AtMostOnce FtsIndex.inRam.ids :=
  ⟨nofun, fun _ _ => zero_le_one⟩

theorem inRam_marked (s : Store) : FtsIndex.Marked s FtsIndex.inRam :=
  ⟨s.docs.seq_nonneg, fun d hd hle => absurd hle (not_le.mpr (s.docs.id_pos d hd))⟩

theorem inRam_freshAbove (s : Store) : FtsIndex.FreshAbove s FtsIndex.inRam := fun _ _ _ => nofun

/-- An index in memory has each row once after catching up. -/
theorem inRam_catchUp_exactlyOnce (s : Store) :
    s.ExactlyOnce (FtsIndex.inRam.catchUp s).ids :=
  FtsIndex.catchUp_exactlyOnce (inRam_atMostOnce s) (inRam_marked s) (inRam_freshAbove s)

/-- An open keeps the store in line, if the directory has no row above its mark. -/
theorem InLine.openStore {s : TantivyStore} (hs : s.InLine) {ram : Bool}
    (hfresh : ram = false → FtsIndex.FreshAbove s.db s.dir) :
    (s.initTantivyWarmStart ram).InLine := by
  obtain ⟨hexact, hmarked⟩ : s.db.ExactlyOnce
      ((if ram then FtsIndex.inRam else s.dir).catchUp s.db).ids ∧
      FtsIndex.Marked s.db ((if ram then FtsIndex.inRam else s.dir).catchUp s.db) := by
    cases ram with
    | true =>
      have hexact := inRam_catchUp_exactlyOnce s.db
      exact ⟨hexact, FtsIndex.catchUp_marked hexact (inRam_marked s.db).last_le⟩
    | false =>
      have hexact := FtsIndex.catchUp_exactlyOnce hs.dir_once hs.dir_marked (hfresh rfl)
      exact ⟨hexact, FtsIndex.catchUp_marked hexact hs.dir_marked.last_le⟩
  exact
    { dir_once := hs.dir_once
      dir_marked := hs.dir_marked
      fts_exact := by
        rintro _ ⟨⟩
        exact hexact
      fts_marked := by
        rintro _ ⟨⟩
        exact hmarked
      closed := nofun }

/-- A put keeps it in line. -/
theorem InLine.put {s : TantivyStore} (hs : s.InLine) (hopen : s.isOpen = true) (now : ℤ)
    (req : PutRequest) : (s.put now req).InLine := by
  rw [TantivyStore.put]
  split
  next => exact hs
  next db id hok =>
    rcases Store.findOrInsert_ok (Store.putInner_ok.mp hok).2 with ⟨d, hd, rfl, -⟩ | hnew
    · rw [hd]
      exact hs
    · rw [hnew.fresh]
      have hexact : ∀ ix ∈ s.fts, db.ExactlyOnce
          (ix.add id (FtsIndex.combined req.title req.text)).commit.ids := by
        intro ix hix
        rw [FtsIndex.ids_commit, FtsIndex.ids_add]
        exact (hs.fts_exact ix hix).inserted hnew
      apply hs.follow hopen hnew.rowsLater
      · intro ix' hix'
        obtain ⟨ix, hix, rfl⟩ := Option.map_eq_some_iff.mp hix'
        exact hexact ix hix
      · intro ix' hix'
        obtain ⟨ix, hix, rfl⟩ := Option.map_eq_some_iff.mp hix'
        apply FtsIndex.Marked.of_committed rfl (hexact ix hix)
        exact (hs.fts_marked ix hix).last_le.trans hnew.rowsLater.seq_le

/-- The ids of a batch, with the requests they belong to. -/
theorem docId_mirrorEntries {s s' : Store} {reqs : List (ℤ × PutRequest)} {ids : List ℤ}
    (h : s.putBatch reqs = .ok (s', ids)) :
    (List.zipWith mirrorEntry ids reqs).map FtsEntry.docId = ids := by
  induction reqs generalizing s ids with
  | nil =>
    cases h
    rfl
  | cons r rest ih =>
    obtain ⟨t, id, ids', rfl, -, hrest⟩ := Store.putBatch_cons h
    rw [List.zipWith_cons_cons, List.map_cons, ih hrest]
    rfl

/-- The marks of an index that only waits for more are as right as before. -/
theorem marked_addAll {s t : Store} {ix : FtsIndex} {entries : List FtsEntry}
    (h : FtsIndex.Marked s ix) (hlater : s.RowsLater t) :
    FtsIndex.Marked t (ix.addAll entries) := by
  rw [FtsIndex.addAll_eq]
  exact ⟨(h.later hlater).last_le, (h.later hlater).committed⟩

/-- A batch keeps it in line, if its texts are new and not repeated. -/
theorem InLine.putBatch {s : TantivyStore} (hs : s.InLine) (hopen : s.isOpen = true)
    {reqs : List (ℤ × PutRequest)} (hnew : s.AddsOnce (.putBatch reqs)) :
    (s.putBatch reqs).InLine := by
  rw [TantivyStore.putBatch]
  split
  next => exact hs
  next db ids hok =>
    apply hs.follow hopen (Store.putBatch_rowsLater hok)
    · intro ix' hix'
      obtain ⟨ix, hix, rfl⟩ := Option.map_eq_some_iff.mp hix'
      rw [FtsIndex.ids_addAll, docId_mirrorEntries hok]
      apply (Store.exactlyOnce_batch_iff (hs.fts_exact ix hix) hok).1
      exact hnew (Option.isSome_iff_exists.mpr ⟨ix, hix⟩) ⟨_, hok⟩
    · intro ix' hix'
      obtain ⟨ix, hix, rfl⟩ := Option.map_eq_some_iff.mp hix'
      exact marked_addAll (hs.fts_marked ix hix) (Store.putBatch_rowsLater hok)

/-- A delete keeps it in line. -/
theorem InLine.delete [Store.Tokenizer] {s : TantivyStore} (hs : s.InLine)
    (hopen : s.isOpen = true) (id : ℤ) :
    InLine { s with db := s.db.after (s.db.delete id) } := by
  cases hdelete : s.db.delete id with
  | error e => exact hs
  | ok r =>
    obtain ⟨db, found⟩ := r
    obtain rfl := Store.delete_ok hdelete
    apply hs.follow hopen (s.db.removed_rowsLater id)
    · exact fun ix hix => (hs.fts_exact ix hix).removed id
    · exact fun ix hix => (hs.fts_marked ix hix).later (s.db.removed_rowsLater id)

/-! ## A search -/

theorem maxId_le (db : Store) : maxId db ≤ db.docs.seq := by
  rw [maxId]
  cases hmax : (db.docs.rows.map Doc.id).max? with
  | none => exact db.docs.seq_nonneg
  | some m =>
    obtain ⟨d, hd, rfl⟩ := List.mem_map.mp (List.max?_mem hmax)
    exact db.docs.le_seq d hd

theorem ids_refresh (ix : FtsIndex) (db : Store) : (refresh ix db).ids = ix.ids := by
  rw [refresh]
  split
  next => rw [FtsIndex.ids_setLastIndexedDocId, FtsIndex.ids_commit]
  next => exact FtsIndex.ids_commit ix

theorem pending_refresh (ix : FtsIndex) (db : Store) : (refresh ix db).pending = [] := by
  rw [refresh]
  split
  next => exact FtsIndex.pending_setLastIndexedDocId _ _
  next => rfl

/-- A refresh sets the mark right. -/
theorem refresh_marked {ix : FtsIndex} {db : Store} (hexact : db.ExactlyOnce ix.ids)
    (hle : ix.lastIndexedDocId ≤ db.docs.seq) : FtsIndex.Marked db (refresh ix db) := by
  apply FtsIndex.Marked.of_committed (pending_refresh ix db)
  · rw [ids_refresh]
    exact hexact
  · rw [refresh]
    split
    next => exact FtsIndex.lastIndexedDocId_set_le hle (maxId_le db)
    next => exact hle

/-- The index that a search uses, before its commit. -/
theorem InLine.searched {s : TantivyStore} (hs : s.InLine) :
    s.db.ExactlyOnce (s.fts.getD (FtsIndex.inRam.catchUp s.db)).ids ∧
      (s.fts.getD (FtsIndex.inRam.catchUp s.db)).lastIndexedDocId ≤ s.db.docs.seq := by
  cases hfts : s.fts with
  | some ix => exact ⟨hs.fts_exact ix hfts, (hs.fts_marked ix hfts).last_le⟩
  | none =>
    refine ⟨inRam_catchUp_exactlyOnce s.db, ?_⟩
    exact FtsIndex.lastIndexedDocId_catchUp_le (inRam_marked s.db).last_le

/-- A search keeps the store in line. -/
theorem InLine.searchLex [Tantivy] {s : TantivyStore} (hs : s.InLine) (hopen : s.isOpen = true)
    (q : Text) (limit : ℕ) : (s.searchLex q limit).1.InLine := by
  rw [TantivyStore.searchLex]
  split
  next => exact hs
  next =>
    obtain ⟨hexact, hle⟩ := hs.searched
    apply hs.follow hopen (Store.Later.refl s.db)
    · rintro _ ⟨⟩
      rw [ids_refresh]
      exact hexact
    · rintro _ ⟨⟩
      exact refresh_marked hexact hle

/-- After a search that reached it, the index has every document once, and committed. -/
theorem InLine.foundOnce [Tantivy] {s : TantivyStore} (hs : s.InLine) {q : Text}
    (hq : (Search.fts5MatchQuery q).isSome) (limit : ℕ) : (s.searchLex q limit).1.FoundOnce := by
  obtain ⟨query, hquery⟩ := Option.isSome_iff_exists.mp hq
  rw [TantivyStore.searchLex, hquery]
  refine ⟨_, rfl, fun d hd => ?_⟩
  rw [← FtsIndex.ids_of_pending (pending_refresh _ _), ids_refresh]
  exact hs.searched.1.count_eq hd

theorem InLine.close {s : TantivyStore} (hs : s.InLine) : s.close.InLine := by
  have hdir : s.db.AtMostOnce s.close.dir.ids ∧ FtsIndex.Marked s.db s.close.dir := by
    rw [TantivyStore.close]
    cases hfts : s.fts.filter FtsIndex.persistent with
    | none => exact ⟨hs.dir_once, hs.dir_marked⟩
    | some ix =>
      have hix : ix ∈ s.fts := (Option.filter_eq_some_iff.mp hfts).1
      have hmarked := hs.fts_marked ix hix
      exact ⟨(hs.fts_exact ix hix).toAtMostOnce.sublist ix.ids_onDisk_sublist,
        hmarked.last_le, hmarked.committed⟩
  exact
    { dir_once := hdir.1
      dir_marked := hdir.2
      fts_exact := nofun
      fts_marked := nofun
      closed := fun _ => rfl }

/-! ## Runs -/

/-- What one step preserves. -/
theorem InLine.step [Store.Tokenizer] [Tantivy] {s s' : TantivyStore} {a : TantivyAction}
    (hs : s.InLine)
    (hcond : s.AddsOnce a) (h : s.step a = some s') : s'.InLine := by
  unfold TantivyStore.step at h
  split at h
  next ram hclosed =>
    cases h
    exact hs.openStore (hcond hclosed)
  next hclosed =>
    cases h
    exact ⟨hs.dir_once, hs.dir_marked, hs.fts_exact, hs.fts_marked, fun _ => hs.closed hclosed⟩
  next now req hopen =>
    cases h
    exact hs.put hopen now req
  next reqs hopen =>
    cases h
    exact hs.putBatch hopen hcond
  next id hopen =>
    cases h
    exact hs.delete hopen id
  next q limit hopen =>
    cases h
    exact hs.searchLex hopen q limit
  next =>
    cases h
    exact hs.close
  next => cases h

/-- A batch that keeps each document once has brought new texts only. -/
theorem InLine.newTexts [Store.Tokenizer] [Tantivy] {s : TantivyStore}
    {reqs : List (ℤ × PutRequest)} (hs : s.InLine)
    (hmirrors : s.Mirrors (.putBatch reqs)) : s.AddsOnce (.putBatch reqs) := by
  rintro hfts ⟨⟨db, ids⟩, hok⟩
  obtain ⟨ix, hix⟩ := Option.isSome_iff_exists.mp hfts
  have hopen : s.isOpen = true := by
    by_contra hclosed
    rw [hs.closed (eq_false_of_ne_true hclosed)] at hix
    cases hix
  have hstep : s.step (.putBatch reqs) = some (s.putBatch reqs) := by
    unfold TantivyStore.step
    rw [hopen]
  have hbatch : s.putBatch reqs =
      { s with db, fts := some (ix.addAll (List.zipWith mirrorEntry ids reqs)) } := by
    rw [TantivyStore.putBatch, hok]
    simp only [mirrorBatchToTantivy, hix, Option.map_some]
  have honce := (hmirrors _ hstep).1
  rw [hbatch] at honce
  have hids := honce (ix.addAll (List.zipWith mirrorEntry ids reqs)) (by simp [index, hopen])
  rw [FtsIndex.ids_addAll, docId_mirrorEntries hok] at hids
  exact (Store.exactlyOnce_batch_iff (hs.fts_exact ix hix) hok).2 hids

/-- An open that keeps each document once has found none above the mark in the directory. -/
theorem InLine.freshAbove [Store.Tokenizer] [Tantivy] {s : TantivyStore} {ram : Bool}
    (hmirrors : s.Mirrors (.openStore ram)) : s.AddsOnce (.openStore ram) := by
  rintro hclosed rfl
  have hstep : s.step (.openStore false) = some (s.initTantivyWarmStart false) := by
    unfold TantivyStore.step
    rw [hclosed]
  exact FtsIndex.freshAbove_of_catchUp ((hmirrors _ hstep).1 (s.dir.catchUp s.db) rfl)

theorem searchLex_of_step [Store.Tokenizer] [Tantivy] {s s' : TantivyStore} {q : Text} {limit : ℕ}
    (h : s.step (.searchLex q limit) = some s') : s' = (s.searchLex q limit).1 := by
  unfold TantivyStore.step at h
  cases hopen : s.isOpen with
  | false =>
    rw [hopen] at h
    cases h
  | true =>
    rw [hopen] at h
    exact (Option.some.inj h).symm

/-- The condition of a step is exact. -/
theorem addsOnce_iff [Store.Tokenizer] [Tantivy] {s : TantivyStore} {a : TantivyAction}
    (hs : s.InLine) :
    s.AddsOnce a ↔ s.Mirrors a := by
  refine ⟨?_, ?_⟩
  · intro hcond s' hs'
    refine ⟨(hs.step hcond hs').neverTwice, fun hrefresh => ?_⟩
    cases a with
    | searchLex q limit =>
      obtain rfl := searchLex_of_step hs'
      exact hs.foundOnce hrefresh limit
    | _ => cases hrefresh
  · intro hmirrors
    cases a with
    | putBatch reqs => exact hs.newTexts hmirrors
    | openStore ram => exact InLine.freshAbove hmirrors
    | _ => trivial

/-- In every run of opens, puts, batches, deletions, searches and closes, no document is ever in
the index twice and each one is found once after a search, exactly if every batch that goes through
brings new texts only, and every open of the directory finds no document above its mark in it. -/
theorem mirrored_iff [Store.Tokenizer] [Tantivy] (as : List TantivyAction) :
    Meets step Mirrors new as ↔ Meets step AddsOnce new as :=
  (Meets.congr_while InLine (fun _ _ _ hs hcond h => hs.step hcond h)
    (fun _ _ hs => addsOnce_iff hs) inLine_new).symm

end TantivyStore

/-- A document is put, and the store is closed. -/
def putAndClose : List TantivyAction :=
  [.openStore false, .put 0 ⟨none, none, "a", none, none⟩, .close]

/-- The put has not moved the mark, so the next open adds the document again. -/
theorem putAndClose_twice :
    let _ := Blake3.identity
    let _ := Store.Tokenizer.blanks
    let _ := Tantivy.scan
    ¬Meets TantivyStore.step TantivyStore.Mirrors TantivyStore.new
      (putAndClose ++ [.openStore false]) ∧
    (run TantivyStore.step TantivyStore.new (putAndClose ++ [.openStore false])).map
      (fun s => (s.db.docs.rows.map Doc.id, s.index.map FtsIndex.ids)) =
      some ([1], some [1, 1]) := by
  intro _ _ _
  have hends : (run TantivyStore.step TantivyStore.new (putAndClose ++ [.openStore false])).map
      (fun s => (s.db.docs.rows.map Doc.id, s.index.map FtsIndex.ids)) =
      some ([1], some [1, 1]) := by
    decide +kernel
  refine ⟨fun hmeets => ?_, hends⟩
  obtain ⟨s', hrun, hs'⟩ := Option.map_eq_some_iff.mp hends
  obtain ⟨s, hopen, hmirrors⟩ := hmeets.last hrun
  obtain ⟨hdocs, hids⟩ := Prod.mk.inj hs'
  obtain ⟨ix, hix, hids⟩ := Option.map_eq_some_iff.mp hids
  obtain ⟨d, hd, hid⟩ : ∃ d ∈ s'.db.docs.rows, d.id = 1 := by
    rw [← List.mem_map, hdocs]
    exact List.mem_cons_self
  have honce := (hmirrors s' hopen).1 ix hix d hd
  rw [hids, hid] at honce
  exact absurd honce (by decide)

end SynapseMemory
