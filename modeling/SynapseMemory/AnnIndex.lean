import SynapseMemory.Store
import SynapseMemory.Transition

/-!
# The index of the vectors

With the feature `ann-usearch` a store keeps an index of `docs_vec` in memory, and a file of it, the
sidecar, next to the database. A put or a deletion changes the index after the transaction on the
database. The file is written by a flush, and when the store is dropped; a crash loses what the
index was given since then.

A store that is opened loads the file. If the file has fewer keys than `docs_vec` has rows, the
newest rows are inserted, as many as there are too few keys. This finds all puts that were lost: ids
only grow, so what the file misses is newer than what it has (`Coherent.newer`). It does not find
deletions that were lost. Their keys stay in the index, and each of them is counted as a row that
need not be inserted. Nothing else goes wrong (`agree_after_open_iff`): the index has the ids of
`docs_vec` after an open exactly if every key of the file is still in `docs_vec`. The database
itself goes on as it does without an index (`run_db`).
-/

namespace SynapseMemory

open Proto Transition

/-- In a descending list, what is missing from a set of the oldest elements is at the front. -/
theorem mem_or_mem_take_of_newer {α : Type*} [LinearOrder α] {l : List α} {s : Finset α}
    (hsorted : l.Pairwise (· > ·)) (hsub : ∀ x ∈ s, x ∈ l)
    (hnewer : ∀ x ∈ l, x ∉ s → ∀ y ∈ s, y < x) :
    ∀ x ∈ l, x ∈ s ∨ x ∈ l.take (l.length - s.card) := by
  induction l with
  | nil => exact fun x hx => absurd hx List.not_mem_nil
  | cons a l ih =>
    obtain ⟨ha, hsorted⟩ := List.pairwise_cons.mp hsorted
    by_cases has : a ∈ s
    · -- the newest element is in the set, so nothing is missing
      intro x hx
      left
      rcases List.mem_cons.mp hx with rfl | hx'
      · exact has
      · by_contra hxs
        exact absurd (hnewer x hx hxs a has) (not_lt.mpr (le_of_lt (ha x hx')))
    · have hsub' : ∀ x ∈ s, x ∈ l := by
        intro x hx
        rcases List.mem_cons.mp (hsub x hx) with rfl | hxl
        · exact absurd hx has
        · exact hxl
      have hcard : s.card ≤ l.length :=
        (Finset.card_le_card fun x hx => List.mem_toFinset.mpr (hsub' x hx)).trans
          (List.toFinset_card_le l)
      rw [List.length_cons, Nat.sub_add_comm hcard, List.take_succ_cons]
      intro x hx
      rcases List.mem_cons.mp hx with rfl | hx'
      · exact .inr List.mem_cons_self
      · have hnewer' : ∀ y ∈ l, y ∉ s → ∀ z ∈ s, z < y :=
          fun y hy => hnewer y (List.mem_cons_of_mem a hy)
        exact (ih hsorted hsub' hnewer' x hx').imp id (List.mem_cons_of_mem a)

/-! ## The index -/

/-- Why the index refuses a vector. -/
inductive AnnError where
  | dimMismatch (expected actual : ℕ)
  /-- usearch has the key already. -/
  | duplicate (id : ℤ)
  deriving DecidableEq

/-- The keys of an index. -/
structure Ann where
  keys : Finset ℤ
  deriving DecidableEq

namespace Ann

/-- The number of keys. -/
def len (ann : Ann) : ℕ := ann.keys.card

/-- A vector is inserted if it has the right length and its key is new. -/
def insert (ann : Ann) (id : ℤ) (v : List F32) : Except AnnError Ann :=
  if v.length ≠ Store.embedDim then .error (.dimMismatch Store.embedDim v.length)
  else if id ∈ ann.keys then .error (.duplicate id)
  else .ok ⟨ann.keys ∪ {id}⟩

/-- Insert a key, and say whether it is a new one. -/
def insertOrSkip (ann : Ann) (id : ℤ) (v : List F32) : Except AnnError (Ann × Bool) :=
  match ann.insert id v with
  | .ok ann => .ok (ann, true)
  | .error (.duplicate _) => .ok (ann, false)
  | .error e => .error e

/-- A key is removed, if it is there. -/
def remove (ann : Ann) (id : ℤ) : Ann := ⟨ann.keys.erase id⟩

/-- The index of the sidecar, or a new one. -/
def openOrEmpty (sidecar : Option Ann) : Ann := sidecar.getD ⟨∅⟩

/-- What `put_inner` does with a new document: an error is logged. -/
def mirror (ann : Ann) (id : ℤ) : Option (List F32) → Ann
  | none => ann
  | some e =>
    match ann.insert id e with
    | .ok ann => ann
    | .error _ => ann

/-- What `put_batch` does with one of its documents. -/
def mirrorRow (ann : Ann) (id : ℤ) (emb : Option (List F32)) (inserted : Bool) : Ann :=
  if !inserted then ann
  else
    match emb with
    | none => ann
    | some e =>
      match ann.insertOrSkip id e with
      | .ok (ann, _) => ann
      | .error _ => ann

/-- `mirror_batch`: the rows of a batch are mirrored one after the other. -/
def mirrorBatch (ann : Ann) (rows : List ((ℤ × PutRequest) × ℤ × Bool)) : Ann :=
  rows.foldl (fun ann row => ann.mirrorRow row.2.1 row.1.2.embedding row.2.2) ann

theorem insert_of_mem {ann : Ann} {id : ℤ} {v : List F32} (hlen : v.length = Store.embedDim)
    (hid : id ∈ ann.keys) : ann.insert id v = .error (.duplicate id) := by
  rw [insert, if_neg (not_not.mpr hlen), if_pos hid]

theorem insert_of_notMem {ann : Ann} {id : ℤ} {v : List F32} (hlen : v.length = Store.embedDim)
    (hid : id ∉ ann.keys) : ann.insert id v = .ok ⟨ann.keys ∪ {id}⟩ := by
  rw [insert, if_neg (not_not.mpr hlen), if_neg hid]

theorem union_singleton_of_mem {ann : Ann} {id : ℤ} (hid : id ∈ ann.keys) :
    ann.keys = ann.keys ∪ {id} :=
  (Finset.union_eq_left.mpr (Finset.singleton_subset_iff.mpr hid)).symm

/-- Adding or skipping a vector leaves its key in the index. -/
theorem insertOrSkip_ok (ann : Ann) (id : ℤ) {v : List F32} (hlen : v.length = Store.embedDim) :
    ∃ ann' new, ann.insertOrSkip id v = .ok (ann', new) ∧ ann'.keys = ann.keys ∪ {id} := by
  by_cases hid : id ∈ ann.keys
  · refine ⟨ann, false, ?_, union_singleton_of_mem hid⟩
    rw [insertOrSkip, insert_of_mem hlen hid]
  · refine ⟨⟨ann.keys ∪ {id}⟩, true, ?_, rfl⟩
    rw [insertOrSkip, insert_of_notMem hlen hid]

end Ann

theorem Store.checkLength_ok {emb : Option (List F32)} (h : Store.checkLength emb = .ok ())
    {e : List F32} (he : emb = some e) : e.length = Store.embedDim := by
  subst he
  by_contra hne
  rw [Store.checkLength, if_pos hne] at h
  cases h

/-- The ids that a request adds to `docs_vec` under an id. -/
def PutRequest.vecIds (req : PutRequest) (id : ℤ) : Finset ℤ :=
  if req.embedding.isSome then {id} else ∅

namespace Ann

/-- The mirror of a put has the key of the new vector. -/
theorem mirror_keys {ann : Ann} {id : ℤ} {req : PutRequest}
    (hlen : Store.checkLength req.embedding = .ok ()) :
    (ann.mirror id req.embedding).keys = ann.keys ∪ req.vecIds id := by
  rw [PutRequest.vecIds]
  cases hemb : req.embedding with
  | none => exact (Finset.union_empty _).symm
  | some e =>
    have hdim := Store.checkLength_ok hlen hemb
    by_cases hid : id ∈ ann.keys
    · rw [mirror, insert_of_mem hdim hid]
      exact union_singleton_of_mem hid
    · rw [mirror, insert_of_notMem hdim hid]
      rfl

/-- The mirror of a row of a batch has the key of its vector. -/
theorem mirrorRow_keys {ann : Ann} {id : ℤ} {req : PutRequest}
    (hlen : Store.checkLength req.embedding = .ok ()) :
    (ann.mirrorRow id req.embedding true).keys = ann.keys ∪ req.vecIds id := by
  rw [PutRequest.vecIds]
  cases hemb : req.embedding with
  | none => exact (Finset.union_empty _).symm
  | some e =>
    obtain ⟨ann', new, hins, hkeys⟩ := insertOrSkip_ok ann id (Store.checkLength_ok hlen hemb)
    rw [mirrorRow, hins]
    exact hkeys

end Ann

/-! ## The rows of `docs_vec` -/

namespace Store

/-- One row of the tail: one of another length is skipped. -/
def injectRow (ann : Ann) (v : ℤ × List F32) : Except AnnError Ann :=
  if v.2.length ≠ embedDim then .ok ann
  else do
    let (ann, _) ← ann.insertOrSkip v.1 v.2
    .ok ann

/-- The rows that are injected become keys, whatever was there. -/
theorem injectRows_keys {rows : List (ℤ × List F32)} (ann : Ann)
    (hdims : ∀ v ∈ rows, v.2.length = embedDim) :
    ∃ ann', rows.foldlM injectRow ann = .ok ann' ∧
      ann'.keys = ann.keys ∪ (rows.map Prod.fst).toFinset := by
  induction rows generalizing ann with
  | nil => exact ⟨ann, rfl, (Finset.union_empty _).symm⟩
  | cons v rows ih =>
    obtain ⟨hv, hrows⟩ := List.forall_mem_cons.mp hdims
    obtain ⟨ann', new, hins, hkeys⟩ := ann.insertOrSkip_ok v.1 hv
    have hrow : injectRow ann v = .ok ann' := by
      rw [injectRow, if_neg (not_not.mpr hv), hins]
      rfl
    obtain ⟨ann'', hfold, hkeys'⟩ := ih ann' hrows
    refine ⟨ann'', ?_, ?_⟩
    · rw [List.foldlM_cons, hrow]
      exact hfold
    · rw [hkeys', hkeys, List.map_cons, List.toFinset_cons, Finset.insert_eq, Finset.union_assoc]

variable [Blake3]

/-- The ids of the rows of `docs_vec`. -/
def vecIds (s : Store) : Finset ℤ := (s.vecs.map Prod.fst).toFinset

/-- The loop of `put_batch` with what it pushes to `ids` and `inserted_rows`. -/
def putBatchRows : Store → List (ℤ × PutRequest) → Except Error (Store × List (ℤ × Bool))
  | s, [] => .ok (s, [])
  | s, (now, req) :: rest => do
    checkLength req.embedding
    let (t, id) ← s.findOrInsert now req
    let (u, rows) ← putBatchRows t rest
    .ok (u, (id, (s.byText req.text).isNone) :: rows)

/-- The rows of a batch tell which documents are new. -/
theorem putBatch_eq_rows (s : Store) (reqs : List (ℤ × PutRequest)) :
    s.putBatch reqs = (s.putBatchRows reqs).map fun r => (r.1, r.2.map Prod.fst) := by
  induction reqs generalizing s with
  | nil => rfl
  | cons r rest ih =>
    obtain ⟨now, req⟩ := r
    rw [putBatch, putBatchRows]
    cases hlen : checkLength req.embedding with
    | error e => rfl
    | ok =>
      cases hrow : s.findOrInsert now req with
      | error e => rfl
      | ok t =>
        change (t.1.putBatch rest >>= _) = Except.map _ (t.1.putBatchRows rest >>= _)
        rw [ih]
        cases t.1.putBatchRows rest <;> rfl

/-- `ORDER BY id DESC` -/
def vecsDesc (s : Store) : List (ℤ × List F32) := s.vecs.mergeSort fun v w => decide (w.1 ≤ v.1)

/-- `rebuild_ann_tail`: the newest rows, as many as the index lacks, are injected. -/
def rebuildAnnTail (s : Store) (ann : Ann) (deficit : ℕ) : Except AnnError Ann :=
  (s.vecsDesc.take deficit).foldlM injectRow ann

/-- The rows of `docs_vec` have different ids and the length of the index. -/
structure VecsOk (s : Store) : Prop where
  nodup : (s.vecs.map Prod.fst).Nodup
  dims : ∀ v ∈ s.vecs, v.2.length = embedDim

theorem mem_vecIds {s : Store} {id : ℤ} : id ∈ s.vecIds ↔ ∃ v ∈ s.vecs, v.1 = id := by
  rw [vecIds, List.mem_toFinset, List.mem_map]

theorem vecIds_le {s : Store} {id : ℤ} (h : id ∈ s.vecIds) : id ≤ s.docs.seq := by
  obtain ⟨v, hv, rfl⟩ := mem_vecIds.mp h
  exact s.vecs_le v hv

/-- The vectors of a later state. -/
abbrev VecsLater : Store → Store → Prop := Later (fun s i => i ∈ s.vecIds) id

section Insert

variable {s s' : Store} {now id : ℤ} {req : PutRequest}

theorem Inserted.vecIds_eq (h : Inserted s now req s' id) :
    s'.vecIds = s.vecIds ∪ req.vecIds id := by
  rw [vecIds, h.vecs_eq, List.map_append, List.toFinset_append, PutRequest.vecIds]
  cases req.embedding <;> rfl

/-- The ids of new vectors are later than all others. -/
theorem Inserted.later (h : Inserted s now req s' id) : VecsLater s s' := by
  refine ⟨h.seq_eq ▸ Int.le_of_lt (Int.lt_succ _), fun i hi => ?_⟩
  rw [h.vecIds_eq, Finset.mem_union, PutRequest.vecIds] at hi
  refine hi.imp_right fun hnew => ?_
  split at hnew
  next =>
    rw [Finset.mem_singleton.mp hnew, h.id_eq]
    exact Int.lt_succ _
  next => cases hnew

/-- The vectors stay as they must be when a document is inserted. -/
theorem Inserted.vecsOk (h : Inserted s now req s' id) (hlen : checkLength req.embedding = .ok ())
    (hs : s.VecsOk) : s'.VecsOk := by
  cases hemb : req.embedding with
  | none =>
    have hvecs : s'.vecs = s.vecs := by simp [h.vecs_eq, hemb]
    exact ⟨hvecs ▸ hs.nodup, hvecs ▸ hs.dims⟩
  | some e =>
    have hvecs : s'.vecs = s.vecs ++ [(id, e)] := by simp [h.vecs_eq, hemb]
    refine ⟨?_, ?_⟩
    · rw [hvecs, List.map_append, List.nodup_append]
      refine ⟨hs.nodup, List.nodup_singleton id, fun i hi j hj => ?_⟩
      obtain ⟨v, hv, rfl⟩ := List.mem_map.mp hi
      rw [List.mem_singleton.mp hj, h.id_eq]
      exact ne_of_lt (Int.lt_add_one_iff.mpr (s.vecs_le v hv))
    · intro v hv
      rw [hvecs] at hv
      rcases List.mem_append.mp hv with hv | hv
      · exact hs.dims v hv
      · obtain rfl := List.mem_singleton.mp hv
        exact checkLength_ok hlen hemb

end Insert

/-- A removed document takes its vector along. -/
theorem removed_vecIds (s : Store) (id : ℤ) : (s.removed id).vecIds = s.vecIds.erase id := by
  ext i
  rw [Finset.mem_erase, mem_vecIds, mem_vecIds]
  refine ⟨?_, ?_⟩
  · rintro ⟨v, hv, rfl⟩
    obtain ⟨hv, hne⟩ := List.mem_filter.mp hv
    exact ⟨of_decide_eq_true hne, v, hv, rfl⟩
  · rintro ⟨hne, v, hv, rfl⟩
    exact ⟨v, List.mem_filter.mpr ⟨hv, decide_eq_true hne⟩, rfl⟩

theorem removed_later (s : Store) (id : ℤ) : VecsLater s (s.removed id) := by
  refine ⟨le_refl _, fun i hi => .inl ?_⟩
  rw [removed_vecIds] at hi
  exact Finset.mem_of_mem_erase hi

theorem VecsOk.removed {s : Store} (hs : s.VecsOk) (id : ℤ) : (s.removed id).VecsOk :=
  ⟨hs.nodup.sublist (List.filter_sublist.map _), fun v hv => hs.dims v (List.mem_of_mem_filter hv)⟩

/-! ## The tail -/

theorem vecsDesc_perm (s : Store) : s.vecsDesc.Perm s.vecs := List.mergeSort_perm _ _

/-- From the last one down, the ids of the vectors fall. -/
theorem VecsOk.vecsDesc_sorted {s : Store} (hs : s.VecsOk) :
    (s.vecsDesc.map Prod.fst).Pairwise (· > ·) := by
  have hnodup : (s.vecsDesc.map Prod.fst).Nodup :=
    (s.vecsDesc_perm.map Prod.fst).nodup_iff.mpr hs.nodup
  have hsorted : (s.vecsDesc.map Prod.fst).Pairwise (· ≥ ·) := by
    rw [List.pairwise_map]
    have hle : s.vecsDesc.Pairwise fun v w => decide (w.1 ≤ v.1) = true := by
      apply List.pairwise_mergeSort
      · intro a b c hab hbc
        exact decide_eq_true ((of_decide_eq_true hbc).trans (of_decide_eq_true hab))
      · intro a b
        simpa using le_total b.1 a.1
    exact hle.imp of_decide_eq_true
  exact (hsorted.and hnodup).imp fun h => lt_of_le_of_ne h.1 h.2.symm

/-- A rebuild of the tail adds the keys of the last vectors. -/
theorem rebuildAnnTail_keys {s : Store} (hs : s.VecsOk) (ann : Ann) (n : ℕ) :
    ∃ ann', s.rebuildAnnTail ann n = .ok ann' ∧
      ann'.keys = ann.keys ∪ ((s.vecsDesc.map Prod.fst).take n).toFinset := by
  have hdims : ∀ v ∈ s.vecsDesc.take n, v.2.length = embedDim :=
    fun v hv => hs.dims v (s.vecsDesc_perm.mem_iff.mp (List.mem_of_mem_take hv))
  rw [← List.map_take]
  exact injectRows_keys ann hdims

/-- What the open adds to an index: all of `docs_vec`, if nothing is missing among the old ids. -/
theorem rebuildAnnTail_complete {s : Store} {ann : Ann} (hs : s.VecsOk)
    (hsub : ann.keys ⊆ s.vecIds) (hnewer : ∀ i ∈ s.vecIds, i ∉ ann.keys → ∀ j ∈ ann.keys, j < i) :
    ∃ ann', s.rebuildAnnTail ann (s.vecs.length - ann.len) = .ok ann' ∧ ann'.keys = s.vecIds := by
  have hmem : ∀ i, i ∈ s.vecsDesc.map Prod.fst ↔ i ∈ s.vecIds := by
    intro i
    rw [(s.vecsDesc_perm.map Prod.fst).mem_iff, vecIds, List.mem_toFinset]
  have hlength : (s.vecsDesc.map Prod.fst).length = s.vecs.length := by
    rw [List.length_map, s.vecsDesc_perm.length_eq]
  have htail := mem_or_mem_take_of_newer hs.vecsDesc_sorted
    (fun i hi => (hmem i).mpr (hsub hi)) fun i hi => hnewer i ((hmem i).mp hi)
  rw [hlength] at htail
  obtain ⟨ann', hok, hkeys⟩ := rebuildAnnTail_keys hs ann (s.vecs.length - ann.len)
  refine ⟨ann', hok, ?_⟩
  rw [hkeys]
  ext i
  rw [Finset.mem_union, List.mem_toFinset]
  refine ⟨?_, ?_⟩
  · rintro (hi | hi)
    · exact hsub hi
    · exact (hmem i).mp (List.mem_of_mem_take hi)
  · exact fun hi => htail i ((hmem i).mpr hi)

/-! ## A batch and the index -/

/-- The first row of a batch, and the rest of it. -/
theorem putBatchRows_cons {s s' : Store} {now : ℤ} {req : PutRequest}
    {rest : List (ℤ × PutRequest)} {rows : List (ℤ × Bool)}
    (h : s.putBatchRows ((now, req) :: rest) = .ok (s', rows)) :
    ∃ t id rows', rows = (id, (s.byText req.text).isNone) :: rows' ∧
      checkLength req.embedding = .ok () ∧ s.findOrInsert now req = .ok (t, id) ∧
      t.putBatchRows rest = .ok (s', rows') := by
  obtain ⟨⟨⟩, hlen, h⟩ := bind_eq_ok.mp h
  obtain ⟨⟨t, id⟩, ht, h⟩ := bind_eq_ok.mp h
  obtain ⟨⟨u, rows'⟩, hu, h⟩ := bind_eq_ok.mp h
  cases h
  exact ⟨t, id, rows', rfl, hlen, ht, hu⟩

/-- The index follows the rows that a batch has inserted. -/
theorem putBatchRows_mirror {s s' : Store} {ann : Ann} {reqs : List (ℤ × PutRequest)}
    {rows : List (ℤ × Bool)} (hs : s.VecsOk) (hann : ann.keys = s.vecIds)
    (h : s.putBatchRows reqs = .ok (s', rows)) :
    s'.VecsOk ∧ VecsLater s s' ∧ (ann.mirrorBatch (reqs.zip rows)).keys = s'.vecIds := by
  induction reqs generalizing s ann rows with
  | nil =>
    cases h
    exact ⟨hs, Later.refl _, hann⟩
  | cons r rest ih =>
    obtain ⟨now, req⟩ := r
    obtain ⟨t, id, rows', rfl, hlen, ht, hrest⟩ := putBatchRows_cons h
    rcases findOrInsert_ok ht with ⟨d, hd, rfl, rfl⟩ | hnew
    · rw [hd]
      exact ih hs hann hrest
    · rw [hnew.fresh]
      have hrow : (ann.mirrorRow id req.embedding true).keys = t.vecIds := by
        rw [Ann.mirrorRow_keys hlen, hann, hnew.vecIds_eq]
      obtain ⟨hok, hlater, hkeys⟩ := ih (hnew.vecsOk hlen hs) hrow hrest
      exact ⟨hok, hnew.later.trans hlater, hkeys⟩

end Store

/-! ## The store with its index -/

/-- The database, the sidecar, and the index of a store that is open. -/
structure AnnStore [Blake3] where
  db : Store
  sidecar : Option Ann
  ann : Option Ann

/-- What can happen to a store with an index. -/
inductive AnnAction where
  | put (now : ℤ) (req : PutRequest)
  | putBatch (reqs : List (ℤ × PutRequest))
  | delete (id : ℤ)
  /-- A flush, and whether the file could be written. -/
  | flushAnn (saved : Bool)
  /-- The end of the process. -/
  | crash
  /-- The store is dropped, which saves the index if it can. -/
  | drop (saved : Bool)
  | openStore

namespace AnnStore

variable [Blake3]

/-- Before the first open. -/
def new : AnnStore := ⟨Store.empty, none, none⟩

/-- `put`: a new row with a vector is inserted into the index too. -/
def put (s : AnnStore) (ann : Ann) (now : ℤ) (req : PutRequest) : AnnStore :=
  match s.db.putInner now req with
  | .error _ => s
  | .ok (db, id) =>
    -- a text that is there returns before the index is reached
    if (s.db.byText req.text).isSome then { s with db }
    else { s with db, ann := some (ann.mirror id req.embedding) }

/-- `put_batch`: all rows first, and the index after them. -/
def putBatch (s : AnnStore) (ann : Ann) (reqs : List (ℤ × PutRequest)) : AnnStore :=
  match s.db.putBatchRows reqs with
  | .error _ => s
  | .ok (db, rows) => { s with db, ann := some (ann.mirrorBatch (reqs.zip rows)) }

/-- `delete`: the row, and then its key. -/
def delete [Store.Tokenizer] (s : AnnStore) (ann : Ann) (id : ℤ) : AnnStore :=
  match s.db.delete id with
  | .error _ => s
  | .ok (db, _) => { s with db, ann := some (ann.remove id) }

/-- The index that an open loads and repairs. -/
def loadAnn (s : AnnStore) : Except AnnError Ann :=
  let ann := Ann.openOrEmpty s.sidecar
  let rowCount := s.db.vecs.length
  if ann.len < rowCount then s.db.rebuildAnnTail ann (rowCount - ann.len) else .ok ann

/-- One step. Without an open store only an open goes on. -/
def step [Store.Tokenizer] (s : AnnStore) : AnnAction → Option AnnStore
  | .put now req => s.ann.map fun ann => s.put ann now req
  | .putBatch reqs => s.ann.map fun ann => s.putBatch ann reqs
  | .delete id => s.ann.map fun ann => s.delete ann id
  | .flushAnn saved => s.ann.map fun ann => if saved then { s with sidecar := some ann } else s
  | .crash => some { s with ann := none }
  | .drop saved => s.ann.map fun ann =>
    { s with sidecar := if saved then some ann else s.sidecar, ann := none }
  | .openStore =>
    match s.ann with
    | some _ => none
    | none =>
      match s.loadAnn with
      | .ok ann => some { s with ann := some ann }
      | .error _ => none

/-- An open that goes through. -/
theorem openStore_of_step [Store.Tokenizer] {s s' : AnnStore} (h : s.step .openStore = some s') :
    ∃ ann, s.ann = none ∧ s.loadAnn = .ok ann ∧ s' = { s with ann := some ann } := by
  cases hann : s.ann with
  | some ann =>
    rw [step, hann] at h
    cases h
  | none =>
    rw [step, hann] at h
    cases hload : s.loadAnn with
    | error e =>
      rw [hload] at h
      cases h
    | ok ann =>
      rw [hload] at h
      cases h
      exact ⟨ann, rfl, rfl, rfl⟩

/-- What an action does to the database. -/
def dbOps : AnnAction → List Store.Op
  | .put now req => [.put now req]
  | .putBatch reqs => [.putBatch reqs]
  | .delete id => [.delete id]
  | _ => []

/-- The index has no part in what a put does to the database. -/
theorem put_db [Store.Tokenizer] (s : AnnStore) (ann : Ann) (now : ℤ) (req : PutRequest) :
    (s.put ann now req).db = s.db.apply (.put now req) := by
  rw [put, Store.apply, Store.put]
  cases s.db.putInner now req with
  | error e => rfl
  | ok r =>
    simp only
    split <;> rfl

theorem putBatch_db [Store.Tokenizer] (s : AnnStore) (ann : Ann) (reqs : List (ℤ × PutRequest)) :
    (s.putBatch ann reqs).db = s.db.apply (.putBatch reqs) := by
  rw [putBatch, Store.apply, Store.putBatch_eq_rows]
  cases s.db.putBatchRows reqs <;> rfl

theorem delete_db [Store.Tokenizer] (s : AnnStore) (ann : Ann) (id : ℤ) :
    (s.delete ann id).db = s.db.apply (.delete id) := by
  rw [delete, Store.apply]
  cases s.db.delete id <;> rfl

/-- The database goes on as it does without an index. -/
theorem run_db [Store.Tokenizer] {s s' : AnnStore} {as : List AnnAction}
    (hrun : run step s as = some s') :
    s'.db = (as.flatMap dbOps).foldl Store.apply s.db := by
  refine run_simulates AnnStore.db Store.apply dbOps (fun s a s' h => ?_) hrun
  cases a with
  | put now req =>
    obtain ⟨ann, -, rfl⟩ := Option.map_eq_some_iff.mp h
    exact s.put_db ann now req
  | putBatch reqs =>
    obtain ⟨ann, -, rfl⟩ := Option.map_eq_some_iff.mp h
    exact s.putBatch_db ann reqs
  | delete id =>
    obtain ⟨ann, -, rfl⟩ := Option.map_eq_some_iff.mp h
    exact s.delete_db ann id
  | flushAnn saved =>
    obtain ⟨ann, -, rfl⟩ := Option.map_eq_some_iff.mp h
    cases saved <;> rfl
  | crash =>
    cases h
    rfl
  | drop saved =>
    obtain ⟨ann, -, rfl⟩ := Option.map_eq_some_iff.mp h
    rfl
  | openStore =>
    obtain ⟨ann, -, -, rfl⟩ := openStore_of_step h
    rfl

/-- The keys that the next open loads. -/
def saved (s : AnnStore) : Finset ℤ := (Ann.openOrEmpty s.sidecar).keys

/-- The index and the table have the same ids. -/
def Agree (s : AnnStore) : Prop := ∀ ann ∈ s.ann, ann.keys = s.db.vecIds

/-- An open leaves the index and the table with the same ids. -/
def AgreesAfterOpen [Store.Tokenizer] (s : AnnStore) (a : AnnAction) : Prop :=
  a = .openStore → ∀ s' ∈ s.step a, s'.Agree

/-- An open finds no key in the sidecar whose row was deleted. -/
def SavedLive (s : AnnStore) (a : AnnAction) : Prop :=
  a = .openStore → s.ann = none → s.saved ⊆ s.db.vecIds

/-- What holds as long as no open has loaded a deleted key. -/
structure Coherent (s : AnnStore) : Prop where
  vecsOk : s.db.VecsOk
  agree : s.Agree
  saved_le : ∀ i ∈ s.saved, i ≤ s.db.docs.seq
  /-- What the sidecar misses is newer than what it has. -/
  newer : ∀ i ∈ s.db.vecIds, i ∉ s.saved → ∀ j ∈ s.saved, j < i

theorem coherent_new : Coherent new where
  vecsOk := ⟨List.nodup_nil, by simp [new, Store.empty]⟩
  agree := nofun
  saved_le := nofun
  newer := nofun

/-- A change of the database that the index follows. -/
theorem Coherent.follow {s : AnnStore} {db : Store} {ann : Option Ann} (hs : s.Coherent)
    (hvecs : db.VecsOk) (hlater : s.db.VecsLater db) (hann : ∀ a ∈ ann, a.keys = db.vecIds) :
    Coherent { s with db, ann } where
  vecsOk := hvecs
  agree := hann
  saved_le := fun i hi => (hs.saved_le i hi).trans hlater.seq_le
  newer := by
    intro i hi his j hj
    rcases hlater.old_or_new i hi with hold | hnew
    · exact hs.newer i hold his j hj
    · exact lt_of_le_of_lt (hs.saved_le j hj) hnew

/-- The sidecar is written from an index that has the ids of the table. -/
theorem Coherent.save {s : AnnStore} {ann : Ann} (hs : s.Coherent) (hann : s.ann = some ann) :
    Coherent { s with sidecar := some ann } where
  vecsOk := hs.vecsOk
  agree := hs.agree
  saved_le := by
    intro i hi
    change i ∈ ann.keys at hi
    rw [hs.agree ann hann] at hi
    exact Store.vecIds_le hi
  newer := by
    intro i hi hne
    change i ∉ ann.keys at hne
    rw [hs.agree ann hann] at hne
    exact absurd hi hne

/-- A put keeps the store coherent. -/
theorem Coherent.put {s : AnnStore} {ann : Ann} (hs : s.Coherent) (hann : s.ann = some ann)
    (now : ℤ) (req : PutRequest) : (s.put ann now req).Coherent := by
  rw [AnnStore.put]
  split
  next => exact hs
  next db id hok =>
    obtain ⟨hemb, hrow⟩ := Store.putInner_ok.mp hok
    rcases Store.findOrInsert_ok hrow with ⟨d, hd, rfl, -⟩ | hnew
    · rw [hd]
      exact hs
    · rw [hnew.fresh]
      have hlen := Store.checkLength_of_checkEmbedding hemb
      apply hs.follow (hnew.vecsOk hlen hs.vecsOk) hnew.later
      rintro _ ⟨⟩
      rw [Ann.mirror_keys hlen, hs.agree ann hann, hnew.vecIds_eq]

/-- A batch keeps it coherent. -/
theorem Coherent.putBatch {s : AnnStore} {ann : Ann} (hs : s.Coherent) (hann : s.ann = some ann)
    (reqs : List (ℤ × PutRequest)) : (s.putBatch ann reqs).Coherent := by
  rw [AnnStore.putBatch]
  split
  next => exact hs
  next db rows hok =>
    obtain ⟨hvecs, hlater, hkeys⟩ :=
      Store.putBatchRows_mirror hs.vecsOk (hs.agree ann hann) hok
    apply hs.follow hvecs hlater
    rintro _ ⟨⟩
    exact hkeys

/-- A delete keeps it coherent. -/
theorem Coherent.delete [Store.Tokenizer] {s : AnnStore} {ann : Ann} (hs : s.Coherent)
    (hann : s.ann = some ann) (id : ℤ) : (s.delete ann id).Coherent := by
  rw [AnnStore.delete]
  split
  next => exact hs
  next db found hok =>
    obtain rfl := Store.delete_ok hok
    apply hs.follow (hs.vecsOk.removed id) (s.db.removed_later id)
    rintro _ ⟨⟩
    rw [Store.removed_vecIds, ← hs.agree ann hann]
    rfl

/-- The store without its index. -/
theorem Coherent.closed {s : AnnStore} (hs : s.Coherent) : Coherent { s with ann := none } :=
  hs.follow hs.vecsOk (Store.Later.refl _) nofun

/-- An open whose sidecar has no deleted key finds every row. -/
theorem Coherent.loadAnn {s : AnnStore} (hs : s.Coherent) (hlive : s.saved ⊆ s.db.vecIds) :
    ∃ ann, s.loadAnn = .ok ann ∧ ann.keys = s.db.vecIds := by
  have hrows : s.db.vecIds.card = s.db.vecs.length := by
    rw [Store.vecIds, List.toFinset_card_of_nodup hs.vecsOk.nodup, List.length_map]
  rw [AnnStore.loadAnn]
  split
  next => exact Store.rebuildAnnTail_complete hs.vecsOk hlive hs.newer
  next hfull =>
    -- as many keys as rows, and each of them a row
    refine ⟨_, rfl, Finset.eq_of_subset_of_card_le hlive ?_⟩
    rw [hrows]
    exact not_lt.mp hfull

/-- An open keeps it coherent, if no key of the saved index has lost its vector. -/
theorem Coherent.openStore [Store.Tokenizer] {s : AnnStore} (hs : s.Coherent)
    (hann : s.ann = none) (hlive : s.saved ⊆ s.db.vecIds) :
    ∃ s', s.step .openStore = some s' ∧ s'.Coherent := by
  obtain ⟨ann, hload, hkeys⟩ := hs.loadAnn hlive
  refine ⟨{ s with ann := some ann }, ?_, ?_⟩
  · rw [step, hann, hload]
  · apply hs.follow hs.vecsOk (Store.Later.refl _)
    rintro _ ⟨⟩
    exact hkeys

/-- What one call preserves. -/
theorem Coherent.step [Store.Tokenizer] {s s' : AnnStore} {a : AnnAction} (hs : s.Coherent)
    (hlive : s.SavedLive a) (h : s.step a = some s') : s'.Coherent := by
  cases a with
  | put now req =>
    obtain ⟨ann, hann, rfl⟩ := Option.map_eq_some_iff.mp h
    exact hs.put hann now req
  | putBatch reqs =>
    obtain ⟨ann, hann, rfl⟩ := Option.map_eq_some_iff.mp h
    exact hs.putBatch hann reqs
  | delete id =>
    obtain ⟨ann, hann, rfl⟩ := Option.map_eq_some_iff.mp h
    exact hs.delete hann id
  | flushAnn saved =>
    obtain ⟨ann, hann, rfl⟩ := Option.map_eq_some_iff.mp h
    cases saved with
    | true => exact hs.save hann
    | false => exact hs
  | crash =>
    cases h
    exact hs.closed
  | drop saved =>
    obtain ⟨ann, hann, rfl⟩ := Option.map_eq_some_iff.mp h
    cases saved with
    | true => exact (hs.save hann).closed
    | false => exact hs.closed
  | openStore =>
    obtain ⟨-, hann, -, -⟩ := openStore_of_step h
    obtain ⟨t, ht, hcoh⟩ := hs.openStore hann (hlive rfl hann)
    obtain rfl := Option.some.inj (h.symm.trans ht)
    exact hcoh

/-- The keys of the sidecar are in the index after an open. -/
theorem saved_subset_of_load {s : AnnStore} {ann : Ann} (hs : s.Coherent)
    (h : s.loadAnn = .ok ann) : s.saved ⊆ ann.keys := by
  rw [AnnStore.loadAnn] at h
  split at h
  next =>
    obtain ⟨ann', hok, hkeys⟩ := Store.rebuildAnnTail_keys hs.vecsOk (Ann.openOrEmpty s.sidecar)
      (s.db.vecs.length - (Ann.openOrEmpty s.sidecar).len)
    obtain rfl := Except.ok.inj (h.symm.trans hok)
    rw [hkeys]
    exact Finset.subset_union_left
  next =>
    cases h
    exact Finset.Subset.refl _

/-- The condition of an open is exact. -/
theorem savedLive_iff [Store.Tokenizer] {s : AnnStore} {a : AnnAction} (hs : s.Coherent) :
    s.SavedLive a ↔ s.AgreesAfterOpen a := by
  refine ⟨?_, ?_⟩
  · rintro hlive rfl s' hs'
    exact (hs.step hlive hs').agree
  · rintro hagree rfl hann
    obtain ⟨ann, hload⟩ : ∃ ann, s.loadAnn = .ok ann := by
      rw [AnnStore.loadAnn]
      split
      next =>
        obtain ⟨ann, hok, -⟩ := Store.rebuildAnnTail_keys hs.vecsOk (Ann.openOrEmpty s.sidecar)
          (s.db.vecs.length - (Ann.openOrEmpty s.sidecar).len)
        exact ⟨ann, hok⟩
      next => exact ⟨_, rfl⟩
    have hstep : s.step .openStore = some { s with ann := some ann } := by
      rw [AnnStore.step, hann, hload]
    rw [← hagree rfl _ hstep ann rfl]
    exact saved_subset_of_load hs hload

/-- In every run of puts, batches, deletions, flushes, crashes, drops and opens, each open leaves
the ids of `docs_vec` in the index exactly if each open finds no deleted id in the sidecar. -/
theorem agree_after_open_iff [Store.Tokenizer] (as : List AnnAction) :
    Meets step AgreesAfterOpen new as ↔ Meets step SavedLive new as :=
  (Meets.congr_while Coherent (fun _ _ _ hs hlive h => hs.step hlive h)
    (fun _ _ hs => savedLive_iff hs) coherent_new).symm

end AnnStore

/-- A text with an embedding. -/
def embeddedText (text : String) : PutRequest :=
  ⟨none, none, text, none, some (List.replicate Store.embedDim 0)⟩

/-- Two vectors are saved, the second is deleted, a third is put, and the process ends. -/
def lostDeletion : List AnnAction :=
  [.openStore, .put 0 (embeddedText "a"), .put 1 (embeddedText "b"), .flushAnn true, .delete 2,
    .put 2 (embeddedText "c"), .crash]

/-- The deletion and the put that were lost cancel out in the count: after the open the index has
the second vector and not the third. -/
theorem lostDeletion_disagrees :
    let _ := Blake3.identity
    let _ := Store.Tokenizer.blanks
    ¬Meets AnnStore.step AnnStore.AgreesAfterOpen AnnStore.new (lostDeletion ++ [.openStore]) ∧
    (run AnnStore.step AnnStore.new (lostDeletion ++ [.openStore])).map
      (fun s => (s.ann, s.db.vecIds)) = some (some ⟨{1, 2}⟩, {1, 3}) := by
  intro _ _
  have hends : (run AnnStore.step AnnStore.new (lostDeletion ++ [.openStore])).map
      (fun s => (s.ann, s.db.vecIds)) = some (some ⟨{1, 2}⟩, {1, 3}) := by
    decide +kernel
  refine ⟨fun hmeets => ?_, hends⟩
  obtain ⟨s', hrun, hs'⟩ := Option.map_eq_some_iff.mp hends
  obtain ⟨s, hopen, hagrees⟩ := hmeets.last hrun
  obtain ⟨hann, hvecs⟩ := Prod.mk.inj hs'
  have hagree := hagrees rfl s' hopen _ hann
  rw [hvecs] at hagree
  exact absurd hagree (by decide)

end SynapseMemory
