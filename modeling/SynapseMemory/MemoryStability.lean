import SynapseMemory.Memories
import SynapseMemory.Transition

/-!
# Putting a text again

A document that is put again is found, and the put makes sure once more that the document has an
active raw memory. Where it has one, nothing changes. Where a promotion has given the row another
type, or where it was superseded, the put inserts a second row, and the state of the document's
memory is that of the new row from then on.

So the documents that can be put again without harm are those whose one active memory is still raw
(`steady_iff`). All documents of all states of a run are such exactly if no step takes that from one
of them: no promotion to a type other than raw, nothing superseded, and no batch that brings a new
text twice (`steady_along_iff`).
-/

namespace SynapseMemory

open Proto Transition

namespace MemoryStore

variable [Blake3]

/-! ## Active memories -/

/-- The tables belong together: every memory has its document, and every document a memory. -/
structure Sound (s : MemoryStore) : Prop where
  nodup : (s.memories.map Memory.id).Nodup
  doc_fk : ∀ m ∈ s.memories, ∃ d ∈ s.db.docs.rows, d.id = m.docId
  covered : ∀ d ∈ s.db.docs.rows, ∃ m ∈ s.memories, m.docId = d.id
  entity_null : ∀ m ∈ s.memories, m.entityId = none

/-- The one active memory of a document is raw. -/
def Settled (s : MemoryStore) (docId : ℤ) : Prop :=
  ∃ m, s.active docId = [m] ∧ m.memoryType = .raw

/-- Every document of the store is settled. -/
def AllSettled (s : MemoryStore) : Prop := ∀ d ∈ s.db.docs.rows, s.Settled d.id

theorem mem_active {s : MemoryStore} {docId : ℤ} {m : Memory} :
    m ∈ s.active docId ↔
      m ∈ s.memories ∧ m.docId = docId ∧ m.entityId = none ∧ m.supersededBy = none := by
  rw [active, List.mem_filter, Memory.isActiveFor]
  simp [and_assoc]

/-- A document whose one active memory is raw is not missing a raw memory. -/
theorem Settled.any_raw {s : MemoryStore} {docId : ℤ} (h : s.Settled docId) :
    s.memories.any (Memory.isRawFor docId) = true := by
  obtain ⟨m, hm, hraw⟩ := h
  have hmem : m ∈ s.active docId := hm ▸ List.mem_singleton_self m
  obtain ⟨hmem, hdoc, hentity, hsuper⟩ := mem_active.mp hmem
  exact List.any_eq_true.mpr ⟨m, hmem, Memory.isRawFor_iff.mpr ⟨hdoc, hentity, hsuper, hraw⟩⟩

theorem Settled.missingRaws_eq_nil {s : MemoryStore} {docIds : List ℤ}
    (h : ∀ i ∈ docIds, s.Settled i) : s.missingRaws docIds = [] := by
  rw [missingRaws, List.filter_eq_nil_iff]
  intro i hi
  simp [(h i hi).any_raw]

/-- Among new raw memories, those of a document are active. -/
theorem RawAdded.active_eq {s s' : MemoryStore} {docIds : List ℤ} (h : RawAdded s s' docIds)
    (docId : ℤ) : ∃ rows, s'.active docId = s.active docId ++ rows ∧
      rows.length = docIds.count docId ∧ ∀ m ∈ rows, m.memoryType = .raw := by
  obtain ⟨rows, hrows, hids, hraw⟩ := h.rows
  refine ⟨rows.filter (Memory.isActiveFor docId), ?_, ?_, ?_⟩
  · rw [active, hrows, List.filter_append]
    rfl
  · rw [← List.countP_eq_length_filter, ← hids, List.count, List.countP_map]
    apply List.countP_congr
    intro m hm
    obtain ⟨-, hentity, hsuper, -⟩ := Memory.isRawFor_iff.mp (hraw m hm)
    simp [Memory.isActiveFor, hentity, hsuper]
  · intro m hm
    exact (Memory.isRawFor_iff.mp (hraw m (List.mem_of_mem_filter hm))).2.2.2

theorem RawAdded.active_of_notMem {s s' : MemoryStore} {docIds : List ℤ} (h : RawAdded s s' docIds)
    {docId : ℤ} (hnot : docId ∉ docIds) : s'.active docId = s.active docId := by
  obtain ⟨rows, heq, hlen, -⟩ := h.active_eq docId
  rw [List.count_eq_zero_of_not_mem hnot, List.length_eq_zero_iff] at hlen
  rw [heq, hlen, List.append_nil]

/-- A document without an active memory is settled by one new raw memory, and not by more. -/
theorem RawAdded.settled_iff {s s' : MemoryStore} {docIds : List ℤ} (h : RawAdded s s' docIds)
    {docId : ℤ} (hnone : s.active docId = []) : s'.Settled docId ↔ docIds.count docId = 1 := by
  obtain ⟨rows, heq, hlen, hraw⟩ := h.active_eq docId
  rw [hnone, List.nil_append] at heq
  rw [Settled, heq, ← hlen, List.length_eq_one_iff]
  refine ⟨?_, ?_⟩
  · rintro ⟨m, hm, -⟩
    exact ⟨m, hm⟩
  · rintro ⟨m, hm⟩
    exact ⟨m, hm, hraw m (hm ▸ List.mem_singleton_self m)⟩

/-- Adding raw memories keeps the store sound. -/
theorem Sound.added {s s' : MemoryStore} {docIds : List ℤ} (h : RawAdded s s' docIds)
    (hnodup : (s.memories.map Memory.id).Nodup)
    (hfk : ∀ m ∈ s.memories, ∃ d ∈ s.db.docs.rows, d.id = m.docId)
    (hentity : ∀ m ∈ s.memories, m.entityId = none)
    (hdocs : ∀ i ∈ docIds, ∃ d ∈ s.db.docs.rows, d.id = i)
    (hcovered : ∀ d ∈ s.db.docs.rows, (∃ m ∈ s.memories, m.docId = d.id) ∨ d.id ∈ docIds) :
    s'.Sound := by
  obtain ⟨rows, hrows, hids, hraw⟩ := h.rows
  refine ⟨h.nodup hnodup, ?_, ?_, ?_⟩
  · rw [hrows, h.db_eq]
    refine List.forall_mem_append.mpr ⟨hfk, fun m hm => hdocs _ ?_⟩
    rw [← hids]
    exact List.mem_map_of_mem hm
  · rw [hrows, h.db_eq]
    intro d hd
    rcases hcovered d hd with ⟨m, hm, hdoc⟩ | hmem
    · exact ⟨m, List.mem_append_left _ hm, hdoc⟩
    · rw [← hids] at hmem
      obtain ⟨m, hm, hdoc⟩ := List.mem_map.mp hmem
      exact ⟨m, List.mem_append_right _ hm, hdoc⟩
  · rw [hrows]
    exact List.forall_mem_append.mpr ⟨hentity, fun m hm => (Memory.isRawFor_iff.mp (hraw m hm)).2.1⟩

/-! ## Putting again -/

/-- A state after the text of a document is put again, alone or in a batch. -/
def PutsAgain (s : MemoryStore) (d : Doc) (s' : MemoryStore) : Prop :=
  (∃ now ts req id, req.text = d.text ∧ s.put now ts req = .ok (s', id)) ∨
    ∃ ts reqs ids, (∀ r ∈ reqs, r.2.text = d.text) ∧ s.putBatch ts reqs = .ok (s', ids)

/-- A document can be put again: that leaves the state of its memory as it is, and it makes no new
active raw memory for one that was promoted or superseded. -/
structure SteadyAt (s : MemoryStore) (d : Doc) : Prop where
  state_eq : ∀ s', PutsAgain s d s' → s'.docMemoryState d.id = s.docMemoryState d.id
  no_fresh : (∃ m ∈ s.memories, m.docId = d.id ∧ (m.memoryType ≠ .raw ∨ m.supersededBy ≠ none)) →
    ∀ s', PutsAgain s d s' → ∀ m ∈ s'.memories, m.isRawFor d.id → m ∈ s.memories
  one_active : (s.active d.id).length ≤ 1

/-- Every document of the store is steady. -/
def Steady (s : MemoryStore) : Prop := ∀ d ∈ s.db.docs.rows, s.SteadyAt d

/-- Putting again adds a raw memory where there is none, and nothing else. -/
theorem PutsAgain.rawAdded {s s' : MemoryStore} {d : Doc} (hd : d ∈ s.db.docs.rows)
    (h : PutsAgain s d s') :
    ∃ ids, (∀ i ∈ ids, i = d.id) ∧ RawAdded s s' (s.missingRaws ids) := by
  rcases h with ⟨now, ts, req, id, htext, hput⟩ | ⟨ts, reqs, ids, htext, hput⟩
  · obtain ⟨db, hdb, hadded⟩ := put_ok hput
    obtain ⟨rfl, rfl⟩ := Store.findOrInsert_of_mem hd htext (Store.putInner_ok.mp hdb).2
    exact ⟨[d.id], fun i hi => List.mem_singleton.mp hi, hadded⟩
  · obtain ⟨db, hdb, hadded⟩ := putBatch_ok hput
    obtain ⟨rfl, hids⟩ := Store.putBatch_of_mem hd htext hdb
    exact ⟨ids, hids, hadded⟩

theorem RawAdded.eq_of_nil {s s' : MemoryStore} (h : RawAdded s s' []) : s' = s := by
  obtain ⟨rows, hrows, hids, -⟩ := h.rows
  rw [List.map_eq_nil_iff.mp hids, List.append_nil] at hrows
  cases s
  cases s'
  cases h.db_eq
  cases hrows
  rfl

/-- A settled document is steady. -/
theorem Settled.steadyAt {s : MemoryStore} {d : Doc} (hd : d ∈ s.db.docs.rows)
    (h : s.Settled d.id) : s.SteadyAt d := by
  have hsame : ∀ s', PutsAgain s d s' → s' = s := by
    intro s' hagain
    obtain ⟨ids, hids, hadded⟩ := hagain.rawAdded hd
    rw [Settled.missingRaws_eq_nil fun i hi => (hids i hi).symm ▸ h] at hadded
    exact hadded.eq_of_nil
  obtain ⟨m, hm, -⟩ := h
  refine ⟨?_, ?_, ?_⟩
  · intro s' hagain
    rw [hsame s' hagain]
  · intro _ s' hagain n hn _
    exact hsame s' hagain ▸ hn
  · rw [hm]
    exact le_refl 1

/-- The text of a document can always be put again. -/
theorem exists_putsAgain {s : MemoryStore} {d : Doc} (hd : d ∈ s.db.docs.rows) :
    ∃ s', PutsAgain s d s' ∧ RawAdded s s' (s.missingRaws [d.id]) := by
  have hfound : s.db.putInner 0 ⟨none, none, d.text, none, none⟩ = .ok (s.db, d.id) :=
    Store.putInner_ok.mpr ⟨rfl, Store.findOrInsert_of_some (Store.byText_of_mem hd)⟩
  obtain ⟨s', n, hok, hadded⟩ := s.ensureRawMemory_ok 0 ⟨d, hd, rfl⟩
  refine ⟨s', .inl ⟨0, 0, ⟨none, none, d.text, none, none⟩, d.id, rfl, ?_⟩, hadded⟩
  simp only [put, hfound, hok]

/-- In a sound store a steady document is settled. -/
theorem SteadyAt.settled {s : MemoryStore} (hs : s.Sound) {d : Doc} (hd : d ∈ s.db.docs.rows)
    (h : s.SteadyAt d) : s.Settled d.id := by
  by_cases hraw : s.memories.any (Memory.isRawFor d.id) = true
  · obtain ⟨m, hm, hisRaw⟩ := List.any_eq_true.mp hraw
    obtain ⟨hdoc, hentity, hsuper, htype⟩ := Memory.isRawFor_iff.mp hisRaw
    have hactive : m ∈ s.active d.id := mem_active.mpr ⟨hm, hdoc, hentity, hsuper⟩
    obtain ⟨n, hn⟩ := List.length_eq_one_iff.mp
      (le_antisymm h.one_active (List.length_pos_of_mem hactive))
    rw [hn] at hactive
    obtain rfl := List.mem_singleton.mp hactive
    exact ⟨m, hn, htype⟩
  · -- the document has a memory, so it was promoted or superseded, and it gets a raw one
    exfalso
    obtain ⟨m, hm, hdoc⟩ := hs.covered d hd
    have hchanged : m.memoryType ≠ .raw ∨ m.supersededBy ≠ none := by
      by_contra hnot
      obtain ⟨htype, hsuper⟩ := not_or.mp hnot
      apply hraw
      exact List.any_eq_true.mpr ⟨m, hm, Memory.isRawFor_iff.mpr
        ⟨hdoc, hs.entity_null m hm, not_not.mp hsuper, not_not.mp htype⟩⟩
    obtain ⟨s', hagain, hadded⟩ := exists_putsAgain hd
    have hmissing : s.missingRaws [d.id] = [d.id] := by
      simp [missingRaws, eq_false_of_ne_true hraw]
    rw [hmissing] at hadded
    obtain ⟨rows, hrows, hids, hisRaw⟩ := hadded.rows
    have hlen : rows.length = 1 := by simpa using congrArg List.length hids
    obtain ⟨n, rfl⟩ := List.length_eq_one_iff.mp hlen
    have hn : n ∈ s'.memories := by
      rw [hrows]
      exact List.mem_append_right _ List.mem_cons_self
    have hnd : n.docId = d.id := by simpa using hids
    have hnraw : n.isRawFor d.id = true := hnd ▸ hisRaw n List.mem_cons_self
    have hold := h.no_fresh ⟨m, hm, hdoc, hchanged⟩ s' hagain n hn hnraw
    exact hraw (List.any_eq_true.mpr ⟨n, hold, hnraw⟩)

/-- **What can be put again.** -/
theorem steady_iff {s : MemoryStore} (hs : s.Sound) : s.Steady ↔ s.AllSettled :=
  forall₂_congr fun _ hd => ⟨fun h => h.settled hs hd, fun h => h.steadyAt hd⟩

/-! ## Storing documents -/

/-- A text that is not stored comes once in the batch. -/
def NewTextsOnce (s : MemoryStore) (reqs : List (ℤ × PutRequest)) : Prop :=
  ∀ r ∈ reqs, s.db.byText r.2.text = none →
    (reqs.countP fun x => Blake3.hash x.2.text = Blake3.hash r.2.text) = 1

section Stored

variable {s s' : MemoryStore} {db : Store} {reqs : List (ℤ × PutRequest)} {ids : List ℤ}

/-- A document that was just stored has no memory yet. -/
theorem Sound.no_memory (hs : s.Sound) {docId : ℤ} (hnew : s.db.docs.seq < docId) :
    ∀ m ∈ s.memories, m.docId ≠ docId := by
  rintro m hm rfl
  obtain ⟨d, hd, hid⟩ := hs.doc_fk m hm
  have hle : d.id ≤ s.db.docs.seq := s.db.docs.le_seq d hd
  rw [hid] at hle
  exact absurd hle (not_le.mpr hnew)

theorem Sound.not_any_raw (hs : s.Sound) {docId : ℤ} (hnew : s.db.docs.seq < docId) :
    s.memories.any (Memory.isRawFor docId) = false := by
  rw [List.any_eq_false]
  intro m hm hraw
  exact hs.no_memory hnew m hm (Memory.isRawFor_iff.mp hraw).1

theorem Sound.active_of_new (hs : s.Sound) {docId : ℤ} (hnew : s.db.docs.seq < docId) :
    s.active docId = [] := by
  rw [active, List.filter_eq_nil_iff]
  intro m hm hactive
  have hmem : m ∈ s.active docId := List.mem_filter.mpr ⟨hm, hactive⟩
  exact hs.no_memory hnew m hm (mem_active.mp hmem).2.1

/-- A batch and its raw memories keep the tables together. -/
theorem Sound.stored (hs : s.Sound) (hbatch : s.db.putBatch reqs = .ok (db, ids))
    (hadded : RawAdded { s with db } s' (s.missingRaws ids)) : s'.Sound := by
  apply Sound.added hadded hs.nodup _ hs.entity_null
  · exact fun i hi => Store.exists_of_mem_putBatch hbatch i (List.mem_of_mem_filter hi)
  · intro d hd
    rcases (Store.putBatch_rowsLater hbatch).old_or_new d hd with hold | hnew
    · exact .inl (hs.covered d hold)
    · right
      rcases Store.putBatch_new_rows hbatch d hd with hold | ⟨r, hr, htext⟩
      · exact absurd (s.db.docs.le_seq d hold) (not_le.mpr hnew)
      · have hcount : 0 < ids.count d.id := by
          rw [Store.count_putBatch hbatch hd, List.countP_pos_iff]
          exact ⟨r, hr, by rw [htext]; simp⟩
        rw [missingRaws, List.mem_filter, hs.not_any_raw hnew]
        exact ⟨List.count_pos_iff.mp hcount, rfl⟩
  · intro m hm
    obtain ⟨d, hd, hid⟩ := hs.doc_fk m hm
    exact ⟨d, Store.putBatch_rows_mono hbatch hd, hid⟩

/-- A new document is settled exactly if its text came once. -/
theorem Sound.new_settled_iff (hs : s.Sound) (hbatch : s.db.putBatch reqs = .ok (db, ids))
    (hadded : RawAdded { s with db } s' (s.missingRaws ids)) {d : Doc} (hd : d ∈ db.docs.rows)
    (hnew : s.db.docs.seq < d.id) :
    s'.Settled d.id ↔ (reqs.countP fun r => Blake3.hash r.2.text = Blake3.hash d.text) = 1 := by
  rw [hadded.settled_iff (hs.active_of_new hnew), missingRaws, List.count_filter,
    Store.count_putBatch hbatch hd]
  rw [hs.not_any_raw hnew]
  rfl

/-- After a batch all documents are settled exactly if it brings no new text twice. -/
theorem Sound.stored_settled_iff (hs : s.Sound) (hall : s.AllSettled)
    (hbatch : s.db.putBatch reqs = .ok (db, ids))
    (hadded : RawAdded { s with db } s' (s.missingRaws ids)) :
    s'.AllSettled ↔ s.NewTextsOnce reqs := by
  have hlater := Store.putBatch_rowsLater hbatch
  rw [AllSettled, hadded.db_eq]
  refine ⟨?_, ?_⟩
  · intro hall' r hr hnone
    obtain ⟨d, hd, hkey⟩ := Store.exists_row_of_putBatch hbatch r hr
    have hnew : s.db.docs.seq < d.id := by
      refine (hlater.old_or_new d hd).resolve_left fun hold => ?_
      exact (Table.byKey_eq_none _).mp hnone d hold hkey
    rw [← hkey]
    exact (hs.new_settled_iff hbatch hadded hd hnew).mp (hall' d hd)
  · intro honce d hd
    rcases hlater.old_or_new d hd with hold | hnew
    · have hnot : d.id ∉ s.missingRaws ids := by
        intro hmem
        have hmissing := (List.mem_filter.mp hmem).2
        rw [(hall d hold).any_raw] at hmissing
        cases hmissing
      obtain ⟨m, hm, hraw⟩ := hall d hold
      exact ⟨m, (hadded.active_of_notMem hnot).trans hm, hraw⟩
    · rw [hs.new_settled_iff hbatch hadded hd hnew]
      rcases Store.putBatch_new_rows hbatch d hd with hold | ⟨r, hr, htext⟩
      · exact absurd (s.db.docs.le_seq d hold) (not_le.mpr hnew)
      · have hnone : s.db.byText r.2.text = none := by
          rw [htext]
          refine (Table.byKey_eq_none _).mpr fun e he heq => ?_
          have hsame := db.docs.eq_of_key (Store.putBatch_rows_mono hbatch he) hd heq
          rw [hsame] at he
          exact absurd (s.db.docs.le_seq d he) (not_le.mpr hnew)
        have hcount := honce r hr hnone
        rwa [htext] at hcount

end Stored

/-! ## Changing a memory -/

/-- A change that leaves the keys of a row keeps the tables together. -/
theorem Sound.modify {s : MemoryStore} (hs : s.Sound) (id : ℤ) {f : Memory → Memory}
    (hf : ∀ m, (f m).id = m.id ∧ (f m).docId = m.docId ∧ (f m).entityId = m.entityId) :
    (s.modify id f).Sound := by
  have hkeys : ∀ m, (if m.id = id then f m else m).id = m.id ∧
      (if m.id = id then f m else m).docId = m.docId ∧
      (if m.id = id then f m else m).entityId = m.entityId := by
    intro m
    split
    · exact hf m
    · exact ⟨rfl, rfl, rfl⟩
  refine ⟨?_, ?_, ?_, ?_⟩
  · rw [MemoryStore.modify, List.map_map]
    have hids : (Memory.id ∘ fun m => if m.id = id then f m else m) = Memory.id :=
      funext fun m => (hkeys m).1
    rw [hids]
    exact hs.nodup
  · intro m' hm'
    obtain ⟨m, hm, rfl⟩ := List.mem_map.mp hm'
    rw [(hkeys m).2.1]
    exact hs.doc_fk m hm
  · intro d hd
    obtain ⟨m, hm, hdoc⟩ := hs.covered d hd
    exact ⟨_, List.mem_map_of_mem hm, (hkeys m).2.1.trans hdoc⟩
  · intro m' hm'
    obtain ⟨m, hm, rfl⟩ := List.mem_map.mp hm'
    rw [(hkeys m).2.2]
    exact hs.entity_null m hm

/-- A change that does not touch what makes a row active. -/
theorem active_modify (s : MemoryStore) (id docId : ℤ) (f : Memory → Memory)
    (hf : ∀ m, (f m).isActiveFor docId = m.isActiveFor docId) :
    (s.modify id f).active docId =
      (s.active docId).map fun m => if m.id = id then f m else m := by
  rw [active, MemoryStore.modify, List.filter_map]
  congr 1
  apply List.filter_congr
  intro m _
  change Memory.isActiveFor docId (if m.id = id then f m else m) = _
  split
  · exact hf m
  · rfl

/-- A memory that is superseded is not active any more. -/
theorem active_supersede (s : MemoryStore) (ts id newId docId : ℤ) :
    (s.modify id fun m => { m with supersededBy := some newId, updatedTs := ts }).active docId =
      (s.active docId).filter fun m => m.id ≠ id := by
  rw [active, MemoryStore.modify, List.filter_map, active, List.filter_filter]
  have hfilter : (s.memories.filter (Memory.isActiveFor docId ∘ fun m =>
      if m.id = id then { m with supersededBy := some newId, updatedTs := ts } else m)) =
      s.memories.filter fun m => decide (m.id ≠ id) && m.isActiveFor docId := by
    apply List.filter_congr
    intro m _
    by_cases hid : m.id = id
    · simp [hid, Memory.isActiveFor]
    · simp [hid]
  rw [hfilter]
  refine (List.map_congr_left fun m hm => ?_).trans (List.map_id _)
  have hid : m.id ≠ id := of_decide_eq_true (Bool.and_eq_true_iff.mp (List.mem_filter.mp hm).2).1
  exact if_neg hid

/-! ## A memory is superseded -/

/-- What a supersession that goes through does. -/
theorem supersede_ok {s s' : MemoryStore} {ts oldId newId : ℤ}
    (h : s.supersede ts oldId newId = .ok s') :
    s.known newId ∧ s.known oldId ∧
      s' = s.modify oldId fun m => { m with supersededBy := some newId, updatedTs := ts } := by
  rw [supersede] at h
  split at h
  next hknown =>
    cases h
    obtain ⟨hnew, hold⟩ := Bool.and_eq_true_iff.mp hknown
    exact ⟨hnew, hold, rfl⟩
  next => cases h

theorem Sound.supersede {s s' : MemoryStore} (hs : s.Sound) {ts oldId newId : ℤ}
    (h : s.supersede ts oldId newId = .ok s') : s'.Sound := by
  obtain ⟨-, -, rfl⟩ := supersede_ok h
  exact hs.modify oldId fun _ => ⟨rfl, rfl, rfl⟩

/-- All documents stay settled exactly if the memory was not active. -/
theorem Sound.supersede_settled_iff {s s' : MemoryStore} (hs : s.Sound) (hall : s.AllSettled)
    {ts oldId newId : ℤ} (h : s.supersede ts oldId newId = .ok s') :
    s'.AllSettled ↔ ∀ m ∈ s.memories, m.id = oldId → m.supersededBy ≠ none := by
  obtain ⟨-, -, rfl⟩ := supersede_ok h
  refine ⟨?_, ?_⟩
  · rintro hall' m hm rfl hsuper
    obtain ⟨d, hd, hid⟩ := hs.doc_fk m hm
    obtain ⟨n, hn, -⟩ := hall d hd
    obtain ⟨n', hn', -⟩ := hall' d hd
    have hmem : m ∈ s.active d.id := mem_active.mpr ⟨hm, hid.symm, hs.entity_null m hm, hsuper⟩
    rw [hn] at hmem
    obtain rfl := List.mem_singleton.mp hmem
    rw [active_supersede, hn] at hn'
    simp at hn'
  · intro hnot d hd
    obtain ⟨m, hm, hraw⟩ := hall d hd
    have hmem : m ∈ s.active d.id := hm ▸ List.mem_singleton_self m
    obtain ⟨hmem, -, -, hsuper⟩ := mem_active.mp hmem
    refine ⟨m, ?_, hraw⟩
    have hid : m.id ≠ oldId := fun heq => hnot m hmem heq hsuper
    rw [active_supersede, hm]
    simp [hid]

/-! ## A promotion -/

section Promotion

variable {s s' : MemoryStore} {ts docId memoryId : ℤ} {memoryType : MemoryType}
  {confidence : F64} {eventDate : Option String}

/-- A new memory keeps the store sound, and its document is there. -/
theorem Sound.putMemoryWithDate (hs : s.Sound)
    (h : s.putMemoryWithDate ts docId memoryType confidence eventDate = .ok (s', memoryId)) :
    s'.Sound ∧ ∃ d ∈ s.db.docs.rows, d.id = docId := by
  rw [MemoryStore.putMemoryWithDate] at h
  split at h
  next hany =>
    cases h
    obtain ⟨d, hd, hid⟩ := List.any_eq_true.mp hany
    have hdoc : ∃ d ∈ s.db.docs.rows, d.id = docId := ⟨d, hd, of_decide_eq_true hid⟩
    refine ⟨⟨nodup_append_nextId rfl hs.nodup, ?_, ?_, ?_⟩, hdoc⟩
    · exact List.forall_mem_append.mpr ⟨hs.doc_fk, List.forall_mem_singleton.mpr hdoc⟩
    · intro d hd
      obtain ⟨m, hm, hid⟩ := hs.covered d hd
      exact ⟨m, List.mem_append_left _ hm, hid⟩
    · exact List.forall_mem_append.mpr ⟨hs.entity_null, List.forall_mem_singleton.mpr rfl⟩
  next => cases h

theorem Sound.promoteRow (hs : s.Sound)
    (h : s.promoteRow ts docId memoryType confidence eventDate = .ok (s', memoryId)) :
    s'.Sound := by
  rw [MemoryStore.promoteRow] at h
  split at h
  next m _ =>
    cases h
    exact hs.modify m.id fun _ => ⟨rfl, rfl, rfl⟩
  next => exact (hs.putMemoryWithDate h).1

/-- Where all documents are settled, the row of a promotion is that of a stored document. The others
keep their active memories. -/
theorem Sound.promoteRow_active (hs : s.Sound) (hall : s.AllSettled)
    (h : s.promoteRow ts docId memoryType confidence eventDate = .ok (s', memoryId)) :
    (∃ d ∈ s.db.docs.rows, d.id = docId) ∧
      (s'.Settled docId ↔ memoryType = .raw) ∧
      ∀ other, other ≠ docId → s'.active other = s.active other := by
  rw [MemoryStore.promoteRow] at h
  split at h
  next m hm =>
    cases h
    have hmem := mem_of_firstBy hm
    obtain ⟨hm, hdoc, -, -⟩ := mem_active.mp hmem
    obtain ⟨d, hd, hid⟩ := hs.doc_fk m hm
    rw [hdoc] at hid
    obtain ⟨n, hn, -⟩ := hid ▸ hall d hd
    rw [hn] at hmem
    obtain rfl := List.mem_singleton.mp hmem
    have hactive := fun docId => active_modify s m.id docId
      (fun m => { m with memoryType, confidence, eventDate, updatedTs := ts }) fun _ => rfl
    refine ⟨⟨d, hd, hid⟩, ?_, ?_⟩
    · rw [Settled, hactive, hn]
      simp
    · intro other hother
      rw [hactive]
      refine (List.map_congr_left fun n hn' => ?_).trans (List.map_id _)
      refine if_neg fun heq => hother ?_
      obtain ⟨hn', hdoc', -⟩ := mem_active.mp hn'
      rw [← hdoc', List.inj_on_of_nodup_map hs.nodup hn' hm heq, hdoc]
  next hnone =>
    obtain ⟨-, d, hd, rfl⟩ := hs.putMemoryWithDate h
    obtain ⟨n, hn, -⟩ := hall d hd
    rw [firstBy_eq_none hnone] at hn
    cases hn

/-- What superseding a document does, if it has an active memory. -/
theorem supersedeDoc_some {oldDocId : ℤ}
    (h : s.supersedeDoc ts memoryId (some oldDocId) = .ok (s', memoryId)) :
    ∃ m ∈ s.memories, m.docId = oldDocId ∧ m.supersededBy = none ∧
      s.supersede ts m.id memoryId = .ok s' := by
  rw [supersedeDoc] at h
  split at h
  next => cases h
  next m hm =>
    obtain ⟨hmem, hrow⟩ := List.mem_filter.mp (mem_of_firstBy hm)
    obtain ⟨hdoc, hsuper⟩ := Bool.and_eq_true_iff.mp hrow
    obtain ⟨t, ht, h⟩ := bind_eq_ok.mp h
    cases h
    exact ⟨m, hmem, of_decide_eq_true hdoc, Option.isNone_iff_eq_none.mp hsuper, ht⟩

theorem supersedeDoc_id {id : ℤ} {supersedes : Option ℤ}
    (h : s.supersedeDoc ts memoryId supersedes = .ok (s', id)) : id = memoryId := by
  cases supersedes with
  | none =>
    cases h
    rfl
  | some oldDocId =>
    rw [supersedeDoc] at h
    split at h
    next => cases h
    next =>
      obtain ⟨t, -, h⟩ := bind_eq_ok.mp h
      cases h
      rfl

/-- The two halves of a promotion that goes through. -/
theorem promoteDocMemory_ok {oldTs id : ℤ} {supersedes : Option ℤ}
    (h : s.promoteDocMemory ts oldTs docId memoryType confidence eventDate supersedes =
      .ok (s', id)) :
    supersedes ≠ some docId ∧
      ∃ t, s.promoteRow ts docId memoryType confidence eventDate = .ok (t, id) ∧
        t.supersedeDoc oldTs id supersedes = .ok (s', id) := by
  rw [promoteDocMemory] at h
  split at h
  next => cases h
  next =>
    split at h
    next => cases h
    next hself =>
      obtain ⟨⟨t, memoryId⟩, ht, h⟩ := bind_eq_ok.mp h
      obtain rfl := supersedeDoc_id h
      exact ⟨hself, t, ht, h⟩

theorem promoteRow_db
    (h : s.promoteRow ts docId memoryType confidence eventDate = .ok (s', memoryId)) :
    s'.db = s.db := by
  rw [MemoryStore.promoteRow] at h
  split at h
  next =>
    cases h
    rfl
  next =>
    rw [MemoryStore.putMemoryWithDate] at h
    split at h <;> cases h
    rfl

theorem promoteDocMemory_db {oldTs id : ℤ} {supersedes : Option ℤ}
    (h : s.promoteDocMemory ts oldTs docId memoryType confidence eventDate supersedes =
      .ok (s', id)) : s'.db = s.db := by
  obtain ⟨-, t, ht, h⟩ := promoteDocMemory_ok h
  have hdb := promoteRow_db ht
  cases supersedes with
  | none =>
    cases h
    exact hdb
  | some oldDocId =>
    obtain ⟨m, -, -, -, hsuper⟩ := supersedeDoc_some h
    obtain ⟨-, -, rfl⟩ := supersede_ok hsuper
    exact hdb

/-- Promoting a document's memory keeps the store sound. -/
theorem Sound.promote (hs : s.Sound) {oldTs id : ℤ} {supersedes : Option ℤ}
    (h : s.promoteDocMemory ts oldTs docId memoryType confidence eventDate supersedes =
      .ok (s', id)) : s'.Sound := by
  obtain ⟨-, t, ht, h⟩ := promoteDocMemory_ok h
  have hsound := hs.promoteRow ht
  cases supersedes with
  | none =>
    cases h
    exact hsound
  | some oldDocId =>
    obtain ⟨m, -, -, -, hsuper⟩ := supersedeDoc_some h
    exact hsound.supersede hsuper

/-- All documents stay settled exactly if the promotion leaves its row raw and supersedes
nothing. -/
theorem Sound.promote_settled_iff (hs : s.Sound) (hall : s.AllSettled) {oldTs id : ℤ}
    {supersedes : Option ℤ}
    (h : s.promoteDocMemory ts oldTs docId memoryType confidence eventDate supersedes =
      .ok (s', id)) : s'.AllSettled ↔ memoryType = .raw ∧ supersedes = none := by
  obtain ⟨hself, t, ht, hold⟩ := promoteDocMemory_ok h
  have hsound := hs.promoteRow ht
  have hdb := promoteRow_db ht
  obtain ⟨⟨d, hd, rfl⟩, hraw, hother⟩ := hs.promoteRow_active hall ht
  cases supersedes with
  | none =>
    cases hold
    rw [and_iff_left rfl, ← hraw]
    refine ⟨?_, ?_⟩
    · exact fun hall' => hall' d (hdb ▸ hd)
    · intro hsettled e he
      by_cases heq : e.id = d.id
      · rw [heq]
        exact hsettled
      · obtain ⟨m, hm, htype⟩ := hall e (hdb ▸ he)
        exact ⟨m, (hother e.id heq).trans hm, htype⟩
  | some oldDocId =>
    -- the other document has no active memory left
    obtain ⟨m, hm, rfl, hsuper, hok⟩ := supersedeDoc_some hold
    refine iff_of_false (fun hall' => ?_) fun hcond => nomatch hcond.2
    obtain ⟨-, -, rfl⟩ := supersede_ok hok
    obtain ⟨e, he, hid⟩ := hsound.doc_fk m hm
    have hne : e.id ≠ d.id := fun heq => hself (by rw [← hid, heq])
    obtain ⟨n, hn, -⟩ := hall e (hdb ▸ he)
    obtain ⟨n', hn', -⟩ := hall' e he
    have hmem : m ∈ t.active e.id :=
      mem_active.mpr ⟨hm, hid.symm, hsound.entity_null m hm, hsuper⟩
    rw [active_supersede, hother e.id hne, hn] at hn'
    rw [hother e.id hne, hn] at hmem
    obtain rfl := List.mem_singleton.mp hmem
    simp at hn'

end Promotion

end MemoryStore

/-! ## Runs -/

/-- A call that writes documents or memories. -/
inductive MemoryAction where
  | put (now ts : ℤ) (req : PutRequest)
  | putBatch (ts : ℤ) (reqs : List (ℤ × PutRequest))
  | promoteDocMemory (ts oldTs docId : ℤ) (memoryType : MemoryType) (confidence : F64)
    (eventDate : Option String) (supersedesDocId : Option ℤ)
  | supersede (ts oldId newId : ℤ)

namespace MemoryStore

variable [Blake3]

/-- The store after a call that may have failed. -/
def after {ε α : Type} (s : MemoryStore) : Except ε (MemoryStore × α) → MemoryStore
  | .ok (s', _) => s'
  | .error _ => s

/-- A call. A failed one changes nothing. -/
def step (s : MemoryStore) : MemoryAction → MemoryStore
  | .put now ts req => s.after (s.put now ts req)
  | .putBatch ts reqs => s.after (s.putBatch ts reqs)
  | .promoteDocMemory ts oldTs docId memoryType confidence eventDate supersedes =>
    s.after (s.promoteDocMemory ts oldTs docId memoryType confidence eventDate supersedes)
  | .supersede ts oldId newId => s.after ((s.supersede ts oldId newId).map fun s => (s, ()))

/-- What an action does to the database. -/
def dbOps : MemoryAction → List Store.Op
  | .put now _ req => [.put now req]
  | .putBatch _ reqs => [.putBatch reqs]
  | _ => []

/-- Memories have no part in what a put does to the documents. -/
theorem put_db [Store.Tokenizer] (s : MemoryStore) (now ts : ℤ) (req : PutRequest) :
    (s.after (s.put now ts req)).db = s.db.apply (.put now req) := by
  change _ = s.db.after (s.db.putInner now req)
  rw [put]
  cases hput : s.db.putInner now req with
  | error e => rfl
  | ok r =>
    obtain ⟨db, id⟩ := r
    obtain ⟨d, hd, -, hid⟩ := Store.findOrInsert_row (Store.putInner_ok.mp hput).2
    obtain ⟨t, n, ht, hadded⟩ := ensureRawMemory_ok { s with db } ts ⟨d, hd, hid⟩
    simp only [ht]
    exact hadded.db_eq

/-- The same of a batch. -/
theorem putBatch_db [Store.Tokenizer] (s : MemoryStore) (ts : ℤ) (reqs : List (ℤ × PutRequest)) :
    (s.after (s.putBatch ts reqs)).db = s.db.apply (.putBatch reqs) := by
  change _ = s.db.after (s.db.putBatch reqs)
  rw [putBatch]
  cases hput : s.db.putBatch reqs with
  | error e => rfl
  | ok r =>
    obtain ⟨db, ids⟩ := r
    obtain ⟨t, n, ht, hadded⟩ :=
      ensureRawMemoryBatch_ok { s with db } ts (Store.exists_of_mem_putBatch hput)
    simp only [ht]
    exact hadded.db_eq

/-- The documents go on as they do without memories. -/
theorem step_db [Store.Tokenizer] (s : MemoryStore) (a : MemoryAction) :
    (s.step a).db = (dbOps a).foldl Store.apply s.db := by
  cases a with
  | put now ts req => exact s.put_db now ts req
  | putBatch ts reqs => exact s.putBatch_db ts reqs
  | promoteDocMemory ts oldTs docId memoryType confidence eventDate supersedes =>
    rw [step]
    cases hpromote :
      s.promoteDocMemory ts oldTs docId memoryType confidence eventDate supersedes with
    | error e => rfl
    | ok r => exact promoteDocMemory_db hpromote
  | supersede ts oldId newId =>
    rw [step]
    cases hsuper : s.supersede ts oldId newId with
    | error e => rfl
    | ok s' =>
      obtain ⟨-, -, rfl⟩ := supersede_ok hsuper
      rfl

theorem run_db [Store.Tokenizer] {s s' : MemoryStore} {as : List MemoryAction}
    (hrun : run (fun s a => some (step s a)) s as = some s') :
    s'.db = (as.flatMap dbOps).foldl Store.apply s.db := by
  refine run_simulates MemoryStore.db Store.apply dbOps ?_ hrun
  rintro s a _ ⟨⟩
  exact s.step_db a

/-- The action, if it goes through, leaves every document an active raw memory, and only one. -/
def KeepsRaw (s : MemoryStore) : MemoryAction → Prop
  | .put _ _ _ => True
  | .putBatch ts reqs => (∃ r, s.putBatch ts reqs = .ok r) → s.NewTextsOnce reqs
  | .promoteDocMemory ts oldTs docId memoryType confidence eventDate supersedes =>
    (∃ r, s.promoteDocMemory ts oldTs docId memoryType confidence eventDate supersedes = .ok r) →
      memoryType = .raw ∧ supersedes = none
  | .supersede ts oldId newId => (∃ s', s.supersede ts oldId newId = .ok s') →
      ∀ m ∈ s.memories, m.id = oldId → m.supersededBy ≠ none

theorem newTextsOnce_singleton (s : MemoryStore) (r : ℤ × PutRequest) : s.NewTextsOnce [r] := by
  intro x hx _
  obtain rfl := List.mem_singleton.mp hx
  simp

theorem sound_new : Sound new where
  nodup := List.nodup_nil
  doc_fk := List.forall_mem_nil _
  covered := List.forall_mem_nil _
  entity_null := List.forall_mem_nil _

/-- What one action does to the tables and to the documents. -/
theorem Sound.step {s : MemoryStore} (hs : s.Sound) (a : MemoryAction) :
    (s.step a).Sound ∧ (s.AllSettled → ((s.step a).AllSettled ↔ s.KeepsRaw a)) := by
  cases a with
  | put now ts req =>
    rw [MemoryStore.step]
    cases hput : s.put now ts req with
    | error e => exact ⟨hs, fun hall => iff_of_true hall trivial⟩
    | ok r =>
      obtain ⟨s', id⟩ := r
      obtain ⟨db, hdb, hadded⟩ := put_ok hput
      have hbatch := Store.putBatch_of_putInner hdb
      refine ⟨hs.stored hbatch hadded, fun hall => ?_⟩
      exact (hs.stored_settled_iff hall hbatch hadded).trans
        (iff_of_true (s.newTextsOnce_singleton _) trivial)
  | putBatch ts reqs =>
    rw [MemoryStore.step, KeepsRaw]
    cases hput : s.putBatch ts reqs with
    | error e => exact ⟨hs, fun hall => iff_of_true hall nofun⟩
    | ok r =>
      obtain ⟨s', ids⟩ := r
      obtain ⟨db, hbatch, hadded⟩ := putBatch_ok hput
      refine ⟨hs.stored hbatch hadded, fun hall => ?_⟩
      exact (hs.stored_settled_iff hall hbatch hadded).trans
        ⟨fun h _ => h, fun h => h ⟨_, rfl⟩⟩
  | promoteDocMemory ts oldTs docId memoryType confidence eventDate supersedes =>
    rw [MemoryStore.step, KeepsRaw]
    cases hpromote :
      s.promoteDocMemory ts oldTs docId memoryType confidence eventDate supersedes with
    | error e => exact ⟨hs, fun hall => iff_of_true hall nofun⟩
    | ok r =>
      obtain ⟨s', id⟩ := r
      refine ⟨hs.promote hpromote, fun hall => ?_⟩
      exact (hs.promote_settled_iff hall hpromote).trans ⟨fun h _ => h, fun h => h ⟨_, rfl⟩⟩
  | supersede ts oldId newId =>
    rw [MemoryStore.step, KeepsRaw]
    cases hsuper : s.supersede ts oldId newId with
    | error e => exact ⟨hs, fun hall => iff_of_true hall nofun⟩
    | ok s' =>
      refine ⟨hs.supersede hsuper, fun hall => ?_⟩
      exact (hs.supersede_settled_iff hall hsuper).trans ⟨fun h _ => h, fun h => h ⟨_, rfl⟩⟩

/-- The tables belong together in every state that is reached. -/
theorem sound_foldl (as : List MemoryAction) : (as.foldl step new).Sound := by
  apply run_preserves Sound _ (run_total step new as) sound_new
  rintro s a _ hs ⟨⟩
  exact (hs.step a).1

/-- In every run of puts, batches, promotions and supersessions, every stored text can be put again
in every state exactly if each step keeps the one active memory of every document raw: a promotion
that goes through is to the type raw and supersedes nothing, no active memory is superseded, and no
batch that goes through brings a new text twice. -/
theorem steady_along_iff (as : List MemoryAction) :
    Along (fun s a => some (step s a)) Steady new as ↔
      Meets (fun s a => some (step s a)) KeepsRaw new as := by
  have hknown : Meets (fun s a => some (step s a)) (fun _ _ => True) new as :=
    Meets.of_forall fun _ _ => trivial
  apply along_iff_meets Sound Steady _ _ (run_total step new as) hknown sound_new
    (List.forall_mem_nil _)
  · rintro s a _ hs ⟨⟩
    exact (hs.step a).1
  · rintro s a _ hs hsteady - ⟨⟩
    rw [steady_iff (hs.step a).1]
    exact (hs.step a).2 ((steady_iff hs).mp hsteady)

end MemoryStore

/-- A text is put, and its memory is promoted to a fact. -/
def putAndPromote : List MemoryAction :=
  [.put 0 0 ⟨none, none, "a", none, none⟩, .promoteDocMemory 1 1 1 .fact Memory.full none none]

/-- The text is put again: the document has a second active memory, which is raw, and its state is
that of the new one. -/
theorem putAndPromote_unsteady :
    let _ := Blake3.identity
    let s := putAndPromote.foldl MemoryStore.step MemoryStore.new
    let again := s.step (.put 2 2 ⟨none, none, "a", none, none⟩)
    ¬Along (fun s a => some (MemoryStore.step s a)) MemoryStore.Steady MemoryStore.new
      putAndPromote ∧
    s.docMemoryState 1 = some ⟨.fact, Memory.full, none, false⟩ ∧
    again.docMemoryState 1 = some ⟨.raw, Memory.full, none, false⟩ ∧
    (again.active 1).map Memory.memoryType = [.fact, .raw] := by
  intro _ s again
  have hstates : s.docMemoryState 1 = some ⟨.fact, Memory.full, none, false⟩ ∧
      again.docMemoryState 1 = some ⟨.raw, Memory.full, none, false⟩ ∧
      (again.active 1).map Memory.memoryType = [.fact, .raw] := by
    decide +kernel
  have hdocs : s.db.docs.rows.map Doc.id = [1] := by decide +kernel
  have hactive : (s.active 1).map Memory.memoryType = [.fact] := by decide +kernel
  refine ⟨fun halong => ?_, hstates⟩
  have hsteady : s.Steady :=
    halong putAndPromote (List.prefix_refl _) s (run_total MemoryStore.step MemoryStore.new _)
  obtain ⟨d, hd, hid⟩ : ∃ d ∈ s.db.docs.rows, d.id = 1 := by
    rw [← List.mem_map, hdocs]
    exact List.mem_cons_self
  obtain ⟨m, hm, hraw⟩ := (hsteady d hd).settled (MemoryStore.sound_foldl putAndPromote) hd
  rw [hid] at hm
  rw [hm, List.map_singleton, hraw] at hactive
  cases hactive

end SynapseMemory
