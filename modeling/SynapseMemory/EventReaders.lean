import SynapseMemory.EventBatch

/-!
# Reading the event log

`query_events` and `replay` select the column `content` of `synapse_events`, whatever stands in
`content_zst`. With the feature `zstd-compress` a content of more than 1024 bytes stands there, and
nothing reads it.

So after any calls of `ingest_event` and `ingest_events`, the readers return what was ingested
exactly if every event of a call found a row that has its content in the column `content`, or was
inserted without being compressed (`content_returned_iff`). They could restore no other: no reader
decompresses.
-/

namespace SynapseMemory.Events

open Transition

/-- The filter of a query. -/
structure EventFilter where
  agent : Option String
  sessionId : Option String
  kind : Option String
  uri : Option String
  since : Option ℤ
  until_ : Option ℤ
  limit : Option ℤ

/-- The `WHERE` clause. A comparison with `NULL` is not true. -/
def EventFilter.keeps (f : EventFilter) (r : EventRow) : Bool :=
  f.agent.all (· == r.agent) && f.sessionId.all (some · == r.sessionId) &&
    f.kind.all (· == r.kind) && f.uri.all (some · == r.uri) &&
    f.since.all (decide <| · ≤ r.ts) && f.until_.all (decide <| r.ts ≤ ·)

/-- The order in which a statement visits the rows, which is the order of those with one time. -/
class Scan where
  query : EventFilter → List EventRow → List EventRow
  replay : String → List EventRow → List EventRow
  query_perm : ∀ f rows, (query f rows).Perm rows
  replay_perm : ∀ sid rows, (replay sid rows).Perm rows

/-- In the order of the ids. -/
@[reducible] def Scan.byId : Scan where
  query _ rows := rows
  replay _ rows := rows
  query_perm _ _ := List.Perm.refl _
  replay_perm _ _ := List.Perm.refl _

/-- `LIMIT n`, where a negative number is no limit. -/
def limitRows (n : ℤ) (rows : List EventRow) : List EventRow :=
  if n < 0 then rows else rows.take n.toNat

/-- A row as `query_events` returns it. -/
structure QueriedEvent where
  id : ℤ
  ts : ℤ
  sessionId : Option String
  agent : String
  kind : String
  uri : Option String
  content : Option String
  meta_ : Option Text

/-- A row as `replay` returns it. -/
structure ReplayEntry where
  ts : ℤ
  kind : String
  uri : Option String
  content : Option String

/-- The columns of `query_events`. -/
def EventRow.queried (r : EventRow) : QueriedEvent :=
  ⟨r.id, r.ts, r.sessionId, r.agent, r.kind, r.uri, r.content, r.meta_⟩

/-- The columns of `replay`. -/
def EventRow.replayed (r : EventRow) : ReplayEntry := ⟨r.ts, r.kind, r.uri, r.content⟩

section Readers

variable [Scan]

/-- The rows of the statement of `query_events`. -/
def Db.selectQuery (db : Db) (f : EventFilter) : List EventRow :=
  limitRows (f.limit.elim 1000 (max · 1))
    (((Scan.query f db.events.rows).filter f.keeps).mergeSort fun a b => b.ts ≤ a.ts)

/-- `query_events` -/
def queryEvents (db : Db) (f : EventFilter) : List QueriedEvent :=
  (db.selectQuery f).map EventRow.queried

/-- The rows of the statement of `replay`. -/
def Db.selectReplay (db : Db) (sid : String) (limit : ℤ) : List EventRow :=
  limitRows limit
    (((Scan.replay sid db.events.rows).filter fun r => r.sessionId == some sid).mergeSort
      fun a b => a.ts ≤ b.ts)

/-- `replay` -/
def replay (db : Db) (sid : String) (limit : ℤ) : List ReplayEntry :=
  (db.selectReplay sid limit).map EventRow.replayed

/-- The readers return the content of the event for the row with this id: a query returns no other
and some query returns it, and so do the replays, for the session of the event. -/
structure Reads (db : Db) (ev : Event) (id : ℤ) : Prop where
  queried : ∀ f, ∀ e ∈ queryEvents db f, e.id = id → e.content = ev.content
  query : ∃ f, ∃ e ∈ queryEvents db f, e.id = id
  replayed : ∀ sid limit, ∀ r ∈ db.selectReplay sid limit, r.id = id →
    r.replayed.content = ev.content
  replay : ∀ sid ∈ ev.sessionId, ∃ limit, ∃ r ∈ db.selectReplay sid limit, r.id = id

/-! ## What the statements select -/

omit [Scan] in
theorem mem_of_mem_limitRows {n : ℤ} {rows : List EventRow} {r : EventRow}
    (h : r ∈ limitRows n rows) : r ∈ rows := by
  rw [limitRows] at h
  split at h
  · exact h
  · exact List.mem_of_mem_take h

theorem mem_of_mem_selectQuery {db : Db} {f : EventFilter} {r : EventRow}
    (h : r ∈ db.selectQuery f) : r ∈ db.events.rows := by
  have hsorted := mem_of_mem_limitRows h
  rw [List.mem_mergeSort, List.mem_filter] at hsorted
  exact (Scan.query_perm f _).mem_iff.mp hsorted.1

theorem mem_of_mem_selectReplay {db : Db} {sid : String} {limit : ℤ} {r : EventRow}
    (h : r ∈ db.selectReplay sid limit) : r ∈ db.events.rows ∧ r.sessionId = some sid := by
  have hsorted := mem_of_mem_limitRows h
  rw [List.mem_mergeSort, List.mem_filter, beq_iff_eq] at hsorted
  exact ⟨(Scan.replay_perm sid _).mem_iff.mp hsorted.1, hsorted.2⟩

/-- A query for everything, with a limit that keeps all rows. -/
theorem exists_selectQuery {db : Db} {r : EventRow} (hr : r ∈ db.events.rows) :
    ∃ f, r ∈ db.selectQuery f := by
  let f : EventFilter := ⟨none, none, none, none, none, none, some db.events.rows.length⟩
  refine ⟨f, ?_⟩
  have hkeeps : (Scan.query f db.events.rows).filter f.keeps = Scan.query f db.events.rows :=
    List.filter_eq_self.mpr fun _ _ => rfl
  rw [Db.selectQuery, hkeeps, limitRows, if_neg (by simp [f]), List.take_of_length_le]
  · rw [List.mem_mergeSort]
    exact (Scan.query_perm f _).mem_iff.mpr hr
  · rw [List.length_mergeSort, (Scan.query_perm f _).length_eq]
    simp only [f, Option.elim_some]
    omega

/-- A replay without a limit. -/
theorem mem_selectReplay {db : Db} {r : EventRow} {sid : String} (hr : r ∈ db.events.rows)
    (hsession : r.sessionId = some sid) : r ∈ db.selectReplay sid (-1) := by
  rw [Db.selectReplay, limitRows, if_pos (by decide), List.mem_mergeSort, List.mem_filter,
    beq_iff_eq]
  exact ⟨(Scan.replay_perm sid _).mem_iff.mpr hr, hsession⟩

end Readers

/-- The row reads as the event: it is in the session of the event, and its column `content` has the
content. -/
def EventRow.ReadsAs (r : EventRow) (ev : Event) : Prop :=
  r.content = ev.content ∧ ∀ sid ∈ ev.sessionId, r.sessionId = some sid

instance (r : EventRow) (ev : Event) : Decidable (r.ReadsAs ev) :=
  inferInstanceAs (Decidable (r.content = ev.content ∧
    ∀ sid ∈ ev.sessionId, r.sessionId = some sid))

/-- The readers look at the row with the id and at nothing else. -/
theorem reads_iff [Scan] {db : Db} {ev : Event} {id : ℤ} :
    Reads db ev id ↔ ∃ r ∈ db.events.rows, r.id = id ∧ r.ReadsAs ev := by
  constructor
  · rintro ⟨hqueried, ⟨f, e, he, rfl⟩, -, hreplay⟩
    obtain ⟨r, hr, rfl⟩ := List.mem_map.mp he
    have hrow := mem_of_mem_selectQuery hr
    refine ⟨r, hrow, rfl, hqueried f _ he rfl, fun sid hsid => ?_⟩
    obtain ⟨limit, x, hx, hid⟩ := hreplay sid hsid
    obtain ⟨hxrow, hxsession⟩ := mem_of_mem_selectReplay hx
    rwa [← db.events.eq_of_id hxrow hrow hid]
  · rintro ⟨r, hr, rfl, hcontent, hsession⟩
    refine ⟨fun f e he hid => ?_, ?_, fun sid limit x hx hid => ?_, fun sid hsid => ?_⟩
    · obtain ⟨x, hx, rfl⟩ := List.mem_map.mp he
      rw [db.events.eq_of_id (mem_of_mem_selectQuery hx) hr hid]
      exact hcontent
    · obtain ⟨f, hf⟩ := exists_selectQuery hr
      exact ⟨f, r.queried, List.mem_map_of_mem hf, rfl⟩
    · rw [db.events.eq_of_id (mem_of_mem_selectReplay hx).1 hr hid]
      exact hcontent
    · exact ⟨-1, r, mem_selectReplay hr (hsession sid hsid), rfl⟩

/-- Where rows are only added, the readers return the same for a row that was there. -/
theorem reads_congr [Scan] {db db' : Db} {ev : Event} {r : EventRow} (hr : r ∈ db.events.rows)
    (hadded : db.events.rows ⊆ db'.events.rows) : Reads db' ev r.id ↔ Reads db ev r.id := by
  rw [reads_iff, reads_iff]
  refine ⟨?_, fun ⟨x, hx, h⟩ => ⟨x, hadded hx, h⟩⟩
  rintro ⟨x, hx, hid, hreads⟩
  rw [db'.events.eq_of_id hx (hadded hr) hid] at hreads
  exact ⟨r, hr, rfl, hreads⟩

/-! ## Runs -/

/-- A call of the ingest functions. -/
inductive Call where
  | event (ev : Event)
  | events (evs : List Event)

/-- A connection, and the events that were ingested on it with the ids of their rows. -/
structure Log where
  conn : Connection
  ingested : List (Event × ℤ)

/-- With the feature, and a compressor that stores. -/
@[reducible] def ZstdCompress.storing : ZstdCompress := ⟨true, fun b => .ok b⟩

/-- The content stays in the column `content`. -/
def Uncompressed [ZstdCompress] (content : Option String) : Prop :=
  ZstdCompress.enabled = true → ∀ c ∈ content, 1024 < (Bytes.ofString c).length →
    ∀ blob, ZstdCompress.encodeAll (Bytes.ofString c) ≠ .ok blob

theorem storedContent_fst [ZstdCompress] {content : Option String} :
    (storedContent content).1 = content ↔ Uncompressed content := by
  unfold storedContent Uncompressed
  split
  next henabled =>
    cases content with
    | none => exact iff_of_true rfl fun _ c hc => nomatch hc
    | some c =>
      simp only [henabled, Option.mem_some_iff, forall_eq', true_implies]
      split
      next hlong =>
        simp only [hlong, true_implies]
        cases ZstdCompress.encodeAll (Bytes.ofString c) <;> simp
      next hshort => exact iff_of_true rfl fun h => absurd h hshort
  next hdisabled => exact iff_of_true rfl fun h => absurd h hdisabled

namespace Log

section Calls

variable [ContentHash] [FloatText] [ZstdCompress] [Refusal]

/-- A call of `ingest_event`. -/
def event (s : Log) (ev : Event) : Log :=
  match ingestEvent s.conn.db ev with
  | (db, .ok id) => ⟨{ s.conn with db }, s.ingested ++ [(ev, id)]⟩
  | (db, .error _) => { s with conn := { s.conn with db } }

/-- The events with the ids of the rows of their hashes. -/
def rowsOf (db : Db) (evs : List Event) : List (Event × ℤ) :=
  evs.filterMap fun ev => (db.lookup ev.dedupKey).map fun id => (ev, id)

/-- A call, with the rows that it added to the log of what was ingested. -/
def call (s : Log) : Call → Log
  | .event ev => s.event ev
  | .events evs =>
    match ingestEvents s.conn evs with
    | (conn, .ok _) => ⟨conn, s.ingested ++ rowsOf conn.db evs⟩
    | (conn, .error _) => { s with conn }

/-- The call finds a row that reads as its event, or it inserts the event without compressing it. -/
def Fits (s : Log) (ev : Event) : Prop :=
  (ingestEvent s.conn.db ev).2.isOk = true →
    match s.conn.db.events.rows.find? fun r => r.blake3 = ev.dedupKey with
    | some r => r.ReadsAs ev
    | none => Uncompressed ev.content

/-- The same, for each event of a batch when its turn comes. -/
def Keeps (s : Log) : Call → Prop
  | .event ev => s.Fits ev
  | .events evs => (ingestEvents s.conn evs).2.isOk = true →
      Meets (fun s ev => some (event s ev)) Fits s evs

end Calls

/-- The events that were ingested have rows. -/
def Grounded (s : Log) : Prop := ∀ p ∈ s.ingested, ∃ r ∈ s.conn.db.events.rows, r.id = p.2

/-- **The readers return every event as it was ingested.** -/
def Returned [Scan] (s : Log) : Prop := ∀ p ∈ s.ingested, Reads s.conn.db p.1 p.2

/-- A call that adds rows and is not one of an event more. -/
theorem returned_congr [Scan] {s s' : Log} (hgrounded : s.Grounded)
    (hingested : s'.ingested = s.ingested)
    (hadded : s.conn.db.events.rows ⊆ s'.conn.db.events.rows) :
    s'.Grounded ∧ (s'.Returned ↔ s.Returned) := by
  rw [Grounded, Returned, hingested]
  refine ⟨fun p hp => ?_, forall₂_congr fun p hp => ?_⟩
  · obtain ⟨r, hr, hid⟩ := hgrounded p hp
    exact ⟨r, hadded hr, hid⟩
  · obtain ⟨r, hr, hid⟩ := hgrounded p hp
    rw [← hid, reads_congr hr hadded]

/-- An event more, with the row of the id. -/
theorem returned_concat [Scan] {s s' : Log} (hgrounded : s.Grounded) {ev : Event} {r : EventRow}
    (hingested : s'.ingested = s.ingested ++ [(ev, r.id)]) (hr : r ∈ s'.conn.db.events.rows)
    (hadded : s.conn.db.events.rows ⊆ s'.conn.db.events.rows) :
    s'.Grounded ∧ (s'.Returned ↔ s.Returned ∧ r.ReadsAs ev) := by
  have hlast : Reads s'.conn.db ev r.id ↔ r.ReadsAs ev := by
    rw [reads_iff]
    refine ⟨?_, fun h => ⟨r, hr, rfl, h⟩⟩
    rintro ⟨x, hx, hid, hreads⟩
    rwa [← s'.conn.db.events.eq_of_id hx hr hid]
  obtain ⟨hgrounded', hreturned⟩ : (⟨s'.conn, s.ingested⟩ : Log).Grounded ∧
      ((⟨s'.conn, s.ingested⟩ : Log).Returned ↔ s.Returned) :=
    returned_congr hgrounded rfl hadded
  refine ⟨fun p hp => ?_, ?_⟩
  · rw [hingested] at hp
    rcases List.mem_append.mp hp with hp | hp
    · exact hgrounded' p hp
    · obtain rfl := List.mem_singleton.mp hp
      exact ⟨r, hr, rfl⟩
  · rw [← hreturned, ← hlast, Returned, hingested, List.forall_mem_append,
      List.forall_mem_singleton]
    exact Iff.rfl

section Steps

variable [ContentHash] [FloatText] [ZstdCompress] [Refusal] [Scan]

omit [FloatText] [ZstdCompress] [Scan] in
/-- The row of the hash. -/
theorem ingestEvent_found [FloatText] [ZstdCompress] {db : Db} {ev : Event} {r : EventRow}
    (hfind : (db.events.rows.find? fun r => r.blake3 = ev.dedupKey) = some r) :
    ingestEvent db ev = (db, .ok r.id) := by
  rw [ingestEvent, Db.lookup, hfind]
  rfl

/-- An event that fits is returned, and one that does not is not. -/
theorem event_exact {s : Log} (hgrounded : s.Grounded) (ev : Event) :
    (s.event ev).Grounded ∧ ((s.event ev).Returned ↔ s.Returned ∧ s.Fits ev) := by
  rw [Fits]
  cases hfind : s.conn.db.events.rows.find? fun r => r.blake3 = ev.dedupKey with
  | some r =>
    -- the call returns the id of the row
    have hcall := ingestEvent_found hfind
    have hevent : s.event ev = ⟨s.conn, s.ingested ++ [(ev, r.id)]⟩ := by rw [event, hcall]
    rw [hevent, hcall]
    simp only [Except.isOk, Except.toBool, true_implies]
    exact returned_concat hgrounded rfl (List.mem_of_find?_eq_some hfind) (List.Subset.refl _)
  | none =>
    rcases ingestEvent_cases s.conn.db ev with
      ⟨r, hr, hkey, -⟩ | ⟨-, ⟨db', db'', hcall, hrows⟩ | ⟨db', e, hcall, hevents⟩⟩
    · exact absurd hkey (by simpa using List.find?_eq_none.mp hfind r hr)
    · -- the new row has the session of the event, and its content unless it was compressed
      have hevent : s.event ev =
          ⟨{ s.conn with db := db'' }, s.ingested ++ [(ev, (newRow db' ev).id)]⟩ := by
        rw [event, hcall]
      have hreads : (newRow db' ev).ReadsAs ev ↔ Uncompressed ev.content :=
        (and_iff_left fun _ hsid => hsid).trans storedContent_fst
      rw [hevent, hcall, ← hreads]
      simp only [Except.isOk, Except.toBool, true_implies]
      refine returned_concat hgrounded rfl ?_ ?_
      · rw [hrows]
        exact List.mem_append_right _ (List.mem_singleton_self _)
      · rw [hrows]
        exact List.subset_append_left _ _
    · have hevent : s.event ev = { s with conn := { s.conn with db := db' } } := by
        rw [event, hcall]
      rw [hevent, hcall]
      simp only [Except.isOk, Except.toBool, Bool.false_eq_true, false_implies, and_true]
      refine returned_congr hgrounded rfl ?_
      rw [hevents]
      exact List.Subset.refl _

omit [Scan] in
/-- The id that a call returns is the one that its hash is found with from then on. -/
theorem lookup_ingestEvent {db db' db'' : Db} {ev : Event} {id : ℤ}
    (hcall : ingestEvent db ev = (db', .ok id)) (hadded : db'.events.rows <+: db''.events.rows) :
    db''.lookup ev.dedupKey = some id := by
  have hfound : ∃ r, (db'.events.rows.find? fun r => r.blake3 = ev.dedupKey) = some r ∧
      r.id = id := by
    cases hfind : db.events.rows.find? fun r => r.blake3 = ev.dedupKey with
    | some r =>
      rw [ingestEvent_found hfind] at hcall
      cases hcall
      exact ⟨r, hfind, rfl⟩
    | none =>
      rcases ingestEvent_cases db ev with
        ⟨r, hr, hkey, -⟩ | ⟨-, ⟨x, y, hcall', hrows⟩ | ⟨x, e, hcall', -⟩⟩
      · exact absurd hkey (by simpa using List.find?_eq_none.mp hfind r hr)
      · cases hcall.symm.trans hcall'
        refine ⟨newRow x ev, ?_, rfl⟩
        rw [hrows, List.find?_append, hfind]
        simp [newRow]
      · cases hcall.symm.trans hcall'
  obtain ⟨r, hr, rfl⟩ := hfound
  rw [Db.lookup, hadded.find?_eq_some hr]
  rfl

omit [Scan] in
/-- A batch that goes through is its events one by one. -/
theorem foldl_event {s : Log} {evs : List Event} {db : Db} {ids : List ℤ}
    (heach : ingestEach s.conn.db evs = (db, .ok ids)) :
    evs.foldl event s = ⟨⟨db, s.conn.saved⟩, s.ingested ++ rowsOf db evs⟩ := by
  induction evs generalizing s ids with
  | nil =>
    cases heach
    simp [rowsOf]
  | cons ev rest ih =>
    rw [ingestEach] at heach
    rcases hcall : ingestEvent s.conn.db ev with ⟨db', e | id⟩ <;> simp only [hcall] at heach
    · cases heach
    rcases hrest : ingestEach db' rest with ⟨db'', e | ids'⟩ <;> simp only [hrest] at heach <;>
      cases heach
    have hadded := prefix_ingestEach db' rest
    rw [hrest] at hadded
    have hevent : s.event ev = ⟨{ s.conn with db := db' }, s.ingested ++ [(ev, id)]⟩ := by
      rw [event, hcall]
    have hrows : rowsOf db (ev :: rest) = (ev, id) :: rowsOf db rest := by
      rw [rowsOf, List.filterMap_cons, lookup_ingestEvent hcall hadded]
      rfl
    rw [List.foldl_cons, hevent, ih hrest, hrows, List.append_assoc, List.singleton_append]

/-- After any calls of `ingest_event`. -/
theorem foldl_event_exact {s : Log} (hgrounded : s.Grounded) (evs : List Event) :
    (evs.foldl event s).Grounded ∧ ((evs.foldl event s).Returned ↔
      s.Returned ∧ Meets (fun s ev => some (event s ev)) Fits s evs) := by
  have hrun := run_total event s evs
  have hstep : ∀ s ev s', s.Grounded → some (event s ev) = some s' → s'.Grounded := by
    rintro s ev _ hgrounded ⟨⟩
    exact (event_exact hgrounded ev).1
  refine ⟨run_preserves Grounded hstep hrun hgrounded,
    run_keeps_iff Grounded Returned hstep ?_ hrun hgrounded⟩
  rintro s ev _ hgrounded ⟨⟩
  exact (event_exact hgrounded ev).2

theorem call_exact {s : Log} (hgrounded : s.Grounded) (c : Call) :
    (s.call c).Grounded ∧ ((s.call c).Returned ↔ s.Returned ∧ s.Keeps c) := by
  cases c with
  | event ev => exact event_exact hgrounded ev
  | events evs =>
    rw [call, Keeps]
    rcases ingestEvents_cases s.conn evs with ⟨rfl, hbatch⟩ | ⟨-, e, hbatch⟩ | ⟨hclosed,
      ⟨db, e, -, hbatch⟩ | ⟨db, ids, heach, ⟨message, -, hbatch⟩ | ⟨-, hbatch⟩⟩⟩ <;>
      simp only [hbatch, Except.isOk, Except.toBool, Bool.false_eq_true, false_implies, and_true,
        true_implies]
    · simpa [rowsOf, Meets] using hgrounded
    · exact hgrounded
    · exact hgrounded
    · -- the rows are there, in a transaction that no call closes
      have hadded := prefix_ingestEach s.conn.db evs
      rw [heach] at hadded
      exact returned_congr hgrounded rfl hadded.subset
    · have hfold := foldl_event heach
      rw [hclosed] at hfold
      rw [← hfold]
      exact foldl_event_exact hgrounded evs

/-- **When the readers return what was ingested.** After any calls, on any connection. -/
theorem content_returned_iff (conn : Connection) (calls : List Call) :
    (calls.foldl call ⟨conn, []⟩).Returned ↔
      Meets (fun s c => some (call s c)) Keeps ⟨conn, []⟩ calls := by
  have hnone : (⟨conn, []⟩ : Log).Grounded := fun _ hp => (List.not_mem_nil hp).elim
  have hreturned : (⟨conn, []⟩ : Log).Returned := fun _ hp => (List.not_mem_nil hp).elim
  have hrun := run_total call ⟨conn, []⟩ calls
  refine (run_keeps_iff Grounded Returned ?_ ?_ hrun hnone).trans (and_iff_right hreturned)
  · rintro s c _ hgrounded ⟨⟩
    exact (call_exact hgrounded c).1
  · rintro s c _ hgrounded ⟨⟩
    exact (call_exact hgrounded c).2

end Steps

/-- A message of 1025 bytes. -/
def longMessage : Event :=
  ⟨0, none, "bot", "message", none, some (String.ofList (List.replicate 1025 'x')), none⟩

theorem longMessage_lost :
    let _ := ContentHash.checksum
    let _ := FloatText.zero
    let _ := ZstdCompress.storing
    let _ := Refusal.never
    let _ := Scan.byId
    ¬((Log.mk ⟨Db.new true, none⟩ []).call (.event longMessage)).Returned := by
  intro _ _ _ _ _ h
  have hread := h (longMessage, 1) (List.mem_singleton_self _)
  obtain ⟨r, hr, -, hcontent, -⟩ := reads_iff.mp hread
  obtain rfl := List.mem_singleton.mp hr
  revert hcontent
  decide +kernel

end Log

end SynapseMemory.Events
