import SynapseMemory.Bytes
import SynapseMemory.Joining
import SynapseMemory.JsonText
import SynapseMemory.Store
import SynapseMemory.Transition

/-!
# The event log

The model of `synapse-ultra`'s `ingest_event` and of the tables `sessions` and `synapse_events` that
it writes. An event is known again by the hash of its session, agent, kind, uri and content, joined
with the byte `0x1f`: a call that finds the hash in the table returns the id of that row.

Joining loses two things: that an absent string is not an empty one, and which of the separators
were in the strings. So two events get the same row exactly if they give the same pieces, cut at
every separator (`same_id_iff`), and the log is exact as long as no call meets an event that reads
like its own and is another one (`dedup_exact_iff`).
-/

namespace SynapseMemory.Events

open Transition Joining

/-- `Event` -/
structure Event where
  ts : ℤ
  sessionId : Option String
  agent : String
  kind : String
  uri : Option String
  content : Option String
  meta_ : Option Json

/-- The bytes of a string, none if it is absent. -/
def optionBytes (s : Option String) : Bytes := s.elim [] Bytes.ofString

/-- What `dedup_key` hashes. -/
def Event.keyInput (ev : Event) : Bytes :=
  optionBytes ev.sessionId ++ [0x1f] ++ Bytes.ofString ev.agent ++ [0x1f] ++
    Bytes.ofString ev.kind ++ [0x1f] ++ optionBytes ev.uri ++ [0x1f] ++ optionBytes ev.content

/-- `dedup_key` -/
def Event.dedupKey [ContentHash] (ev : Event) : Digest := ContentHash.blake3 ev.keyInput

/-- The feature `zstd-compress`, and what the library makes of a content. -/
class ZstdCompress where
  enabled : Bool
  encodeAll : Bytes → Except String Bytes

/-- Without the feature. -/
@[reducible] def ZstdCompress.off : ZstdCompress := ⟨false, fun b => .ok b⟩

/-- The columns `content` and `content_zst`. -/
def storedContent [ZstdCompress] (content : Option String) : Option String × Option Bytes :=
  if ZstdCompress.enabled then
    match content with
    | some c =>
      if (Bytes.ofString c).length > 1024 then
        match ZstdCompress.encodeAll (Bytes.ofString c) with
        | .ok blob => (none, some blob)
        | .error _ => (some c, none)
      else (some c, none)
    | none => (none, none)
  else (content, none)

/-- A row of the table `events`. -/
structure EventRow where
  id : ℤ
  ts : ℤ
  sessionId : Option String
  agent : String
  kind : String
  uri : Option String
  content : Option String
  contentZst : Option Bytes
  blake3 : Digest
  meta_ : Option Text
  deriving DecidableEq

/-- Only the id of an event is constrained: the index on `blake3` is not a unique one. -/
def eventSchema : Schema EventRow ℤ Unit where
  id := EventRow.id
  key := EventRow.id
  alt := fun _ => none

/-- A row of the table `sessions`. -/
structure SessionRow where
  agent : String
  startedAt : ℤ
  endedAt : Option ℤ
  deriving DecidableEq

/-- The tables that an event is written to. -/
structure Db where
  sessions : AList fun _ : String => SessionRow
  events : Table eventSchema
  /-- `PRAGMA foreign_keys` -/
  foreignKeys : Bool

/-- The tables as `migrate` makes them. -/
def Db.new (foreignKeys : Bool) : Db := ⟨∅, Table.empty, foreignKeys⟩

/-- `UltraError` of the ultra store. -/
inductive UltraError where
  | sqlite (message : String)
  deriving DecidableEq

/-- What keeps a statement from going through besides the constraints modelled here: a trigger, a
lock, a full disk. -/
class Refusal where
  session : Db → String → String → ℤ → Option String
  event : Db → EventRow → Option String
  commit : Db → Option String

/-- The rules of a database that refuses no statement. -/
@[reducible] def Refusal.never : Refusal := ⟨fun _ _ _ _ => none, fun _ _ => none, fun _ => none⟩

/-- `SELECT id FROM synapse_events WHERE blake3 = ?1` -/
def Db.lookup (db : Db) (key : Digest) : Option ℤ :=
  (db.events.rows.find? fun r => r.blake3 = key).map EventRow.id

/-- An event may name this session. -/
def Db.Referable (db : Db) (sessionId : Option String) : Prop :=
  db.foreignKeys = true → ∀ sid ∈ sessionId, sid ∈ db.sessions

instance (db : Db) (sessionId : Option String) : Decidable (db.Referable sessionId) :=
  inferInstanceAs (Decidable (db.foreignKeys = true → ∀ sid ∈ sessionId, sid ∈ db.sessions))

section Insert

variable [ContentHash] [FloatText] [ZstdCompress]

/-- The row of an event. -/
def newRow (db : Db) (ev : Event) : EventRow where
  id := db.events.seq + 1
  ts := ev.ts
  sessionId := ev.sessionId
  agent := ev.agent
  kind := ev.kind
  uri := ev.uri
  content := (storedContent ev.content).1
  contentZst := (storedContent ev.content).2
  blake3 := ev.dedupKey
  meta_ := ev.meta_.map Json.render

/-- The `INSERT` into `synapse_events`. -/
def insertEvent [Refusal] (db : Db) (ev : Event) : Except UltraError (Db × ℤ) :=
  if ¬db.events.seq < maxRowid then .error (.sqlite "database or disk is full")
  else if ¬db.Referable ev.sessionId then .error (.sqlite "FOREIGN KEY constraint failed")
  else
    match Refusal.event db (newRow db ev) with
    | some message => .error (.sqlite message)
    | none =>
      .ok ({ db with
        events := db.events.insert (newRow db ev) rfl
          (fun r hr => ne_of_lt (Int.lt_add_one_of_le (db.events.le_seq r hr)))
          (fun _ _ _ h => nomatch h) }, db.events.seq + 1)

end Insert

section Ingest

variable [Refusal]

/-- The upsert of a session row. -/
def upsertSession (db : Db) (sid agent : String) (ts : ℤ) : Except UltraError Db :=
  match Refusal.session db sid agent ts with
  | some message => .error (.sqlite message)
  | none =>
    let row : SessionRow :=
      match db.sessions.lookup sid with
      | some row => { row with endedAt := some ts }
      | none => ⟨agent, ts, none⟩
    .ok { db with sessions := db.sessions.insert sid row }

/-- The session of the event, if it has one, is in its table. -/
def ensureSession (db : Db) (ev : Event) : Except UltraError Db :=
  match ev.sessionId with
  | some sid => upsertSession db sid ev.agent ev.ts
  | none => .ok db

variable [ContentHash] [FloatText] [ZstdCompress]

/-- The statements stand in no transaction: if the last one fails, the session row is there. -/
def ingestEvent (db : Db) (ev : Event) : Db × Except UltraError ℤ :=
  match db.lookup ev.dedupKey with
  | some id => (db, .ok id)
  | none =>
    match ensureSession db ev with
    | .error e => (db, .error e)
    | .ok db =>
      match insertEvent db ev with
      | .error e => (db, .error e)
      | .ok (db, id) => (db, .ok id)

end Ingest

/-! ## What each statement does -/

theorem Db.lookup_eq_none {db : Db} {key : Digest} :
    db.lookup key = none ↔ ∀ r ∈ db.events.rows, r.blake3 ≠ key := by
  rw [Db.lookup, Option.map_eq_none_iff, List.find?_eq_none]
  simp

theorem Db.exists_of_lookup {db : Db} {key : Digest} {id : ℤ} (h : db.lookup key = some id) :
    ∃ r ∈ db.events.rows, r.blake3 = key ∧ r.id = id := by
  obtain ⟨r, hfind, hid⟩ := Option.map_eq_some_iff.mp h
  exact ⟨r, List.mem_of_find?_eq_some hfind, by simpa using List.find?_some hfind, hid⟩

/-- An upsert leaves the events alone, and the foreign key of its event finds its session. -/
theorem ensureSession_ok [Refusal] {db db' : Db} {ev : Event} (h : ensureSession db ev = .ok db') :
    db'.events = db.events ∧ db'.Referable ev.sessionId := by
  rw [ensureSession] at h
  cases hsession : ev.sessionId with
  | none =>
    rw [hsession] at h
    cases h
    exact ⟨rfl, fun _ sid hsid => nomatch hsid⟩
  | some sid =>
    simp only [hsession, upsertSession] at h
    split at h
    · cases h
    · cases h
      refine ⟨rfl, fun _ sid' hsid => ?_⟩
      obtain rfl := Option.some.inj hsid
      exact AList.mem_insert _ |>.mpr (.inl rfl)

section Spec

variable [ContentHash] [FloatText] [ZstdCompress] [Refusal]

/-- The insert of an event goes through. -/
def Db.Accepts (db : Db) (ev : Event) : Prop :=
  db.events.seq < maxRowid ∧ db.Referable ev.sessionId ∧ Refusal.event db (newRow db ev) = none

instance (db : Db) (ev : Event) : Decidable (db.Accepts ev) :=
  inferInstanceAs (Decidable (db.events.seq < maxRowid ∧ db.Referable ev.sessionId ∧
    Refusal.event db (newRow db ev) = none))

/-- What an insert that goes through does. -/
theorem insertEvent_ok {db db' : Db} {ev : Event} {id : ℤ}
    (h : insertEvent db ev = .ok (db', id)) :
    db.Accepts ev ∧ db'.events.rows = db.events.rows ++ [newRow db ev] ∧
      id = (newRow db ev).id := by
  rw [insertEvent] at h
  split_ifs at h with hroom hrefer
  cases hrefuse : Refusal.event db (newRow db ev) with
  | some message =>
    rw [hrefuse] at h
    cases h
  | none =>
    rw [hrefuse] at h
    cases h
    exact ⟨⟨hroom, hrefer, hrefuse⟩, rfl, rfl⟩

/-- An event that is accepted goes through. -/
theorem insertEvent_of_accepts {db : Db} {ev : Event} (h : db.Accepts ev) :
    ∃ db' id, insertEvent db ev = .ok (db', id) := by
  obtain ⟨hroom, hrefer, hrefuse⟩ := h
  rw [insertEvent, if_neg (not_not.mpr hroom), if_neg (not_not.mpr hrefer), hrefuse]
  exact ⟨_, _, rfl⟩

/-- What a call does to the events and returns: it finds its hash, or it appends its row, or it
fails. -/
theorem ingestEvent_cases (db : Db) (ev : Event) :
    (∃ r ∈ db.events.rows, r.blake3 = ev.dedupKey ∧ ingestEvent db ev = (db, .ok r.id)) ∨
      (∀ r ∈ db.events.rows, r.blake3 ≠ ev.dedupKey) ∧
        ((∃ db' db'', ingestEvent db ev = (db'', .ok (newRow db' ev).id) ∧
            db''.events.rows = db.events.rows ++ [newRow db' ev]) ∨
          ∃ db' e, ingestEvent db ev = (db', .error e) ∧ db'.events = db.events) := by
  cases hlookup : db.lookup ev.dedupKey with
  | some id =>
    obtain ⟨r, hr, hkey, rfl⟩ := Db.exists_of_lookup hlookup
    exact .inl ⟨r, hr, hkey, by rw [ingestEvent, hlookup]⟩
  | none =>
    refine .inr ⟨Db.lookup_eq_none.mp hlookup, ?_⟩
    simp only [ingestEvent, hlookup]
    cases hsession : ensureSession db ev with
    | error e => exact .inr ⟨db, e, rfl, rfl⟩
    | ok db' =>
      obtain ⟨hevents, -⟩ := ensureSession_ok hsession
      cases hinsert : insertEvent db' ev with
      | error e => exact .inr ⟨db', e, by simp only [hinsert], hevents⟩
      | ok p =>
        obtain ⟨db'', id⟩ := p
        obtain ⟨-, hrows, rfl⟩ := insertEvent_ok hinsert
        exact .inl ⟨db', db'', by simp only [hinsert], by rw [hrows, hevents]⟩

end Spec

/-! ## Which events get the same row -/

/-- The fields that tell events apart. -/
def Event.fields (ev : Event) :
    Option String × String × String × Option String × Option String :=
  (ev.sessionId, ev.agent, ev.kind, ev.uri, ev.content)

/-- The fields as they are joined. -/
def Event.parts (ev : Event) : List Bytes :=
  [optionBytes ev.sessionId, Bytes.ofString ev.agent, Bytes.ofString ev.kind, optionBytes ev.uri,
    optionBytes ev.content]

/-- What is left of an event in its hash: the fields cut at every separator, an absent one as an
empty one. -/
def Event.reading (ev : Event) : List Bytes := pieces 0x1f ev.parts

theorem keyInput_eq (ev : Event) : ev.keyInput = [0x1f].intercalate ev.parts := by
  simp [Event.keyInput, Event.parts, List.intercalate, List.intersperse]

theorem keyInput_inj {a b : Event} : a.keyInput = b.keyInput ↔ a.reading = b.reading := by
  rw [keyInput_eq, keyInput_eq]
  exact intercalate_eq_iff (List.cons_ne_nil _ _) (List.cons_ne_nil _ _)

/-- Events with the same fields are read alike. -/
theorem reading_of_fields {a b : Event} (h : a.fields = b.fields) : a.reading = b.reading := by
  simp only [Event.fields, Prod.mk.injEq] at h
  obtain ⟨hsession, hagent, hkind, huri, hcontent⟩ := h
  rw [Event.reading, Event.reading, Event.parts, Event.parts, hsession, hagent, hkind, huri,
    hcontent]

/-- No string of the event has a separator in it, and none that may be absent is empty. -/
structure Event.Plain (ev : Event) : Prop where
  notMem : ∀ part ∈ ev.parts, 0x1f ∉ part
  session_ne : ev.sessionId ≠ some ""
  uri_ne : ev.uri ≠ some ""
  content_ne : ev.content ≠ some ""

theorem optionBytes_eq (s : Option String) : optionBytes s = Bytes.ofString (s.getD "") := by
  cases s with
  | none => rfl
  | some s => rfl

theorem optionBytes_inj {s t : Option String} (hs : s ≠ some "") (ht : t ≠ some "")
    (h : optionBytes s = optionBytes t) : s = t := by
  rw [optionBytes_eq, optionBytes_eq] at h
  exact Option.eq_of_getD_eq hs ht (Bytes.ofString_inj.mp h)

/-- Plain events read the same only if they are the same. -/
theorem Event.Plain.fields_eq {a b : Event} (ha : a.Plain) (hb : b.Plain)
    (h : a.reading = b.reading) : a.fields = b.fields := by
  rw [Event.reading, Event.reading, pieces_of_notMem ha.notMem, pieces_of_notMem hb.notMem] at h
  simp only [Event.parts, List.cons.injEq, and_true] at h
  obtain ⟨hsession, hagent, hkind, huri, hcontent⟩ := h
  rw [Event.fields, Event.fields, optionBytes_inj ha.session_ne hb.session_ne hsession,
    Bytes.ofString_inj.mp hagent, Bytes.ofString_inj.mp hkind,
    optionBytes_inj ha.uri_ne hb.uri_ne huri, optionBytes_inj ha.content_ne hb.content_ne hcontent]

/-! ## Sequences of calls -/

/-- The row of an event with these fields. -/
def EventRow.Holds [ZstdCompress] (r : EventRow) (ev : Event) : Prop :=
  r.sessionId = ev.sessionId ∧ r.agent = ev.agent ∧ r.kind = ev.kind ∧ r.uri = ev.uri ∧
    (r.content, r.contentZst) = storedContent ev.content

theorem newRow_holds [ContentHash] [FloatText] [ZstdCompress] (db : Db) (ev : Event) :
    (newRow db ev).Holds ev :=
  ⟨rfl, rfl, rfl, rfl, rfl⟩

/-- A row holds every event with the same fields. -/
theorem EventRow.Holds.of_fields [ZstdCompress] {r : EventRow} {a b : Event} (h : r.Holds a)
    (hfields : a.fields = b.fields) : r.Holds b := by
  simp only [Event.fields, Prod.mk.injEq] at hfields
  obtain ⟨hsession, hagent, hkind, huri, hcontent⟩ := hfields
  rwa [EventRow.Holds, hsession, hagent, hkind, huri, hcontent] at h

/-- A database, and the calls that have succeeded on it with the ids that they returned. -/
structure Ingested where
  db : Db
  calls : List (Event × ℤ)

namespace Ingested

/-- A new database. -/
def new (foreignKeys : Bool) : Ingested := ⟨Db.new foreignKeys, []⟩

/-- Events that read the same are the same. -/
def Distinct (s : Ingested) : Prop :=
  ∀ p ∈ s.calls, ∀ q ∈ s.calls, p.1.reading = q.1.reading → p.1.fields = q.1.fields

/-- No event that was ingested reads like this one and is another. -/
def Apart (s : Ingested) (ev : Event) : Prop :=
  ∀ p ∈ s.calls, p.1.reading = ev.reading → p.1.fields = ev.fields

instance (s : Ingested) (ev : Event) : Decidable (s.Apart ev) :=
  inferInstanceAs (Decidable (∀ p ∈ s.calls, p.1.reading = ev.reading → p.1.fields = ev.fields))

section Rows

variable [ZstdCompress]

/-- Deduplication is exact: two events are in one row if and only if they agree in all fields, and
the rows are those of the events. -/
structure Exact (s : Ingested) : Prop where
  same_iff : ∀ p ∈ s.calls, ∀ q ∈ s.calls, p.2 = q.2 ↔ p.1.fields = q.1.fields
  stored : ∀ p ∈ s.calls, ∃ r ∈ s.db.events.rows, r.id = p.2 ∧ r.Holds p.1
  ingested : ∀ r ∈ s.db.events.rows, ∃ p ∈ s.calls, p.2 = r.id

/-- Two calls with one id and different events. -/
theorem not_exact {s : Ingested} {p q : Event × ℤ} (hcalls : s.calls = [p, q]) (hid : p.2 = q.2)
    (hne : p.1.fields ≠ q.1.fields) : ¬s.Exact := by
  intro h
  refine hne ((h.same_iff p ?_ q ?_).mp hid)
  · exact hcalls ▸ List.mem_cons_self
  · exact hcalls ▸ List.mem_cons_of_mem p List.mem_cons_self

variable [ContentHash]

/-- What holds after any calls. -/
structure Inv (s : Ingested) : Prop where
  hashed : ∀ p ∈ s.calls, ∃ r ∈ s.db.events.rows, r.id = p.2 ∧ r.blake3 = p.1.dedupKey
  once : (s.db.events.rows.map EventRow.blake3).Nodup
  ingested : ∀ r ∈ s.db.events.rows, ∃ p ∈ s.calls, p.2 = r.id ∧ r.Holds p.1

theorem inv_new (foreignKeys : Bool) : (new foreignKeys).Inv :=
  ⟨fun _ hp => (List.not_mem_nil hp).elim, List.nodup_nil, fun _ hr => (List.not_mem_nil hr).elim⟩

/-- Two calls returned the same id exactly if the hashes of their events are the same. -/
theorem Inv.same_id_iff {s : Ingested} (hinv : s.Inv) {p q : Event × ℤ} (hp : p ∈ s.calls)
    (hq : q ∈ s.calls) : p.2 = q.2 ↔ p.1.dedupKey = q.1.dedupKey := by
  obtain ⟨r, hr, hrid, hrkey⟩ := hinv.hashed p hp
  obtain ⟨x, hx, hxid, hxkey⟩ := hinv.hashed q hq
  rw [← hrid, ← hxid, ← hrkey, ← hxkey]
  refine ⟨fun hid => ?_, fun hkey => ?_⟩
  · rw [s.db.events.eq_of_id hr hx hid]
  · rw [List.inj_on_of_nodup_map hinv.once hr hx hkey]

/-- Where the hash does not collide, deduplication is exact if events that read the same are. -/
theorem exact_iff_distinct {s : Ingested} (hinv : s.Inv)
    (hfree : ∀ p ∈ s.calls, ∀ q ∈ s.calls,
      p.1.dedupKey = q.1.dedupKey → p.1.keyInput = q.1.keyInput) : s.Exact ↔ s.Distinct := by
  have hsame : ∀ p ∈ s.calls, ∀ q ∈ s.calls, p.2 = q.2 ↔ p.1.reading = q.1.reading := by
    intro p hp q hq
    rw [hinv.same_id_iff hp hq, ← keyInput_inj]
    exact ⟨hfree p hp q hq, congrArg ContentHash.blake3⟩
  refine ⟨fun h p hp q hq hreading => ?_, fun h => ⟨fun p hp q hq => ?_, fun p hp => ?_, ?_⟩⟩
  · exact (h.same_iff p hp q hq).mp ((hsame p hp q hq).mpr hreading)
  · rw [hsame p hp q hq]
    exact ⟨h p hp q hq, reading_of_fields⟩
  · -- the row holds the event that it was made for, and with it every one of the same reading
    obtain ⟨r, hr, hid, -⟩ := hinv.hashed p hp
    obtain ⟨q, hq, hqid, hholds⟩ := hinv.ingested r hr
    have hreading := (hsame q hq p hp).mp (hqid.trans hid)
    exact ⟨r, hr, hid, hholds.of_fields (h q hq p hp hreading)⟩
  · intro r hr
    obtain ⟨q, hq, hqid, -⟩ := hinv.ingested r hr
    exact ⟨q, hq, hqid⟩

end Rows

section Calls

variable [ContentHash] [FloatText] [ZstdCompress] [Refusal]

/-- `ingest_event`, with the event and the id that it got. -/
def call (s : Ingested) (ev : Event) : Ingested :=
  match ingestEvent s.db ev with
  | (db, .ok id) => ⟨db, s.calls ++ [(ev, id)]⟩
  | (db, .error _) => { s with db }

/-- A call is one more with an id, or it fails where no event before it reads like its own. -/
theorem call_calls {s : Ingested} (hinv : s.Inv) (ev : Event) :
    (∃ id, (s.call ev).calls = s.calls ++ [(ev, id)]) ∨
      (s.call ev).calls = s.calls ∧ ∀ p ∈ s.calls, p.1.reading ≠ ev.reading := by
  rcases ingestEvent_cases s.db ev with
    ⟨r, -, -, hcall⟩ | ⟨hnone, ⟨db', db'', hcall, -⟩ | ⟨db', e, hcall, -⟩⟩
  · exact .inl ⟨r.id, by rw [call, hcall]⟩
  · exact .inl ⟨(newRow db' ev).id, by rw [call, hcall]⟩
  · refine .inr ⟨by rw [call, hcall], fun p hp hreading => ?_⟩
    obtain ⟨r, hr, -, hkey⟩ := hinv.hashed p hp
    refine hnone r hr (hkey.trans ?_)
    rw [Event.dedupKey, Event.dedupKey, keyInput_inj.mpr hreading]

/-- What one call preserves. -/
theorem inv_call {s : Ingested} (hinv : s.Inv) (ev : Event) : (s.call ev).Inv := by
  rcases ingestEvent_cases s.db ev with
    ⟨r, hr, hkey, hcall⟩ | ⟨hnone, ⟨db', db'', hcall, hrows⟩ | ⟨db', e, hcall, hevents⟩⟩
  · -- the row is there
    rw [call, hcall]
    refine ⟨fun p hp => ?_, hinv.once, fun x hx => ?_⟩
    · rcases List.mem_append.mp hp with hp | hp
      · exact hinv.hashed p hp
      · obtain rfl := List.mem_singleton.mp hp
        exact ⟨r, hr, rfl, hkey⟩
    · obtain ⟨p, hp, hid⟩ := hinv.ingested x hx
      exact ⟨p, List.mem_append_left _ hp, hid⟩
  · -- a new row, with a hash that no other has
    rw [call, hcall]
    refine ⟨fun p hp => ?_, ?_, fun x hx => ?_⟩
    · rw [hrows]
      rcases List.mem_append.mp hp with hp | hp
      · obtain ⟨r, hr, hrow⟩ := hinv.hashed p hp
        exact ⟨r, List.mem_append_left _ hr, hrow⟩
      · obtain rfl := List.mem_singleton.mp hp
        exact ⟨newRow db' ev, List.mem_append_right _ (List.mem_singleton_self _), rfl, rfl⟩
    · rw [hrows, List.map_append]
      refine hinv.once.append (List.nodup_singleton _) ?_
      intro key hkey hnew
      obtain ⟨r, hr, rfl⟩ := List.mem_map.mp hkey
      exact hnone r hr (List.mem_singleton.mp hnew)
    · rw [hrows] at hx
      rcases List.mem_append.mp hx with hx | hx
      · obtain ⟨p, hp, hrow⟩ := hinv.ingested x hx
        exact ⟨p, List.mem_append_left _ hp, hrow⟩
      · obtain rfl := List.mem_singleton.mp hx
        exact ⟨_, List.mem_append_right _ (List.mem_singleton_self _), rfl, newRow_holds db' ev⟩
  · rw [call, hcall]
    exact ⟨by rw [hevents]; exact hinv.hashed, by rw [hevents]; exact hinv.once,
      by rw [hevents]; exact hinv.ingested⟩

/-- A call keeps the rows distinct exactly if its event is apart from all others. -/
theorem distinct_call {s : Ingested} (hinv : s.Inv) (ev : Event) :
    (s.call ev).Distinct ↔ s.Distinct ∧ s.Apart ev := by
  rcases call_calls hinv ev with ⟨id, hcalls⟩ | ⟨hcalls, hnone⟩
  · rw [Distinct, hcalls]
    refine ⟨fun h => ⟨fun p hp q hq => ?_, fun p hp => ?_⟩, ?_⟩
    · exact h p (List.mem_append_left _ hp) q (List.mem_append_left _ hq)
    · exact h p (List.mem_append_left _ hp) (ev, id)
        (List.mem_append_right _ (List.mem_singleton_self _))
    · rintro ⟨hdistinct, hapart⟩ p hp q hq hreading
      rcases List.mem_append.mp hp with hp | hp <;> rcases List.mem_append.mp hq with hq | hq
      · exact hdistinct p hp q hq hreading
      · obtain rfl := List.mem_singleton.mp hq
        exact hapart p hp hreading
      · obtain rfl := List.mem_singleton.mp hp
        exact (hapart q hq hreading.symm).symm
      · obtain rfl := List.mem_singleton.mp hp
        obtain rfl := List.mem_singleton.mp hq
        rfl
  · rw [Distinct, hcalls]
    exact ⟨fun h => ⟨h, fun p hp hreading => absurd hreading (hnone p hp)⟩, And.left⟩

/-- The calls of a sequence are of its events. -/
theorem mem_of_calls {s : Ingested} {evs : List Event} {p : Event × ℤ}
    (hp : p ∈ (evs.foldl call s).calls) : p ∈ s.calls ∨ p.1 ∈ evs := by
  induction evs generalizing s with
  | nil => exact .inl hp
  | cons ev rest ih =>
    rcases ih hp with h | h
    · rw [call] at h
      split at h
      · rcases List.mem_append.mp h with h | h
        · exact .inl h
        · obtain rfl := List.mem_singleton.mp h
          exact .inr List.mem_cons_self
      · exact .inl h
    · exact .inr (List.mem_cons_of_mem ev h)

/-- After any calls, the events that read the same are the same if no call met another one. -/
theorem distinct_iff_meets {s : Ingested} (hinv : s.Inv) (evs : List Event) :
    (evs.foldl call s).Inv ∧ ((evs.foldl call s).Distinct ↔
      s.Distinct ∧ Meets (fun s ev => some (call s ev)) Apart s evs) := by
  have hrun := run_total call s evs
  have hstep : ∀ s ev s', s.Inv → some (call s ev) = some s' → s'.Inv := by
    rintro s ev _ hinv ⟨⟩
    exact inv_call hinv ev
  refine ⟨run_preserves Inv hstep hrun hinv, run_keeps_iff Inv Distinct hstep ?_ hrun hinv⟩
  rintro s ev _ hinv ⟨⟩
  exact distinct_call hinv ev

/-- **When deduplication is exact.** After any calls, where the hash does not collide on their
events. -/
theorem dedup_exact_iff (foreignKeys : Bool) (evs : List Event)
    (hfree : ∀ a ∈ evs, ∀ b ∈ evs, a.dedupKey = b.dedupKey → a.keyInput = b.keyInput) :
    (evs.foldl call (new foreignKeys)).Exact ↔
      Meets (fun s ev => some (call s ev)) Apart (new foreignKeys) evs := by
  obtain ⟨hinv, hdistinct⟩ := distinct_iff_meets (inv_new foreignKeys) evs
  have hmem : ∀ p ∈ (evs.foldl call (new foreignKeys)).calls, p.1 ∈ evs := fun p hp =>
    (mem_of_calls hp).resolve_left List.not_mem_nil
  rw [exact_iff_distinct hinv fun p hp q hq => hfree p.1 (hmem p hp) q.1 (hmem q hq), hdistinct]
  exact and_iff_right fun _ hp => (List.not_mem_nil hp).elim

end Calls

/-- A message, the same once more, and another. -/
def repeated : List Event :=
  [⟨0, some "s1", "bot", "message", none, some "hi", none⟩,
    ⟨5, some "s1", "bot", "message", none, some "hi", none⟩,
    ⟨6, none, "bot", "message", none, some "hi", none⟩]

/-- The repeated event makes one row. -/
theorem repeated_exact :
    let _ := ContentHash.checksum
    let _ := FloatText.zero
    let _ := ZstdCompress.off
    let _ := Refusal.never
    (repeated.foldl call (new true)).Exact := by
  intro _ _ _ _
  exact (dedup_exact_iff true repeated (by decide +kernel)).mpr (by decide +kernel)

/-- Without a session, and with one of an empty name. -/
def emptySession : List Event :=
  [⟨0, none, "bot", "message", none, some "hi", none⟩,
    ⟨0, some "", "bot", "message", none, some "hi", none⟩]

/-- The separator in the uri, and in the content. -/
def movedSeparator : List Event :=
  [⟨0, none, "bot", "message", some "a\x1fb", some "c", none⟩,
    ⟨0, none, "bot", "message", some "a", some "b\x1fc", none⟩]

/-- Two different events are taken for one. -/
theorem different_collapsed :
    let _ := ContentHash.checksum
    let _ := FloatText.zero
    let _ := ZstdCompress.off
    let _ := Refusal.never
    ¬(emptySession.foldl call (new true)).Exact ∧
    ¬(movedSeparator.foldl call (new true)).Exact := by
  intro _ _ _ _
  refine ⟨?_, ?_⟩
  · exact not_exact (p := (emptySession[0], 1)) (q := (emptySession[1], 1)) rfl rfl (by decide)
  · exact not_exact (p := (movedSeparator[0], 1)) (q := (movedSeparator[1], 1)) rfl rfl (by decide)

end Ingested

end SynapseMemory.Events
