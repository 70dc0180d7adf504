import SynapseMemory.EventBatch

/-!
# The bounds of a session

A session row is made with the time of the first event of the session that gets a row, and each
later one sets `ended_at` to its own time. So the row has the bounds of the session exactly if its
events come with the earliest one first and the latest one last, and there are two of them at least
(`ingestAll_bounds_iff`).
-/

namespace SynapseMemory.Events

/-! ## What a session row is made of -/

/-- What an upsert makes of a session row. -/
def SessionRow.upsert (row : Option SessionRow) (ev : Event) : SessionRow :=
  match row with
  | some row => { row with endedAt := some ev.ts }
  | none => ⟨ev.agent, ev.ts, none⟩

/-- The row of a session with these events. -/
def sessionOf (events : List Event) : Option SessionRow :=
  events.foldl (fun row ev => some (SessionRow.upsert row ev)) none

@[simp] theorem sessionOf_nil : sessionOf [] = none := rfl

@[simp] theorem sessionOf_append_singleton (events : List Event) (ev : Event) :
    sessionOf (events ++ [ev]) = some (SessionRow.upsert (sessionOf events) ev) := by
  simp [sessionOf]

@[simp] theorem sessionOf_singleton (ev : Event) : sessionOf [ev] = some ⟨ev.agent, ev.ts, none⟩ :=
  rfl

/-- The first event makes the row, the last one ends it. -/
theorem sessionOf_first_last (first last : Event) (mid : List Event) :
    sessionOf (first :: mid ++ [last]) = some ⟨first.agent, first.ts, some last.ts⟩ := by
  induction mid using List.reverseRecOn generalizing last with
  | nil => rfl
  | append_singleton mid ev ih =>
    rw [sessionOf_append_singleton, ← List.cons_append, ih]
    rfl

section

variable [ContentHash]

/-- The events that get a row, where these hashes are in the table. -/
def fresh (seen : List Digest) : List Event → List Event
  | [] => []
  | ev :: rest =>
    if ev.dedupKey ∈ seen then fresh seen rest else ev :: fresh (ev.dedupKey :: seen) rest

/-- The hashes matter, not their order. -/
theorem fresh_congr {seen seen' : List Digest} (h : ∀ key, key ∈ seen ↔ key ∈ seen')
    (events : List Event) : fresh seen events = fresh seen' events := by
  induction events generalizing seen seen' with
  | nil => rfl
  | cons ev rest ih =>
    have hnext : ∀ key, key ∈ ev.dedupKey :: seen ↔ key ∈ ev.dedupKey :: seen' := by simp [h]
    simp only [fresh, h, ih h, ih hnext]

end

/-- The events of a session. -/
def ofSession (sid : String) (events : List Event) : List Event :=
  events.filter fun ev => ev.sessionId = some sid

theorem ofSession_cons (sid : String) (ev : Event) (rest : List Event) :
    ofSession sid (ev :: rest) = ofSession sid [ev] ++ ofSession sid rest :=
  List.filter_append [ev] rest

/-- The hashes of all events. -/
def Db.hashes (db : Db) : List Digest := db.events.rows.map EventRow.blake3

/-- The times of the rows of a session. -/
def Db.times (db : Db) (sid : String) : List ℤ :=
  (db.events.rows.filter fun r => r.sessionId = some sid).map EventRow.ts

/-- The row of the session has the earliest and the latest time of its events. -/
def Db.Bounds (db : Db) (sid : String) : Prop :=
  ∃ row ∈ db.sessions.lookup sid, IsLeast {ts | ts ∈ db.times sid} row.startedAt ∧
    ∃ ended ∈ row.endedAt, IsGreatest {ts | ts ∈ db.times sid} ended

/-- The earliest event comes first and the latest one last. -/
def FirstLast (events : List Event) : Prop :=
  ∃ first mid last, events = first :: mid ++ [last] ∧
    ∀ ev ∈ events, first.ts ≤ ev.ts ∧ ev.ts ≤ last.ts

section

variable [Refusal]

theorem ensureSession_lookup {db db' : Db} {ev : Event} (h : ensureSession db ev = .ok db')
    (sid : String) : db'.sessions.lookup sid =
      if ev.sessionId = some sid then some (SessionRow.upsert (db.sessions.lookup sid) ev)
      else db.sessions.lookup sid := by
  rw [ensureSession] at h
  cases hsession : ev.sessionId with
  | none =>
    rw [hsession] at h
    cases h
    simp
  | some sid' =>
    simp only [hsession, upsertSession] at h
    split at h
    · cases h
    · cases h
      by_cases heq : sid = sid'
      · subst heq
        rw [AList.lookup_insert, if_pos rfl]
        cases db.sessions.lookup sid <;> rfl
      · rw [AList.lookup_insert_ne heq, if_neg fun hsome => heq (Option.some.inj hsome).symm]

variable [ContentHash] [FloatText] [ZstdCompress]

/-- An insert adds one row, and leaves the sessions alone. -/
theorem insertEvent_sessions {db db' : Db} {ev : Event} {id : ℤ}
    (h : insertEvent db ev = .ok (db', id)) : db'.sessions = db.sessions := by
  rw [insertEvent] at h
  split_ifs at h
  split at h
  · cases h
  · cases h
    rfl

/-- The rows of a session, its events so far being known. -/
structure Db.Follows (db : Db) (sid : String) (events : List Event) : Prop where
  session : db.sessions.lookup sid = sessionOf events
  times : db.times sid = events.map Event.ts

/-- One call that succeeds. -/
theorem ingestEvent_follows {db db' : Db} {ev : Event} {id : ℤ} {sid : String} {before : List Event}
    (h : ingestEvent db ev = (db', .ok id)) (hfollows : db.Follows sid before) :
    if ev.dedupKey ∈ db.hashes then db' = db
    else db'.hashes = db.hashes ++ [ev.dedupKey] ∧
      db'.Follows sid (before ++ ofSession sid [ev]) := by
  rw [ingestEvent] at h
  cases hlookup : db.lookup ev.dedupKey with
  | some i =>
    rw [hlookup] at h
    cases h
    obtain ⟨r, hr, hkey, -⟩ := Db.exists_of_lookup hlookup
    have hmem : ev.dedupKey ∈ db.hashes := List.mem_map.mpr ⟨r, hr, hkey⟩
    rw [if_pos hmem]
  | none =>
    have hnew : ev.dedupKey ∉ db.hashes := fun hmem => by
      obtain ⟨r, hr, hkey⟩ := List.mem_map.mp hmem
      exact Db.lookup_eq_none.mp hlookup r hr hkey
    rw [if_neg hnew]
    simp only [hlookup] at h
    cases hsession : ensureSession db ev with
    | error e =>
      rw [hsession] at h
      cases h
    | ok mid =>
      simp only [hsession] at h
      cases hinsert : insertEvent mid ev with
      | error e =>
        simp only [hinsert] at h
        cases h
      | ok p =>
        simp only [hinsert] at h
        cases h
        have hrows := (insertEvent_ok hinsert).2.1
        rw [(ensureSession_ok hsession).1] at hrows
        refine ⟨by simp [Db.hashes, hrows, newRow], ?_, ?_⟩
        · rw [insertEvent_sessions hinsert, ensureSession_lookup hsession, hfollows.session,
            ofSession]
          split_ifs with hown
          · simp [hown]
          · simp [hown]
        · have htimes := hfollows.times
          simp only [Db.times] at htimes
          simp only [Db.times, hrows, List.filter_append, List.map_append, htimes, ofSession]
          by_cases hown : ev.sessionId = some sid
          · simp [hown, newRow]
          · simp [hown, newRow]

/-- Calls one by one: the events of the session that get a row follow each other. -/
theorem ingestEach_follows {sid : String} {events : List Event} {db db' : Db} {ids : List ℤ}
    {before : List Event} (h : ingestEach db events = (db', .ok ids))
    (hfollows : db.Follows sid before) :
    db'.Follows sid (before ++ ofSession sid (fresh db.hashes events)) := by
  induction events generalizing db before ids with
  | nil =>
    cases h
    simpa [fresh, ofSession] using hfollows
  | cons ev rest ih =>
    rw [ingestEach] at h
    split at h
    next => cases h
    next mid id hcall =>
      split at h
      next => cases h
      next hrest =>
        cases h
        have hstep := ingestEvent_follows hcall hfollows
        split_ifs at hstep with hmem
        · subst hstep
          rw [fresh, if_pos hmem]
          exact ih hrest hfollows
        · obtain ⟨hhashes, hnext⟩ := hstep
          have hlast := ih hrest hnext
          have hseen : fresh mid.hashes rest = fresh (ev.dedupKey :: db.hashes) rest :=
            fresh_congr (fun key => by simp [hhashes, or_comm]) rest
          rw [hseen, List.append_assoc] at hlast
          rwa [fresh, if_neg hmem, ofSession_cons]

end

/-- The row of a session has its bounds if its events are in order. -/
theorem Db.Follows.bounds_iff {db : Db} {sid : String} {events : List Event}
    (h : db.Follows sid events) : db.Bounds sid ↔ FirstLast events := by
  have hmem : ∀ ts, ts ∈ db.times sid ↔ ∃ ev ∈ events, ev.ts = ts := by simp [h.times]
  constructor
  · rintro ⟨row, hrow, ⟨-, hleast⟩, ended, hended, -, hgreatest⟩
    rw [h.session, Option.mem_def] at hrow
    cases events with
    | nil => cases hrow
    | cons first rest =>
      cases rest using List.reverseRecOn with
      | nil =>
        cases hrow
        cases hended
      | append_singleton mid last =>
        rw [← List.cons_append, sessionOf_first_last] at hrow
        cases hrow
        cases hended
        refine ⟨first, mid, last, rfl, fun ev hev => ⟨?_, ?_⟩⟩
        · exact hleast ((hmem _).mpr ⟨ev, hev, rfl⟩)
        · exact hgreatest ((hmem _).mpr ⟨ev, hev, rfl⟩)
  · rintro ⟨first, mid, last, rfl, hbetween⟩
    refine ⟨_, h.session.trans (sessionOf_first_last first last mid), ⟨?_, ?_⟩, _, rfl, ?_, ?_⟩
    · exact (hmem _).mpr ⟨first, by simp, rfl⟩
    · rintro ts hts
      obtain ⟨ev, hev, rfl⟩ := (hmem ts).mp hts
      exact (hbetween ev hev).1
    · exact (hmem _).mpr ⟨last, by simp, rfl⟩
    · rintro ts hts
      obtain ⟨ev, hev, rfl⟩ := (hmem ts).mp hts
      exact (hbetween ev hev).2

/-! ## Single events and batches -/

/-- A call of `ingest_event` or `ingest_events`. -/
inductive Ingest where
  | one (ev : Event)
  | batch (events : List Event)

/-- The events that a call is given. -/
def Ingest.events : Ingest → List Event
  | one ev => [ev]
  | batch events => events

section

variable [Refusal] [ContentHash] [FloatText] [ZstdCompress]

/-- The connection after a call, with the error if it fails. -/
def Ingest.call (c : Connection) : Ingest → Connection × Except UltraError Unit
  | one ev =>
    match ingestEvent c.db ev with
    | (db, .error e) => ({ c with db }, .error e)
    | (db, .ok _) => ({ c with db }, .ok ())
  | batch events =>
    match ingestEvents c events with
    | (c, .error e) => (c, .error e)
    | (c, .ok _) => (c, .ok ())

/-- The calls, up to the first that fails. -/
def ingestAll (c : Connection) : List Ingest → Connection × Except UltraError Unit
  | [] => (c, .ok ())
  | call :: rest =>
    match call.call c with
    | (c, .error e) => (c, .error e)
    | (c, .ok ()) => ingestAll c rest

/-- A call does what its events do one by one. -/
theorem Ingest.call_each {c c' : Connection} {call : Ingest} (h : call.call c = (c', .ok ())) :
    ∃ ids, ingestEach c.db call.events = (c'.db, .ok ids) := by
  cases call with
  | one ev =>
    rw [Ingest.call] at h
    split at h
    next => cases h
    next db id hcall =>
      cases h
      exact ⟨[id], by simp [Ingest.events, ingestEach, hcall]⟩
  | batch events =>
    rw [Ingest.call] at h
    split at h
    next => cases h
    next mid n hbatch =>
      cases h
      obtain ⟨ids, heach, -⟩ := (ingestEvents_refines c events).1 n (by rw [hbatch])
      rw [hbatch] at heach
      exact ⟨ids, heach⟩

theorem ingestEach_append {db mid db' : Db} {events rest : List Event} {ids ids' : List ℤ}
    (h : ingestEach db events = (mid, .ok ids)) (hrest : ingestEach mid rest = (db', .ok ids')) :
    ∃ ids, ingestEach db (events ++ rest) = (db', .ok ids) := by
  induction events generalizing db ids with
  | nil =>
    cases h
    exact ⟨ids', hrest⟩
  | cons ev events ih =>
    rw [ingestEach] at h
    split at h
    next => cases h
    next next id hcall =>
      split at h
      next => cases h
      next ids hevents =>
        cases h
        obtain ⟨all, hall⟩ := ih hevents
        exact ⟨id :: all, by simp [ingestEach, hcall, hall]⟩

theorem ingestAll_each {c c' : Connection} {calls : List Ingest}
    (h : ingestAll c calls = (c', .ok ())) :
    ∃ ids, ingestEach c.db (calls.flatMap Ingest.events) = (c'.db, .ok ids) := by
  induction calls generalizing c with
  | nil =>
    cases h
    exact ⟨[], rfl⟩
  | cons call rest ih =>
    rw [ingestAll] at h
    split at h
    next => cases h
    next mid hcall =>
      obtain ⟨ids, heach⟩ := Ingest.call_each hcall
      obtain ⟨ids', hrest⟩ := ih h
      exact ingestEach_append heach hrest

/-- **When a session row has the bounds of its session.** After calls that succeed, single ones and
batches, where the session was not there before. -/
theorem ingestAll_bounds_iff {c c' : Connection} {calls : List Ingest} {sid : String}
    (h : ingestAll c calls = (c', .ok ())) (hsession : sid ∉ c.db.sessions)
    (hevents : ∀ r ∈ c.db.events.rows, r.sessionId ≠ some sid) :
    c'.db.Bounds sid ↔
      FirstLast (ofSession sid (fresh c.db.hashes (calls.flatMap Ingest.events))) := by
  have hstart : c.db.Follows sid [] := by
    refine ⟨AList.lookup_eq_none.mpr hsession, ?_⟩
    simpa [Db.times] using hevents
  obtain ⟨ids, heach⟩ := ingestAll_each h
  exact (ingestEach_follows heach hstart).bounds_iff

end

/-- Two events in the order of their times. -/
def ordered : List Ingest :=
  [.one ⟨0, some "s1", "bot", "message", none, some "hi", none⟩,
    .batch [⟨5, some "s1", "bot", "message", none, some "ho", none⟩]]

theorem ordered_bounds :
    let _ := ContentHash.checksum
    let _ := FloatText.zero
    let _ := ZstdCompress.off
    let _ := Refusal.never
    (ingestAll ⟨Db.new true, none⟩ ordered).1.db.Bounds "s1" := by
  intro _ _ _ _
  have hgoes : ingestAll ⟨Db.new true, none⟩ ordered =
      ((ingestAll ⟨Db.new true, none⟩ ordered).1, .ok ()) := rfl
  refine (ingestAll_bounds_iff hgoes (by decide) (by decide)).mpr ?_
  have hown : ofSession "s1" (fresh (Db.new true).hashes (ordered.flatMap Ingest.events)) =
      ordered.flatMap Ingest.events := rfl
  rw [hown]
  exact ⟨_, [], _, rfl, by simp [ordered, Ingest.events]⟩

/-- The later event comes first. -/
def reversed : List Ingest :=
  [.one ⟨5, some "s1", "bot", "message", none, some "ho", none⟩,
    .one ⟨0, some "s1", "bot", "message", none, some "hi", none⟩]

theorem reversed_bounds :
    let _ := ContentHash.checksum
    let _ := FloatText.zero
    let _ := ZstdCompress.off
    let _ := Refusal.never
    (ingestAll ⟨Db.new true, none⟩ reversed).2 = .ok () ∧
      ¬(ingestAll ⟨Db.new true, none⟩ reversed).1.db.Bounds "s1" := by
  intro _ _ _ _
  refine ⟨rfl, ?_⟩
  rintro ⟨row, hrow, ⟨-, hleast⟩, -⟩
  obtain rfl : ⟨"bot", 5, some 0⟩ = row := Option.some.inj hrow
  exact absurd (hleast (show (0 : ℤ) ∈ [5, 0] by decide)) (by decide)

end SynapseMemory.Events
