import SynapseMemory.Events

/-!
# Several writers of one event log

`ingest_event` is up to three statements on a connection: it looks its hash up, it upserts the
session, and it inserts the row. No transaction holds them together, and the index on the hash is
not a unique one, so that a row which another connection inserts after the lookup does not keep the
insert from going through.

Nothing takes a row out again. So the hashes are distinct after a run exactly if no insert went
through after another connection had inserted its hash.
-/

namespace SynapseMemory.Events

open Transition

/-- The statement that a call comes to next. -/
inductive Next where
  | upsertSession (ev : Event)
  | insert (ev : Event)

/-- The database, and for each connection where the call is that it is in. -/
structure Connections (ι : Type) where
  db : Db
  pending : ι → Option Next

/-- A statement of a connection. -/
inductive Stmt (ι : Type) where
  | lookup (i : ι) (ev : Event)
  | upsertSession (i : ι)
  | insert (i : ι)

/-- No two rows have the same hash. -/
def Db.NoDuplicates (db : Db) : Prop := (db.events.rows.map EventRow.blake3).Nodup

instance (db : Db) : Decidable db.NoDuplicates :=
  inferInstanceAs (Decidable (db.events.rows.map EventRow.blake3).Nodup)

/-- The statement after a lookup that found nothing. -/
def afterLookup (ev : Event) : Next := if ev.sessionId = none then .insert ev else .upsertSession ev

/-- A new database that no connection writes to. -/
def Connections.new (ι : Type) (foreignKeys : Bool) : Connections ι :=
  ⟨Db.new foreignKeys, fun _ => none⟩

section

variable {ι : Type} [DecidableEq ι]

/-- The database is this one now, and the connection has come to this statement. -/
def Connections.goTo (c : Connections ι) (db : Db) (i : ι) (next : Option Next) : Connections ι :=
  ⟨db, Function.update c.pending i next⟩

@[simp] theorem goTo_db (c : Connections ι) (db : Db) (i : ι) (next : Option Next) :
    (c.goTo db i next).db = db := rfl

@[simp] theorem goTo_pending (c : Connections ι) (db : Db) (i : ι) (next : Option Next) :
    (c.goTo db i next).pending i = next := by
  simp [Connections.goTo]

variable [ContentHash] [FloatText] [ZstdCompress] [Refusal]

/-- The database that an insert leaves. -/
def afterInsert (db : Db) (ev : Event) : Db :=
  match insertEvent db ev with
  | .ok (db, _) => db
  | .error _ => db

/-- Execute a statement. A connection is in one call at a time, and a call ends with the row that
its lookup finds, with an upsert that fails, or with its insert. -/
def Connections.step (c : Connections ι) : Stmt ι → Option (Connections ι)
  | .lookup i ev =>
    match c.pending i with
    | some _ => none
    | none =>
      match c.db.lookup ev.dedupKey with
      | some _ => some c
      | none => some (c.goTo c.db i (some (afterLookup ev)))
  | .upsertSession i =>
    match c.pending i with
    | some (.upsertSession ev) =>
      match ensureSession c.db ev with
      | .ok db => some (c.goTo db i (some (.insert ev)))
      | .error _ => some (c.goTo c.db i none)
    | _ => none
  | .insert i =>
    match c.pending i with
    | some (.insert ev) => some (c.goTo (afterInsert c.db ev) i none)
    | _ => none

/-- An insert that goes through finds no row with its hash. -/
def Unraced (c : Connections ι) : Stmt ι → Prop
  | .insert i => ∀ ev, c.pending i = some (.insert ev) → c.db.Accepts ev →
      c.db.lookup ev.dedupKey = none
  | _ => True

instance (c : Connections ι) : (a : Stmt ι) → Decidable (Unraced c a)
  | .insert i =>
    match h : c.pending i with
    | some (.insert ev) =>
      decidable_of_iff (c.db.Accepts ev → c.db.lookup ev.dedupKey = none)
        ⟨fun hev ev' hev' => by cases h.symm.trans hev'; exact hev, fun hall => hall ev h⟩
    | some (.upsertSession _) => .isTrue fun ev hev => by cases h.symm.trans hev
    | none => .isTrue fun ev hev => by cases h.symm.trans hev
  | .lookup _ _ => inferInstanceAs (Decidable True)
  | .upsertSession _ => inferInstanceAs (Decidable True)

/-! ## One call by itself -/

/-- After a lookup that finds nothing, a call is its upsert and its insert. -/
theorem ingestEvent_of_none {db : Db} {ev : Event} (h : db.lookup ev.dedupKey = none) :
    (ingestEvent db ev).1 =
      match ensureSession db ev with
      | .ok db' => afterInsert db' ev
      | .error _ => db := by
  simp only [ingestEvent, h, afterInsert]
  cases ensureSession db ev with
  | error e => rfl
  | ok db' =>
    dsimp only
    cases insertEvent db' ev <;> rfl

/-- A call whose statements follow each other is `ingest_event`. -/
theorem call_alone {c : Connections ι} {i : ι} (hfree : c.pending i = none) (ev : Event) :
    ∃ stmts c', run Connections.step c stmts = some c' ∧ c'.pending i = none ∧
      c'.db = (ingestEvent c.db ev).1 := by
  cases hlookup : c.db.lookup ev.dedupKey with
  | some id =>
    have hstep : c.step (.lookup i ev) = some c := by
      simp only [Connections.step, hfree, hlookup]
    exact ⟨[.lookup i ev], c, run_cons.mpr ⟨c, hstep, rfl⟩, hfree, by rw [ingestEvent, hlookup]⟩
  | none =>
    obtain ⟨d, hstep, hdb, hpending⟩ : ∃ d, c.step (.lookup i ev) = some d ∧ d.db = c.db ∧
        d.pending i = some (afterLookup ev) :=
      ⟨c.goTo c.db i _, by simp only [Connections.step, hfree, hlookup], rfl, goTo_pending ..⟩
    -- the insert, wherever the call has come to it
    have hinsert : ∀ d : Connections ι, d.pending i = some (.insert ev) →
        run Connections.step d [.insert i] = some (d.goTo (afterInsert d.db ev) i none) := by
      intro d hd
      exact run_cons.mpr ⟨_, by simp only [Connections.step, hd], rfl⟩
    rw [ingestEvent_of_none hlookup, ← hdb]
    by_cases hsid : ev.sessionId = none
    · rw [afterLookup, if_pos hsid] at hpending
      refine ⟨[.lookup i ev, .insert i], _, run_cons.mpr ⟨d, hstep, hinsert d hpending⟩,
        goTo_pending .., ?_⟩
      rw [ensureSession, hsid]
      rfl
    · rw [afterLookup, if_neg hsid] at hpending
      cases hsession : ensureSession d.db ev with
      | error e =>
        have hupsert : d.step (.upsertSession i) = some (d.goTo d.db i none) := by
          simp only [Connections.step, hpending, hsession]
        exact ⟨[.lookup i ev, .upsertSession i], _,
          run_cons.mpr ⟨d, hstep, run_cons.mpr ⟨_, hupsert, rfl⟩⟩, goTo_pending .., rfl⟩
      | ok db' =>
        have hupsert : d.step (.upsertSession i) = some (d.goTo db' i (some (.insert ev))) := by
          simp only [Connections.step, hpending, hsession]
        exact ⟨[.lookup i ev, .upsertSession i, .insert i], _,
          run_cons.mpr ⟨d, hstep, run_cons.mpr ⟨_, hupsert, hinsert _ (goTo_pending ..)⟩⟩,
          goTo_pending .., rfl⟩

/-! ## Any number of connections -/

/-- What a statement does to the rows. -/
theorem step_cases {c c' : Connections ι} {a : Stmt ι} (h : c.step a = some c') :
    (c'.db.events.rows = c.db.events.rows ∧ Unraced c a) ∨
      ∃ i ev, a = .insert i ∧ c.pending i = some (.insert ev) ∧ c.db.Accepts ev ∧
        c'.db.events.rows = c.db.events.rows ++ [newRow c.db ev] := by
  cases a with
  | lookup i ev =>
    refine .inl ⟨?_, trivial⟩
    rw [Connections.step] at h
    split at h
    · cases h
    · split at h <;> cases h <;> rfl
  | upsertSession i =>
    refine .inl ⟨?_, trivial⟩
    rw [Connections.step] at h
    split at h
    · split at h
      next hsession =>
        cases h
        rw [goTo_db, (ensureSession_ok hsession).1]
      · cases h
        rfl
    · cases h
  | insert i =>
    rw [Connections.step] at h
    split at h
    next ev hpending =>
      cases h
      rw [goTo_db, afterInsert]
      by_cases haccepts : c.db.Accepts ev
      · obtain ⟨db', id, hinsert⟩ := insertEvent_of_accepts haccepts
        rw [hinsert]
        exact .inr ⟨i, ev, rfl, hpending, haccepts, (insertEvent_ok hinsert).2.1⟩
      · refine .inl ⟨?_, fun ev' hev' haccepts' => ?_⟩
        · cases hinsert : insertEvent c.db ev with
          | error e => rfl
          | ok p => exact absurd (insertEvent_ok hinsert).1 haccepts
        · cases hpending.symm.trans hev'
          exact absurd haccepts' haccepts
    · cases h

/-- The hashes stay distinct exactly if the statement is unraced. -/
theorem noDuplicates_step {c c' : Connections ι} {a : Stmt ι} (h : c.step a = some c') :
    c'.db.NoDuplicates ↔ c.db.NoDuplicates ∧ Unraced c a := by
  rcases step_cases h with ⟨hrows, hcond⟩ | ⟨i, ev, rfl, hpending, haccepts, hrows⟩
  · rw [Db.NoDuplicates, hrows, Db.NoDuplicates, and_iff_left hcond]
  · have hunraced : Unraced c (.insert i) ↔ c.db.lookup ev.dedupKey = none := by
      refine ⟨fun h => h ev hpending haccepts, fun h ev' hev' _ => ?_⟩
      cases hpending.symm.trans hev'
      exact h
    rw [hunraced, Db.lookup_eq_none, Db.NoDuplicates, hrows, List.map_append, List.nodup_append]
    refine ⟨fun ⟨hnodup, _, hne⟩ => ⟨hnodup, fun r hr => ?_⟩, fun ⟨hnodup, hne⟩ => ?_⟩
    · exact hne _ (List.mem_map_of_mem hr) _ (List.mem_singleton_self _)
    · refine ⟨hnodup, List.nodup_singleton _, fun key hkey key' hkey' => ?_⟩
      obtain ⟨r, hr, rfl⟩ := List.mem_map.mp hkey
      obtain rfl := List.mem_singleton.mp hkey'
      exact hne r hr

/-- **When the hashes are distinct.** After the statements of any number of connections, in any
order, no two rows have the same hash if and only if no insert went through that found its hash in
the table. -/
theorem interleaving_noDuplicates_iff (foreignKeys : Bool) {stmts : List (Stmt ι)}
    {c : Connections ι}
    (hrun : run Connections.step (Connections.new ι foreignKeys) stmts = some c) :
    c.db.NoDuplicates ↔
      Meets Connections.step Unraced (Connections.new ι foreignKeys) stmts := by
  have hexact := run_keeps_iff (fun _ => True) (fun c : Connections ι => c.db.NoDuplicates)
    (fun _ _ _ _ _ => trivial) (fun _ _ _ _ hstep => noDuplicates_step hstep) hrun trivial
  rw [hexact]
  exact and_iff_right List.nodup_nil

end

/-- A message without a session. -/
def message : Event := ⟨0, none, "bot", "message", none, some "hi", none⟩

/-- Two calls with one event, one after the other. -/
def oneByOne : List (Stmt ℕ) := [.lookup 0 message, .insert 0, .lookup 1 message]

/-- One connection after the other inserts one row. -/
theorem oneByOne_noDuplicates :
    let _ := ContentHash.checksum
    let _ := FloatText.zero
    let _ := ZstdCompress.off
    let _ := Refusal.never
    ∃ c, run Connections.step (Connections.new ℕ true) oneByOne = some c ∧ c.db.NoDuplicates := by
  intro _ _ _ _
  have hrun : ∃ c, run Connections.step (Connections.new ℕ true) oneByOne = some c := ⟨_, rfl⟩
  have hmeets : Meets Connections.step Unraced (Connections.new ℕ true) oneByOne :=
    of_decide_eq_true rfl
  obtain ⟨c, hrun⟩ := hrun
  exact ⟨c, hrun, (interleaving_noDuplicates_iff true hrun).mpr hmeets⟩

/-- Two calls with one event that both look it up before either inserts. -/
def bothLookUp : List (Stmt ℕ) :=
  [.lookup 0 message, .lookup 1 message, .insert 0, .insert 1]

theorem bothLookUp_duplicates :
    let _ := ContentHash.checksum
    let _ := FloatText.zero
    let _ := ZstdCompress.off
    let _ := Refusal.never
    ∃ c, run Connections.step (Connections.new ℕ true) bothLookUp = some c ∧
      c.pending 0 = none ∧ c.pending 1 = none ∧ ¬c.db.NoDuplicates := by
  intro _ _ _ _
  exact ⟨_, rfl, rfl, rfl, by decide +kernel⟩

end SynapseMemory.Events
