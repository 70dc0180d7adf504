import SynapseMemory.Events

/-!
# Batches of events

`ingest_events` runs the statements of `ingest_event` for each event of a list, with the same SQL in
prepared statements, between a `BEGIN` and a `COMMIT` of its own; it counts the rows that it
inserts, and the first statement that fails makes it roll back.

So it does to the tables what the calls one by one do, up to the first one that fails, and where one
fails it does nothing (`ingestEvents_refines`).
-/

namespace SynapseMemory.Events

/-- A connection: the database as its statements see it and, while it has a transaction open, the
one that a rollback brings back. -/
structure Connection where
  db : Db
  saved : Option Db

namespace Connection

/-- The database as it is for everyone else. -/
def committed (c : Connection) : Db := c.saved.getD c.db

/-- `BEGIN IMMEDIATE` -/
def begin (c : Connection) : Except UltraError Connection :=
  match c.saved with
  | none => .ok { c with saved := some c.db }
  | some _ => .error (.sqlite "cannot start a transaction within a transaction")

/-- `COMMIT` -/
def commit [Refusal] (c : Connection) : Except UltraError Connection :=
  match c.saved with
  | none => .error (.sqlite "cannot commit - no transaction is active")
  | some _ =>
    match Refusal.commit c.db with
    | some message => .error (.sqlite message)
    | none => .ok { c with saved := none }

/-- `ROLLBACK` -/
def rollback (c : Connection) : Except UltraError Connection :=
  match c.saved with
  | none => .error (.sqlite "cannot rollback - no transaction is active")
  | some db => .ok ⟨db, none⟩

/-- Roll back, and return the error. -/
def abort (c : Connection) (e : UltraError) : Connection × Except UltraError ℕ :=
  match c.rollback with
  | .error e' => (c, .error e')
  | .ok c => (c, .error e)

end Connection

section

variable [ContentHash] [FloatText] [ZstdCompress] [Refusal]

/-- The loop of `ingest_events`, with the number of rows inserted so far. -/
def insertAll (c : Connection) (inserted : ℕ) : List Event → Connection × Except UltraError ℕ
  | [] => (c, .ok inserted)
  | ev :: rest =>
    match c.db.lookup ev.dedupKey with
    | some _ => insertAll c inserted rest
    | none =>
      match ensureSession c.db ev with
      | .error e => c.abort e
      | .ok db =>
        match insertEvent db ev with
        | .error e => { c with db }.abort e
        | .ok (db, _) => insertAll { c with db } (inserted + 1) rest

/-- `ingest_events`. A failed batch leaves its transaction open. -/
def ingestEvents (c : Connection) (events : List Event) : Connection × Except UltraError ℕ :=
  if events.isEmpty then (c, .ok 0)
  else
    match c.begin with
    | .error e => (c, .error e)
    | .ok c =>
      match insertAll c 0 events with
      | (c, .error e) => (c, .error e)
      | (c, .ok inserted) =>
        match c.commit with
        | .error e => (c, .error e)
        | .ok c => (c, .ok inserted)

/-- The calls of `ingest_event` one by one, up to the first that fails. -/
def ingestEach (db : Db) : List Event → Db × Except UltraError (List ℤ)
  | [] => (db, .ok [])
  | ev :: rest =>
    match ingestEvent db ev with
    | (db, .error e) => (db, .error e)
    | (db, .ok id) =>
      match ingestEach db rest with
      | (db, .error e) => (db, .error e)
      | (db, .ok ids) => (db, .ok (id :: ids))

/-! ## The loop and the calls -/

/-- One event of the loop is one call, and the counter goes up by the rows that it adds. -/
theorem insertAll_cons (c : Connection) (inserted : ℕ) (ev : Event) (rest : List Event) :
    insertAll c inserted (ev :: rest) =
      match ingestEvent c.db ev with
      | (db, .error e) => { c with db }.abort e
      | (db, .ok _) => insertAll { c with db }
          (inserted + (db.events.rows.length - c.db.events.rows.length)) rest := by
  rw [insertAll, ingestEvent]
  cases hlookup : c.db.lookup ev.dedupKey with
  | some id => simp
  | none =>
    cases hsession : ensureSession c.db ev with
    | error e => rfl
    | ok db =>
      obtain ⟨hevents, -⟩ := ensureSession_ok hsession
      cases hinsert : insertEvent db ev with
      | error e => simp only [hinsert]
      | ok p =>
        obtain ⟨db', id⟩ := p
        have hrows := (insertEvent_ok hinsert).2.1
        have hlength : db'.events.rows.length - c.db.events.rows.length = 1 := by
          rw [hrows, hevents, List.length_append, List.length_singleton]
          omega
        simp only [hinsert, hlength]

/-- A call adds rows at the end. -/
theorem prefix_ingestEvent (db : Db) (ev : Event) :
    db.events.rows <+: (ingestEvent db ev).1.events.rows := by
  rcases ingestEvent_cases db ev with
    ⟨r, -, -, hcall⟩ | ⟨-, ⟨db', db'', hcall, hrows⟩ | ⟨db', e, hcall, hevents⟩⟩
  · rw [hcall]
  · rw [hcall, hrows]
    exact List.prefix_append _ _
  · rw [hcall, hevents]

theorem prefix_ingestEach (db : Db) (events : List Event) :
    db.events.rows <+: (ingestEach db events).1.events.rows := by
  induction events generalizing db with
  | nil => exact List.prefix_refl _
  | cons ev rest ih =>
    have hcall := prefix_ingestEvent db ev
    rw [ingestEach]
    rcases hc : ingestEvent db ev with ⟨db', e | id⟩ <;> rw [hc] at hcall
    · exact hcall
    · have hrest := hcall.trans (ih db')
      rcases hr : ingestEach db' rest with ⟨db'', e | ids⟩ <;> rw [hr] at hrest
      · simpa only [hr] using hrest
      · simpa only [hr] using hrest

/-- The loop in an open transaction is the calls one by one, and a rollback if one of them fails. -/
theorem insertAll_eq (c : Connection) (inserted : ℕ) (events : List Event) {saved : Db}
    (hopen : c.saved = some saved) :
    insertAll c inserted events =
      match ingestEach c.db events with
      | (_, .error e) => (⟨saved, none⟩, .error e)
      | (db, .ok _) => ({ c with db },
          .ok (inserted + (db.events.rows.length - c.db.events.rows.length))) := by
  induction events generalizing c inserted with
  | nil => simp [insertAll, ingestEach]
  | cons ev rest ih =>
    have hcall := (prefix_ingestEvent c.db ev).length_le
    rw [insertAll_cons, ingestEach]
    rcases hc : ingestEvent c.db ev with ⟨db, e | id⟩ <;> rw [hc] at hcall
    · simp only [Connection.abort, Connection.rollback, hopen]
    · have hrest := (prefix_ingestEach db rest).length_le
      dsimp only
      rw [ih { c with db } _ hopen]
      rcases hr : ingestEach db rest with ⟨db', e | ids⟩
      · rfl
      · rw [hr] at hrest
        simp only [Prod.mk.injEq, Except.ok.injEq, true_and]
        dsimp only at hcall hrest
        omega

/-- What a batch comes to: nothing to do, a transaction that is already open, the first call that
fails, a `COMMIT` that fails, or the calls one by one. -/
theorem ingestEvents_cases (c : Connection) (events : List Event) :
    (events = [] ∧ ingestEvents c events = (c, .ok 0)) ∨
    (c.saved ≠ none ∧ ∃ e, ingestEvents c events = (c, .error e)) ∨
    c.saved = none ∧
      ((∃ db e, ingestEach c.db events = (db, .error e) ∧ ingestEvents c events = (c, .error e)) ∨
      ∃ db ids, ingestEach c.db events = (db, .ok ids) ∧
        ((∃ message, Refusal.commit db = some message ∧
          ingestEvents c events = (⟨db, some c.db⟩, .error (.sqlite message))) ∨
        Refusal.commit db = none ∧ ingestEvents c events =
          (⟨db, none⟩, .ok (db.events.rows.length - c.db.events.rows.length)))) := by
  by_cases hempty : events = []
  · exact .inl ⟨hempty, by rw [hempty]; rfl⟩
  refine .inr ?_
  rw [ingestEvents, if_neg (by simpa using hempty)]
  obtain ⟨db, _ | saved⟩ := c
  · refine .inr ⟨rfl, ?_⟩
    simp only [Connection.begin, insertAll_eq ⟨db, some db⟩ 0 events rfl]
    rcases ingestEach db events with ⟨db', e | ids⟩
    · exact .inl ⟨db', e, rfl, rfl⟩
    · refine .inr ⟨db', ids, rfl, ?_⟩
      simp only [Connection.commit, zero_add]
      cases Refusal.commit db' with
      | some message => exact .inl ⟨message, rfl, rfl⟩
      | none => exact .inr ⟨rfl, rfl⟩
  · exact .inl ⟨Option.some_ne_none saved, _, rfl⟩

/-- **A batch is its events one by one, or nothing.** If it succeeds, so do the calls of
`ingest_event` one by one; they leave the same events and sessions, and the number returned is that
of the rows added. If they succeed, and so does the `COMMIT`, it does. If one of them fails, it
fails with that error and leaves the connection as it was. Whatever fails, the database is for
everyone else as it was. -/
theorem ingestEvents_refines (c : Connection) (events : List Event) :
    (∀ n, (ingestEvents c events).2 = .ok n →
      ∃ ids, ingestEach c.db events = ((ingestEvents c events).1.db, .ok ids) ∧
        (ingestEvents c events).1.saved = c.saved ∧
        (ingestEvents c events).1.db.events.rows.length = c.db.events.rows.length + n) ∧
    (∀ db ids, c.saved = none → ingestEach c.db events = (db, .ok ids) →
      Refusal.commit db = none → ∃ n, (ingestEvents c events).2 = .ok n) ∧
    (∀ db e, c.saved = none → ingestEach c.db events = (db, .error e) →
      ingestEvents c events = (c, .error e)) ∧
    ∀ e, (ingestEvents c events).2 = .error e →
      (ingestEvents c events).1.committed = c.committed := by
  have hcases := ingestEvents_cases c events
  refine ⟨fun n hn => ?_, fun db ids hclosed heach hcommit => ?_, fun db e hclosed heach => ?_,
    fun e he => ?_⟩
  · rcases hcases with ⟨rfl, hbatch⟩ | ⟨-, e, hbatch⟩ | ⟨hclosed, ⟨db, e, heach, hbatch⟩ |
      ⟨db, ids, heach, ⟨message, -, hbatch⟩ | ⟨-, hbatch⟩⟩⟩ <;> rw [hbatch] at hn ⊢ <;> cases hn
    · exact ⟨[], rfl, rfl, rfl⟩
    · have hlength := (prefix_ingestEach c.db events).length_le
      rw [heach] at hlength
      exact ⟨ids, heach, hclosed.symm, (Nat.add_sub_cancel' hlength).symm⟩
  · rcases hcases with ⟨-, hbatch⟩ | ⟨hopen, -⟩ | ⟨-, ⟨db', e, heach', -⟩ |
      ⟨db', ids', heach', ⟨message, hrefused, -⟩ | ⟨-, hbatch⟩⟩⟩
    · exact ⟨0, by rw [hbatch]⟩
    · exact absurd hclosed hopen
    · cases heach.symm.trans heach'
    · cases heach.symm.trans heach'
      cases hcommit.symm.trans hrefused
    · exact ⟨_, by rw [hbatch]⟩
  · rcases hcases with ⟨rfl, -⟩ | ⟨hopen, -⟩ | ⟨-, ⟨db', e', heach', hbatch⟩ |
      ⟨db', ids', heach', -⟩⟩
    · cases heach
    · exact absurd hclosed hopen
    · cases heach.symm.trans heach'
      exact hbatch
    · cases heach.symm.trans heach'
  · rcases hcases with ⟨-, hbatch⟩ | ⟨-, e', hbatch⟩ | ⟨hclosed, ⟨db, e', -, hbatch⟩ |
      ⟨db, ids, -, ⟨message, -, hbatch⟩ | ⟨-, hbatch⟩⟩⟩
    · rw [hbatch]
    · rw [hbatch]
    · rw [hbatch]
    · -- the transaction is still open, so no one else sees what it did
      rw [hbatch, Connection.committed, Connection.committed, hclosed]
      rfl
    · rw [hbatch] at he
      cases he

end

/-- A duplicate inside the batch is not counted. -/
example :
    let _ := ContentHash.checksum
    let _ := FloatText.zero
    let _ := ZstdCompress.off
    let _ := Refusal.never
    (ingestEvents ⟨Db.new true, none⟩
      [⟨0, some "s1", "bot", "message", none, some "hi", none⟩,
        ⟨5, some "s1", "bot", "message", none, some "hi", none⟩]).2 = .ok 1 := rfl

end SynapseMemory.Events
