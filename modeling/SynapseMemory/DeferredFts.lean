import SynapseMemory.Ingest
import SynapseMemory.Transition

/-!
# The deferred batch among other connections

`put_batch_deferred_fts` drops the trigger `docs_ai`, inserts its rows and tells the index about
them in one transaction, and creates the trigger again. The trigger is part of the schema, which all
connections share, and the two changes of it are no part of the transaction. In between, the inserts
of other connections go by the index: what is inserted before the transaction has an id that the
transaction takes for an old one, and what is inserted after it is not looked at.

A run is any interleaving of the statements of one call with inserts of other connections. Each
statement may be refused, since the database can be busy. `indexed_iff_meets` says for which runs
every row has an entry in the index: those in which no insert of another connection adds a row while
the trigger is not there.
-/

namespace SynapseMemory

namespace DeferredFts

open Proto Store Transition

/-! ## The entries of the index -/

/-- The row has an entry after these commands. -/
def hasEntry (log : List FtsCommand) (rowid : ℤ) : Bool :=
  log.foldl (fun entry command =>
    match command with
    | .insert id _ _ => if id = rowid then true else entry
    | .delete id _ _ => if id = rowid then false else entry) false

/-- What the index is told about rows. -/
def inserts (rows : List Doc) : List FtsCommand := rows.map fun d => .insert d.id d.title d.text

/-- What the index has after rows were inserted. -/
theorem hasEntry_append_inserts (log : List FtsCommand) (rows : List Doc) (rowid : ℤ) :
    hasEntry (log ++ inserts rows) rowid =
      (hasEntry log rowid || rows.any fun d => d.id = rowid) := by
  induction rows generalizing log with
  | nil => simp [inserts]
  | cons d rows ih =>
    have hfirst : log ++ inserts (d :: rows) =
        (log ++ [.insert d.id d.title d.text]) ++ inserts rows := by
      rw [List.append_assoc]
      rfl
    rw [hfirst, ih, List.any_cons, hasEntry, List.foldl_append]
    by_cases hid : d.id = rowid
    · simp [hid]
    · simp [hid, hasEntry]

/-- What it has after rows were deleted. -/
theorem hasEntry_append_deletes (log : List FtsCommand) (rows : List Doc) (rowid : ℤ) :
    hasEntry (log ++ rows.map fun d => .delete d.id d.title d.text) rowid =
      (hasEntry log rowid && !rows.any fun d => d.id = rowid) := by
  induction rows generalizing log with
  | nil => simp
  | cons d rows ih =>
    rw [List.map_cons, ← List.singleton_append, ← List.append_assoc, ih, List.any_cons, hasEntry,
      List.foldl_append]
    by_cases hid : d.id = rowid
    · simp [hid]
    · simp [hid, hasEntry]

section Call

variable [Blake3]

/-- Every row of `docs` has an entry. -/
def Indexed (db : Store) : Prop := ∀ d ∈ db.docs.rows, hasEntry db.fts d.id = true

/-! ## The statements of a call -/

/-- How far the call has come. -/
inductive Phase where
  | called
  | relaxed
  | dropped
  | merged
  | failed
  | returned
  deriving DecidableEq

/-- The database as all connections see it, and the call. -/
structure Shared where
  db : Store
  /-- the trigger `docs_ai` is there -/
  trigger : Bool
  phase : Phase

/-- An `INSERT` into `docs`, with the trigger or without it. -/
def insertWith (trigger : Bool) (s : Store) (now : ℤ) (req : PutRequest) :
    Except Error (Store × ℤ) :=
  if trigger then s.insertDoc now req else s.insertQuiet now req

/-- The transaction: the loop, and then the rows above the largest id from before. -/
def transaction (s : Shared) (ts : ℤ) (docs : List PutRequest) : Except Error Store := do
  let (db, _) ← ingestRows (insertWith s.trigger) ts s.db docs
  .ok (db.withFts (db.fts ++ db.commandsAbove s.db.maxId))

/-- What happens next. -/
inductive Action where
  /-- An `INSERT` of another connection. -/
  | insert (now : ℤ) (req : PutRequest)
  /-- The next statement of the call, which is carried out or refused. -/
  | next (carriedOut : Bool)

/-- The next statement, if it is carried out. -/
def Shared.forward (s : Shared) (ts : ℤ) (docs : List PutRequest) : Option Shared :=
  match s.phase with
  | .called =>
    match rejectEmbeddings "put_batch_deferred_fts: embedding must be None (skip-embed path)" docs
    with
    | .ok () => some { s with phase := .relaxed }
    | .error _ => some { s with phase := .returned }
  | .relaxed => some { s with trigger := false, phase := .dropped }
  | .dropped =>
    match transaction s ts docs with
    | .ok db => some { s with db, phase := .merged }
    | .error _ => some { s with phase := .failed }
  | .merged => some { s with trigger := true, phase := .returned }
  | .failed => some { s with trigger := true, phase := .returned }
  | .returned => none

/-- The same, if it is refused: the trigger is created again after an error, but only once. -/
def Shared.refused (s : Shared) : Option Shared :=
  match s.phase with
  | .called => some { s with phase := .returned }
  | .relaxed => some { s with phase := .failed }
  | .dropped => some { s with phase := .failed }
  | .merged => some { s with phase := .failed }
  | .failed => some { s with phase := .returned }
  | .returned => none

/-- One step of the call, or of another connection. -/
def step (ts : ℤ) (docs : List PutRequest) (s : Shared) : Action → Option Shared
  | .insert now req =>
    match insertWith s.trigger s.db now req with
    | .ok (db, _) => some { s with db }
    | .error _ => some s
  | .next true => s.forward ts docs
  | .next false => s.refused

/-! ## What the inserts leave -/

/-- New rows, with new ids, of which the index was told if it was to be. -/
structure Grown (told : Bool) (s t : Store) (rows : List Doc) : Prop where
  rows_eq : t.docs.rows = s.docs.rows ++ rows
  fts_eq : t.fts = s.fts ++ if told then inserts rows else []
  new : ∀ d ∈ rows, s.docs.seq < d.id
  seq_le : s.docs.seq ≤ t.docs.seq

namespace Grown

variable {told : Bool} {s t u : Store} {rows more : List Doc}

theorem refl (told : Bool) (s : Store) : Grown told s s [] :=
  ⟨(List.append_nil _).symm, by cases told <;> simp [inserts], nofun, le_refl _⟩

theorem trans (h : Grown told s t rows) (h' : Grown told t u more) :
    Grown told s u (rows ++ more) := by
  refine ⟨?_, ?_, ?_, h.seq_le.trans h'.seq_le⟩
  · rw [h'.rows_eq, h.rows_eq, List.append_assoc]
  · rw [h'.fts_eq, h.fts_eq, List.append_assoc]
    cases told <;> simp [inserts]
  · exact List.forall_mem_append.mpr
      ⟨h.new, fun d hd => lt_of_le_of_lt h.seq_le (h'.new d hd)⟩

end Grown

/-- An insert adds one row. -/
theorem grown_insertWith {told : Bool} {s t : Store} {now id : ℤ} {req : PutRequest}
    (h : insertWith told s now req = .ok (t, id)) : Grown told s t [s.newDoc now req] := by
  rw [insertWith] at h
  cases told with
  | true =>
    have hnew := insertDoc_ok h
    refine ⟨hnew.rows_eq, ?_, ?_, ?_⟩
    · rw [hnew.fts_eq, hnew.id_eq]
      rfl
    · exact List.forall_mem_singleton.mpr (Int.lt_succ _)
    · rw [hnew.seq_eq]
      exact Int.le_of_lt (Int.lt_succ _)
  | false =>
    rw [if_neg Bool.false_ne_true, insertQuiet] at h
    obtain ⟨⟨s', id'⟩, hinsert, heq⟩ := map_eq_ok.mp h
    cases heq
    have hnew := insertDoc_ok hinsert
    refine ⟨hnew.rows_eq, (List.append_nil _).symm, ?_, ?_⟩
    · exact List.forall_mem_singleton.mpr (Int.lt_succ _)
    · exact hnew.seq_eq.symm ▸ Int.le_of_lt (Int.lt_succ _)

/-- The rows of a batch are added. -/
theorem grown_ingestRows {told : Bool} {s t : Store} {ts : ℤ} {docs : List PutRequest}
    {ids : List ℤ} (h : ingestRows (insertWith told) ts s docs = .ok (t, ids)) :
    ∃ rows, Grown told s t rows := by
  induction docs generalizing s ids with
  | nil =>
    cases h
    exact ⟨[], .refl told _⟩
  | cons req rest ih =>
    rw [ingestRows] at h
    obtain ⟨⟨u, id⟩, hrow, h⟩ := bind_eq_ok.mp h
    obtain ⟨⟨t', ids'⟩, hrest, h⟩ := bind_eq_ok.mp h
    cases h
    obtain ⟨more, hmore⟩ := ih hrest
    rw [ingestRow] at hrow
    cases hkey : s.byText req.text with
    | some d =>
      rw [hkey] at hrow
      cases hrow
      exact ⟨more, hmore⟩
    | none =>
      rw [hkey] at hrow
      exact ⟨_, (grown_insertWith hrow).trans hmore⟩

/-- New rows with new ids, and entries for them if the index is told. -/
structure Extends (told : Bool) (s t : Store) (rows : List Doc) : Prop where
  rows_eq : t.docs.rows = s.docs.rows ++ rows
  entry : ∀ rowid, hasEntry t.fts rowid =
    (hasEntry s.fts rowid || (told && rows.any fun d => d.id = rowid))
  new : ∀ d ∈ rows, s.docs.seq < d.id
  seq_le : s.docs.seq ≤ t.docs.seq

theorem Grown.extends {told : Bool} {s t : Store} {rows : List Doc} (h : Grown told s t rows) :
    Extends told s t rows := by
  refine ⟨h.rows_eq, fun rowid => ?_, h.new, h.seq_le⟩
  rw [h.fts_eq]
  cases told with
  | true => exact hasEntry_append_inserts _ _ _
  | false => simp

/-- **The transaction tells the index about its rows**, whatever the trigger has told it. -/
theorem transaction_ok {s : Shared} {ts : ℤ} {docs : List PutRequest} {db : Store}
    (h : transaction s ts docs = .ok db) : ∃ rows, Extends true s.db db rows := by
  obtain ⟨⟨t, ids⟩, hrows, h⟩ := bind_eq_ok.mp h
  cases h
  obtain ⟨rows, hgrown⟩ := grown_ingestRows hrows
  have habove : t.commandsAbove s.db.maxId = inserts rows := by
    have hold : s.db.docs.rows.filter (fun d => s.db.maxId < d.id) = [] := by
      rw [List.filter_eq_nil_iff]
      intro d hd
      simpa using le_maxId hd
    have hnew : rows.filter (fun d => s.db.maxId < d.id) = rows := by
      rw [List.filter_eq_self]
      intro d hd
      exact decide_eq_true (lt_of_le_of_lt s.db.maxId_le_seq (hgrown.new d hd))
    rw [commandsAbove, hgrown.rows_eq, List.filter_append, hold, hnew, List.nil_append, inserts]
  refine ⟨rows, hgrown.rows_eq, fun rowid => ?_, hgrown.new, hgrown.seq_le⟩
  change hasEntry (t.fts ++ t.commandsAbove s.db.maxId) rowid = _
  rw [habove, hasEntry_append_inserts, hgrown.extends.entry rowid]
  cases s.trigger <;> simp

/-! ## What the database keeps -/

/-- Every row has an entry, and no id has one that was not given out. -/
structure Sound (db : Store) : Prop where
  indexed : Indexed db
  known : ∀ rowid, hasEntry db.fts rowid = true → rowid ≤ db.docs.seq

/-- A row has no entry. -/
def Missed (db : Store) : Prop := ∃ d ∈ db.docs.rows, hasEntry db.fts d.id = false

theorem Indexed.not_missed {db : Store} (h : Indexed db) : ¬Missed db := by
  rintro ⟨d, hd, hmissed⟩
  rw [h d hd] at hmissed
  cases hmissed

namespace Extends

variable {told : Bool} {s t : Store} {rows : List Doc}

/-- An extension that tells the index about its rows is sound. -/
theorem sound (h : Extends true s t rows) (hs : Sound s) : Sound t := by
  refine ⟨fun d hd => ?_, fun rowid hrow => ?_⟩
  · rw [h.rows_eq, List.mem_append] at hd
    rw [h.entry, Bool.true_and, Bool.or_eq_true, List.any_eq_true]
    rcases hd with hd | hd
    · exact .inl (hs.indexed d hd)
    · exact .inr ⟨d, hd, decide_eq_true rfl⟩
  · rw [h.entry, Bool.true_and, Bool.or_eq_true, List.any_eq_true] at hrow
    rcases hrow with hrow | ⟨d, hd, hid⟩
    · exact (hs.known rowid hrow).trans h.seq_le
    · rw [← of_decide_eq_true hid]
      exact t.docs.le_seq d (by rw [h.rows_eq]; exact List.mem_append_right _ hd)

/-- A row that was missed stays so: what comes later is about new ids. -/
theorem missed (h : Extends told s t rows) (hs : Missed s) : Missed t := by
  obtain ⟨d, hd, hmissed⟩ := hs
  refine ⟨d, by rw [h.rows_eq]; exact List.mem_append_left _ hd, ?_⟩
  rw [h.entry, hmissed, Bool.false_or, Bool.and_eq_false_imp]
  intro _
  rw [List.any_eq_false]
  intro x hx hid
  have hle := s.docs.le_seq d hd
  have hlt := h.new x hx
  rw [of_decide_eq_true hid] at hlt
  exact absurd hlt (not_lt.mpr hle)

/-- A row that the index is not told about is missed. -/
theorem missed_of_not_told (h : Extends false s t rows) (hs : Sound s) (hne : rows ≠ []) :
    Missed t := by
  obtain ⟨d, rest, rfl⟩ := List.exists_cons_of_ne_nil hne
  refine ⟨d, by simp [h.rows_eq], ?_⟩
  rw [h.entry, Bool.false_and, Bool.or_false]
  by_contra hentry
  have hle := hs.known d.id (eq_true_of_ne_false hentry)
  exact absurd (h.new d List.mem_cons_self) (not_lt.mpr hle)

end Extends

/-- A removed row leaves the index sound. -/
theorem Sound.removed {db : Store} (h : Sound db) (id : ℤ) : Sound (db.removed id) := by
  have hentry (rowid : ℤ) : hasEntry (db.removed id).fts rowid =
      (hasEntry db.fts rowid && !(db.docs.rows.filter fun d => d.id = id).any
        fun d => d.id = rowid) := by
    change hasEntry (db.fts ++ _ ++ _) rowid = _
    rw [hasEntry_append_deletes, hasEntry_append_deletes, Bool.and_assoc, Bool.and_self]
  refine ⟨fun d hd => ?_, fun rowid hrow => ?_⟩
  · obtain ⟨hd, hne⟩ := mem_removed_rows.mp hd
    rw [hentry, h.indexed d hd, Bool.true_and, Bool.not_eq_true', List.any_eq_false]
    intro x hx hid
    have hx := of_decide_eq_true (List.mem_filter.mp hx).2
    exact hne ((of_decide_eq_true hid).symm.trans hx)
  · rw [hentry, Bool.and_eq_true] at hrow
    exact h.known rowid hrow.1

theorem Sound.inserted {s s' : Store} {now id : ℤ} {req : PutRequest}
    (hnew : Inserted s now req s' id) (h : Sound s) : Sound s' := by
  have hgrown : Grown true s s' [s.newDoc now req] := by
    refine ⟨hnew.rows_eq, ?_, ?_, ?_⟩
    · rw [hnew.fts_eq, hnew.id_eq]
      rfl
    · exact List.forall_mem_singleton.mpr (Int.lt_succ _)
    · rw [hnew.seq_eq]
      exact Int.le_of_lt (Int.lt_succ _)
  exact hgrown.extends.sound h

/-- The operations of a store by itself keep it sound. -/
theorem sound_ops [Tokenizer] (ops : List Op) : Sound (ops.foldl Store.apply Store.empty) := by
  refine run_preserves Sound (fun s op s' h heq => ?_) (run_total Store.apply Store.empty ops)
    ⟨nofun, nofun⟩
  rw [← Option.some.inj heq]
  exact apply_invariant Sound.inserted (fun _ _ => h.removed _) h

/-! ## Runs -/

/-- An insert of another connection adds no row while the trigger is not there. -/
def Covered (s : Shared) : Action → Prop
  | .insert _ req => s.trigger = true ∨ s.db.byText req.text ≠ none ∨ ¬s.db.Free req.uri
  | .next _ => True

/-- The database and its trigger before the call. -/
def before [Tokenizer] (ops : List Op) : Shared :=
  ⟨ops.foldl Store.apply Store.empty, true, .called⟩

/-- **What a step does to the database.** -/
theorem step_cases {ts : ℤ} {docs : List PutRequest} {s s' : Shared} {a : Action}
    (h : step ts docs s a = some s') : s'.db = s.db ∨ (∃ rows, Extends true s.db s'.db rows) ∨
      ∃ now req, a = .insert now req ∧ s.trigger = false ∧ s.db.byText req.text = none ∧
        s.db.Free req.uri ∧ Extends false s.db s'.db [s.db.newDoc now req] := by
  cases a with
  | insert now req =>
    rw [step] at h
    cases hinsert : insertWith s.trigger s.db now req with
    | error e =>
      rw [hinsert] at h
      cases h
      exact .inl rfl
    | ok r =>
      rw [hinsert] at h
      cases h
      have hgrown := grown_insertWith hinsert
      cases htrigger : s.trigger with
      | true =>
        rw [htrigger] at hgrown
        exact .inr (.inl ⟨_, hgrown.extends⟩)
      | false =>
        rw [htrigger] at hgrown hinsert
        obtain ⟨r', hquiet, -⟩ := map_eq_ok.mp hinsert
        obtain ⟨hfresh, hfree, -⟩ := insertDoc_ok hquiet
        exact .inr (.inr ⟨now, req, rfl, rfl, hfresh, hfree, hgrown.extends⟩)
  | next carriedOut =>
    cases carriedOut with
    | false =>
      rw [step, Shared.refused] at h
      cases hphase : s.phase <;> rw [hphase] at h <;> cases h <;> exact .inl rfl
    | true =>
      rw [step, Shared.forward] at h
      cases hphase : s.phase with
      | called =>
        rw [hphase] at h
        simp only at h
        split at h <;> cases h <;> exact .inl rfl
      | dropped =>
        rw [hphase] at h
        cases htx : transaction s ts docs with
        | ok db =>
          simp only [htx] at h
          cases h
          exact .inr (.inl (transaction_ok htx))
        | error e =>
          simp only [htx] at h
          cases h
          exact .inl rfl
      | relaxed | merged | failed | returned =>
        rw [hphase] at h
        cases h <;> exact .inl rfl

/-- An insert that goes by the index is carried out. -/
theorem step_uncovered {ts : ℤ} {docs : List PutRequest} {s s' : Shared} {a : Action}
    (hcond : ¬Covered s a) (h : step ts docs s a = some s') :
    ∃ now req, Extends false s.db s'.db [s.db.newDoc now req] := by
  cases a with
  | next carriedOut => exact absurd trivial hcond
  | insert now req =>
    obtain ⟨htrigger, hrest⟩ := not_or.mp hcond
    obtain ⟨hfresh, hfree⟩ := not_or.mp hrest
    have htrigger : s.trigger = false := eq_false_of_ne_true htrigger
    obtain ⟨t, ht⟩ : ∃ t, s.db.insertDoc now req = .ok (t, s.db.docs.seq + 1) :=
      insertDoc_of_free (not_not.mp hfresh) (not_not.mp hfree)
    have hinsert : insertWith s.trigger s.db now req =
        .ok (t.withFts s.db.fts, s.db.docs.seq + 1) := by
      rw [htrigger]
      exact map_eq_ok.mpr ⟨_, ht, rfl⟩
    rw [step, hinsert] at h
    cases h
    rw [htrigger] at hinsert
    exact ⟨now, req, (grown_insertWith hinsert).extends⟩

/-- A step in which no row is left out preserves that the index is sound. -/
theorem Sound.step {ts : ℤ} {docs : List PutRequest} {s s' : Shared} {a : Action}
    (hs : Sound s.db) (hcond : Covered s a) (h : step ts docs s a = some s') : Sound s'.db := by
  rcases step_cases h with hdb | ⟨rows, hrows⟩ | ⟨now, req, rfl, htrigger, hfresh, hfree, -⟩
  · rwa [hdb]
  · exact hrows.sound hs
  · rcases hcond with htrue | hkey | hnot
    · rw [htrigger] at htrue
      cases htrue
    · exact absurd hfresh hkey
    · exact absurd hfree hnot

theorem Missed.step {ts : ℤ} {docs : List PutRequest} {s s' : Shared} {a : Action}
    (hs : Missed s.db) (h : step ts docs s a = some s') : Missed s'.db := by
  rcases step_cases h with hdb | ⟨rows, hrows⟩ | ⟨now, req, -, -, -, -, hrow⟩
  · rwa [hdb]
  · exact hrows.missed hs
  · exact hrow.missed hs

theorem Sound.step_uncovered {ts : ℤ} {docs : List PutRequest} {s s' : Shared} {a : Action}
    (hs : Sound s.db) (hcond : ¬Covered s a) (h : DeferredFts.step ts docs s a = some s') :
    Missed s'.db := by
  obtain ⟨now, req, hrow⟩ := DeferredFts.step_uncovered hcond h
  exact hrow.missed_of_not_told hs (List.cons_ne_nil _ _)

/-- **A deferred batch leaves nothing unindexed** if and only if no other connection adds a row
while the trigger is not there. -/
theorem indexed_iff_meets [Tokenizer] (ops : List Op) (ts : ℤ) (docs : List PutRequest)
    {as : List Action} {s' : Shared} (hrun : run (step ts docs) (before ops) as = some s') :
    Indexed s'.db ↔ Meets (step ts docs) Covered (before ops) as := by
  have hexact := run_exact (fun s : Shared => Sound s.db) (fun s => Missed s.db)
    (fun _ _ _ hs hcond h => hs.step hcond h) (fun _ _ _ hs hcond h => hs.step_uncovered hcond h)
    (fun _ _ _ hs h => hs.step h) hrun (sound_ops ops)
  rcases hexact with ⟨hmeets, hsound⟩ | ⟨hmeets, hmissed⟩
  · exact iff_of_true hsound.indexed hmeets
  · exact iff_of_false (fun h => h.not_missed hmissed) hmeets

/-- A call that is alone does what the function does to the store. -/
theorem run_alone [Tokenizer] (ops : List Op) (ts : ℤ) {docs : List PutRequest}
    (hdocs : TextOnly docs) {db : Store} {ids : List ℤ}
    (h : (ops.foldl Store.apply Store.empty).putBatchDeferredFts ts docs = .ok (db, ids)) :
    run (step ts docs) (before ops) (List.replicate 4 (.next true)) =
      some ⟨db, true, .returned⟩ := by
  obtain ⟨⟨⟩, -, h⟩ := bind_eq_ok.mp h
  obtain ⟨⟨t, ids'⟩, hrows, h⟩ := bind_eq_ok.mp h
  have hcalled : step ts docs (before ops) (.next true) =
      some ⟨ops.foldl Store.apply Store.empty, true, .relaxed⟩ := by
    rw [step, Shared.forward, before]
    simp only [rejectEmbeddings_ok hdocs]
  have hmerge : transaction ⟨ops.foldl Store.apply Store.empty, false, .dropped⟩ ts docs = .ok db :=
    bind_eq_ok.mpr ⟨_, hrows, congrArg Except.ok (Prod.mk.inj (Except.ok.inj h)).1⟩
  have hmerged : step ts docs ⟨ops.foldl Store.apply Store.empty, false, .dropped⟩ (.next true) =
      some ⟨db, false, .merged⟩ := by
    rw [step, Shared.forward]
    simp only [hmerge]
  exact run_cons.mpr ⟨_, hcalled, run_cons.mpr ⟨_, rfl, run_cons.mpr ⟨_, hmerged, rfl⟩⟩⟩

end Call

/-- A document. -/
def note : PutRequest :=
  { uri := none, title := none, text := "a", meta_ := none, embedding := none }

/-- An empty batch, with an insert of another connection after the trigger was dropped. -/
def insertInBetween : List Action :=
  [.next true, .next true, .insert 0 note, .next true, .next true]

/-- When all calls have returned, the row has no entry. -/
theorem insertInBetween_missed :
    let _ := Blake3.identity
    let _ := Tokenizer.blanks
    ∃ s', run (step 0 []) (before []) insertInBetween = some s' ∧ s'.phase = .returned ∧
      ¬Indexed s'.db := by
  intro _ _
  refine ⟨_, rfl, rfl, fun h => ?_⟩
  have hentry := h (empty.newDoc 0 note) (List.mem_singleton.mpr rfl)
  revert hentry
  decide

/-- The same insert before the call. -/
def insertBefore : List Action := [.insert 0 note, .next true, .next true, .next true, .next true]

theorem insertBefore_indexed :
    let _ := Blake3.identity
    let _ := Tokenizer.blanks
    ∃ s', run (step 0 []) (before []) insertBefore = some s' ∧
      (Indexed s'.db ↔ Meets (step 0 []) Covered (before []) insertBefore) := by
  intro _ _
  exact ⟨_, rfl, indexed_iff_meets [] 0 [] rfl⟩

end DeferredFts

end SynapseMemory
