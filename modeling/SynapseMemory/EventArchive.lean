import SynapseMemory.Events

/-!
# The archive of old events

The model of `archive` in `lake.rs`, with the calls of `ingest_event` that come between its steps.
An archive of a cutoff copies the older rows to a file of that cutoff, loads the file into the lake,
and then deletes from the event table what is older than the cutoff. Other archives may run beside
it, and any of them may stop after any of its steps: a script that fails, a count that is not read,
a table that is locked.

The copy has the column `content`, not `content_zst`, and the delete asks for the time again, not
for what was copied. So no event is lost exactly if each delete finds nothing but rows that are in
the lake and not compressed (`archive_kept_iff`). The table that `init` makes has six columns, and
eight are loaded: with it no archive gets as far as its delete (`init_kept`).
-/

namespace SynapseMemory.Events

open Transition

/-- The columns of an event that are copied. -/
structure LakeRow where
  id : ℤ
  ts : ℤ
  sessionId : Option String
  agent : String
  kind : String
  uri : Option String
  content : Option String
  meta_ : Option Text
  deriving DecidableEq

/-- The columns that the `COPY` selects. -/
def LakeRow.of (r : EventRow) : LakeRow :=
  ⟨r.id, r.ts, r.sessionId, r.agent, r.kind, r.uri, r.content, r.meta_⟩

/-- How far an archive run is. The `DELETE` is its last statement. -/
inductive ArchivePhase where
  | copied
  | loaded
  deriving DecidableEq

/-- An archive after one of its steps. -/
structure Archive where
  cutoff : ℤ
  phase : ArchivePhase
  deriving DecidableEq

/-- The database, the lake, and what was ingested so far. -/
structure LakeWorld where
  db : Db
  /-- the number of columns of the table in the lake -/
  columns : ℕ
  lake : List LakeRow
  /-- the files `events_{cutoff}.parquet` -/
  parquet : ℤ → List LakeRow
  running : List Archive
  /-- the events that got a row, with its id -/
  ingested : List (Event × ℤ)

/-- The columns of the table that `init` makes. -/
def initColumns : ℕ := 6

/-- A statement of an archive run, or an event that comes in between. -/
inductive LakeAct where
  | ingest (ev : Event)
  | copy (cutoff : ℤ)
  | load (cutoff : ℤ)
  | delete (cutoff : ℤ)
  | stop (archive : Archive)

/-- `DELETE FROM synapse_events WHERE ts < ?1` -/
def Db.deleteBefore (db : Db) (cutoff : ℤ) : Db :=
  { db with events := db.events.filter fun r => ¬r.ts < cutoff }

namespace LakeWorld

/-- No events yet, and an empty lake. -/
def new (foreignKeys : Bool) (columns : ℕ) : LakeWorld :=
  ⟨Db.new foreignKeys, columns, [], fun _ => [], [], []⟩

section

variable [ContentHash] [FloatText] [ZstdCompress]

/-- The row of an event with its id. -/
def rowOf (p : Event × ℤ) : EventRow where
  id := p.2
  ts := p.1.ts
  sessionId := p.1.sessionId
  agent := p.1.agent
  kind := p.1.kind
  uri := p.1.uri
  content := (storedContent p.1.content).1
  contentZst := (storedContent p.1.content).2
  blake3 := p.1.dedupKey
  meta_ := p.1.meta_.map Json.render

/-- The copy of an event with its full content. -/
def fullRow (p : Event × ℤ) : LakeRow := { LakeRow.of (rowOf p) with content := p.1.content }

/-! ## What has to be kept -/

omit [FloatText] [ContentHash] in
/-- A copy has the full content if none is compressed. -/
theorem storedContent_eq_iff {content : Option String} :
    (storedContent content).1 = content ↔ (storedContent content).2 = none := by
  cases content with
  | none => simp [storedContent]
  | some c =>
    rw [storedContent]
    split_ifs
    · split
      next => simp
      next => simp
    · simp
    · simp

/-- Every event that got a row has it still, or the lake has it with its full content. -/
def Kept (w : LakeWorld) : Prop :=
  ∀ p ∈ w.ingested, rowOf p ∈ w.db.events.rows ∨ fullRow p ∈ w.lake

instance (w : LakeWorld) : Decidable w.Kept :=
  inferInstanceAs (Decidable (∀ p ∈ w.ingested, _ ∨ _))

/-- What a delete finds is in the lake and not compressed. -/
def Covered (w : LakeWorld) : LakeAct → Prop
  | .delete cutoff => ∀ r ∈ w.db.events.rows, r.ts < cutoff →
      r.contentZst = none ∧ LakeRow.of r ∈ w.lake
  | _ => True

instance (w : LakeWorld) (a : LakeAct) : Decidable (w.Covered a) := by
  cases a <;> unfold Covered <;> infer_instance

/-- All rows are those of events that were ingested, which have different ids. -/
structure Inv (w : LakeWorld) : Prop where
  ids : (w.ingested.map Prod.snd).Nodup
  le_seq : ∀ p ∈ w.ingested, p.2 ≤ w.db.events.seq
  rows : ∀ r ∈ w.db.events.rows, ∃ p ∈ w.ingested, r = rowOf p
  lake : ∀ a ∈ w.lake, ∃ p ∈ w.ingested, a = LakeRow.of (rowOf p)
  parquet : ∀ cutoff, ∀ a ∈ w.parquet cutoff, ∃ p ∈ w.ingested, a = LakeRow.of (rowOf p)

theorem inv_new (foreignKeys : Bool) (columns : ℕ) : (new foreignKeys columns).Inv where
  ids := List.nodup_nil
  le_seq := fun _ hp => (List.not_mem_nil hp).elim
  rows := fun _ hr => (List.not_mem_nil hr).elim
  lake := fun _ ha => (List.not_mem_nil ha).elim
  parquet := fun _ _ ha => (List.not_mem_nil ha).elim

/-- More events, with ids of their own. -/
theorem Inv.ingest {w : LakeWorld} (h : w.Inv) {db : Db} {ev : Event} {id : ℤ}
    (hid : id = w.db.events.seq + 1) (hrows : db.events.rows = w.db.events.rows ++ [rowOf (ev, id)])
    (hseq : db.events.seq = id) :
    Inv { w with db, ingested := w.ingested ++ [(ev, id)] } where
  ids := by
    rw [List.map_append]
    refine h.ids.append (List.nodup_singleton _) ?_
    intro i hi hnew
    obtain ⟨p, hp, rfl⟩ := List.mem_map.mp hi
    have hle := h.le_seq p hp
    have heq : p.2 = id := List.mem_singleton.mp hnew
    omega
  le_seq := by
    intro p hp
    rw [hseq]
    rcases List.mem_append.mp hp with hp | hp
    · have hle := h.le_seq p hp
      omega
    · obtain rfl := List.mem_singleton.mp hp
      exact le_rfl
  rows := by
    intro r hr
    rw [hrows] at hr
    rcases List.mem_append.mp hr with hr | hr
    · obtain ⟨p, hp, heq⟩ := h.rows r hr
      exact ⟨p, List.mem_append_left _ hp, heq⟩
    · exact ⟨_, List.mem_append_right _ (List.mem_singleton_self _), List.mem_singleton.mp hr⟩
  lake := fun a ha => (h.lake a ha).imp fun p hp => ⟨List.mem_append_left _ hp.1, hp.2⟩
  parquet := fun c a ha => (h.parquet c a ha).imp fun p hp => ⟨List.mem_append_left _ hp.1, hp.2⟩

/-- Where the events that are stored only get less. -/
theorem Inv.of_subset {w w' : LakeWorld} (h : w.Inv) (hingested : w'.ingested = w.ingested)
    (hseq : w'.db.events.seq = w.db.events.seq)
    (hrows : ∀ r ∈ w'.db.events.rows, r ∈ w.db.events.rows)
    (hlake : ∀ a ∈ w'.lake, ∃ p ∈ w.ingested, a = LakeRow.of (rowOf p))
    (hparquet : ∀ c, ∀ a ∈ w'.parquet c, ∃ p ∈ w.ingested, a = LakeRow.of (rowOf p)) :
    w'.Inv where
  ids := hingested ▸ h.ids
  le_seq := by
    rw [hingested, hseq]
    exact h.le_seq
  rows := fun r hr => hingested ▸ h.rows r (hrows r hr)
  lake := hingested ▸ hlake
  parquet := hingested ▸ hparquet

/-- Where no row goes, no event does. -/
theorem Kept.mono {w w' : LakeWorld} (h : w.Kept) (hingested : w'.ingested = w.ingested)
    (hrows : ∀ r ∈ w.db.events.rows, r ∈ w'.db.events.rows) (hlake : ∀ a ∈ w.lake, a ∈ w'.lake) :
    w'.Kept := fun p hp => (h p (hingested ▸ hp)).imp (hrows _) (hlake _)

/-! ## Steps -/

variable [Refusal]

/-- One step. It is `none` for a statement that no run has come to. -/
def step (w : LakeWorld) : LakeAct → Option LakeWorld
  | .ingest ev =>
    match ingestEvent w.db ev with
    | (db, .error _) => some { w with db }
    | (db, .ok id) =>
      -- the id of a row that was there is that of an earlier event
      if ∃ r ∈ w.db.events.rows, r.id = id then some { w with db }
      else some { w with db, ingested := w.ingested ++ [(ev, id)] }
  | .copy cutoff =>
    let rows := (w.db.events.rows.filter fun r => r.ts < cutoff).map LakeRow.of
    some { w with
      parquet := Function.update w.parquet cutoff rows
      running := ⟨cutoff, .copied⟩ :: w.running }
  | .load cutoff =>
    if ⟨cutoff, .copied⟩ ∈ w.running ∧ w.columns = 8 then
      let rest := w.running.erase ⟨cutoff, .copied⟩
      some { w with
        lake := w.lake ++ w.parquet cutoff
        -- nothing is deleted if the file is empty
        running := if (w.parquet cutoff).isEmpty then rest else ⟨cutoff, .loaded⟩ :: rest }
    else none
  | .delete cutoff =>
    if ⟨cutoff, .loaded⟩ ∈ w.running then
      some { w with
        db := w.db.deleteBefore cutoff
        running := w.running.erase ⟨cutoff, .loaded⟩ }
    else none
  | .stop archive =>
    if archive ∈ w.running then some { w with running := w.running.erase archive } else none

/-- A call that succeeds returns the id of a row that was there, or adds one. -/
theorem ingestEvent_ok {db db' : Db} {ev : Event} {id : ℤ}
    (h : ingestEvent db ev = (db', .ok id)) :
    ((∃ r ∈ db.events.rows, r.id = id) ∧ db' = db) ∨
      id = db.events.seq + 1 ∧ db'.events.rows = db.events.rows ++ [rowOf (ev, id)] ∧
        db'.events.seq = id := by
  rw [ingestEvent] at h
  split at h
  next i hlookup =>
    obtain ⟨r, hr, -, rfl⟩ := Db.exists_of_lookup hlookup
    cases h
    exact .inl ⟨⟨r, hr, rfl⟩, rfl⟩
  next =>
    split at h
    next => cases h
    next mid hsession =>
      obtain ⟨hevents, -⟩ := ensureSession_ok hsession
      split at h
      next => cases h
      next hinsert =>
        cases h
        rw [insertEvent] at hinsert
        split_ifs at hinsert
        split at hinsert
        · cases hinsert
        · cases hinsert
          exact .inr ⟨by rw [hevents], by rw [← hevents]; rfl, rfl⟩

theorem ingestEvent_error {db db' : Db} {ev : Event} {e : UltraError}
    (h : ingestEvent db ev = (db', .error e)) : db'.events = db.events := by
  rcases ingestEvent_cases db ev with
    ⟨r, -, -, hcall⟩ | ⟨-, ⟨_, _, hcall, -⟩ | ⟨_, _, hcall, hevents⟩⟩
  · cases hcall.symm.trans h
  · cases hcall.symm.trans h
  · cases hcall.symm.trans h
    exact hevents

theorem inv_step {w w' : LakeWorld} {a : LakeAct} (h : w.Inv) (hstep : step w a = some w') :
    w'.Inv := by
  cases a with
  | ingest ev =>
    simp only [step] at hstep
    split at hstep
    next db e hcall =>
      cases hstep
      have hevents := ingestEvent_error hcall
      exact h.of_subset rfl (by rw [hevents]) (by simp [hevents]) h.lake h.parquet
    next db id hcall =>
      rcases ingestEvent_ok hcall with ⟨hthere, rfl⟩ | ⟨hid, hrows, hseq⟩
      · rw [if_pos hthere] at hstep
        cases hstep
        exact h
      · have hnew : ¬∃ r ∈ w.db.events.rows, r.id = id := by
          rintro ⟨r, hr, rfl⟩
          have hle := w.db.events.le_seq r hr
          rw [show eventSchema.id r = r.id from rfl] at hle
          omega
        rw [if_neg hnew] at hstep
        cases hstep
        exact h.ingest hid hrows hseq
  | copy cutoff =>
    cases hstep
    refine h.of_subset rfl rfl (fun _ hr => hr) h.lake fun c a ha => ?_
    by_cases hc : c = cutoff
    · subst hc
      simp only [Function.update_self, List.mem_map] at ha
      obtain ⟨r, hr, rfl⟩ := ha
      obtain ⟨p, hp, rfl⟩ := h.rows r (List.mem_of_mem_filter hr)
      exact ⟨p, hp, rfl⟩
    · simp only [Function.update_of_ne hc] at ha
      exact h.parquet c a ha
  | load cutoff =>
    rw [step] at hstep
    split at hstep
    next =>
      obtain rfl := Option.some.inj hstep
      refine h.of_subset rfl rfl (fun _ hr => hr) (fun a ha => ?_) h.parquet
      rcases List.mem_append.mp ha with ha | ha
      · exact h.lake a ha
      · exact h.parquet cutoff a ha
    next => cases hstep
  | delete cutoff =>
    rw [step] at hstep
    split_ifs at hstep
    cases hstep
    exact h.of_subset rfl rfl (fun r hr => List.mem_of_mem_filter hr) h.lake h.parquet
  | stop archive =>
    rw [step] at hstep
    split_ifs at hstep
    cases hstep
    exact h.of_subset rfl rfl (fun _ hr => hr) h.lake h.parquet

/-- A step other than a delete loses nothing. -/
theorem kept_step {w w' : LakeWorld} {a : LakeAct} (h : w.Kept) (hstep : step w a = some w')
    (hdelete : ∀ cutoff, a ≠ .delete cutoff) : w'.Kept := by
  cases a with
  | ingest ev =>
    simp only [step] at hstep
    split at hstep
    next db e hcall =>
      cases hstep
      exact h.mono rfl (by simp [ingestEvent_error hcall]) fun _ ha => ha
    next db id hcall =>
      rcases ingestEvent_ok hcall with ⟨hthere, rfl⟩ | ⟨-, hrows, -⟩
      · rw [if_pos hthere] at hstep
        cases hstep
        exact h
      · have hkept : Kept { w with db } := h.mono rfl (by simp +contextual [hrows]) fun _ ha => ha
        split_ifs at hstep
        · cases hstep
          exact hkept
        · cases hstep
          intro p hp
          rcases List.mem_append.mp hp with hp | hp
          · exact hkept p hp
          · obtain rfl := List.mem_singleton.mp hp
            exact .inl (hrows ▸ List.mem_append_right _ (List.mem_singleton_self _))
  | copy cutoff =>
    cases hstep
    exact h.mono rfl (fun _ hr => hr) fun _ ha => ha
  | load cutoff =>
    rw [step] at hstep
    split at hstep
    next =>
      obtain rfl := Option.some.inj hstep
      exact h.mono rfl (fun _ hr => hr) fun _ ha => List.mem_append_left _ ha
    next => cases hstep
  | delete cutoff => exact absurd rfl (hdelete cutoff)
  | stop archive =>
    rw [step] at hstep
    split_ifs at hstep
    cases hstep
    exact h.mono rfl (fun _ hr => hr) fun _ ha => ha

/-- A delete loses nothing exactly if the lake has what it finds. -/
theorem kept_delete_iff {w w' : LakeWorld} {cutoff : ℤ} (hinv : w.Inv) (h : w.Kept)
    (hstep : step w (.delete cutoff) = some w') : w'.Kept ↔ w.Covered (.delete cutoff) := by
  rw [step] at hstep
  split_ifs at hstep
  cases hstep
  have hrows : ∀ r, r ∈ (w.db.deleteBefore cutoff).events.rows ↔
      r ∈ w.db.events.rows ∧ ¬r.ts < cutoff := by simp [Db.deleteBefore]
  constructor
  · intro hkept r hr hold
    obtain ⟨p, hp, rfl⟩ := hinv.rows r hr
    rcases hkept p hp with hrow | hfull
    · exact absurd hold ((hrows _).mp hrow).2
    · -- the copy is of an event with the same id, so of this one
      obtain ⟨q, hq, hcopy⟩ := hinv.lake _ hfull
      obtain rfl : p = q := List.inj_on_of_nodup_map hinv.ids hp hq (congrArg LakeRow.id hcopy)
      have hcontent : (storedContent p.1.content).1 = p.1.content :=
        (congrArg LakeRow.content hcopy).symm
      exact ⟨storedContent_eq_iff.mp hcontent, hcopy ▸ hfull⟩
  · intro hcovered p hp
    rcases h p hp with hrow | hfull
    · by_cases hold : (rowOf p).ts < cutoff
      · obtain ⟨hplain, hcopy⟩ := hcovered _ hrow hold
        have hcontent : (storedContent p.1.content).1 = p.1.content :=
          storedContent_eq_iff.mpr hplain
        have hsame : LakeRow.of (rowOf p) = fullRow p := by
          simp [fullRow, LakeRow.of, rowOf, hcontent]
        exact .inr (hsame ▸ hcopy)
      · exact .inl ((hrows _).mpr ⟨hrow, hold⟩)
    · exact .inr hfull

/-- **When no event is lost.** In every state of a run, with any interleaving of the calls and the
archives. -/
theorem archive_kept_iff {foreignKeys : Bool} {columns : ℕ} {acts : List LakeAct} {w : LakeWorld}
    (hrun : run step (new foreignKeys columns) acts = some w) :
    Along step Kept (new foreignKeys columns) acts ↔
      Meets step Covered (new foreignKeys columns) acts := by
  have hknown : Meets step (fun _ _ => True) (new foreignKeys columns) acts :=
    Meets.of_forall fun _ _ => trivial
  refine along_iff_meets Inv Kept (fun _ _ _ => inv_step) (fun w a w' hinv hkept _ hstep => ?_)
    hrun hknown (inv_new foreignKeys columns) fun _ hp => (List.not_mem_nil hp).elim
  cases a with
  | delete cutoff => exact kept_delete_iff hinv hkept hstep
  | ingest ev => exact iff_of_true (kept_step hkept hstep fun _ => by simp) trivial
  | copy cutoff => exact iff_of_true (kept_step hkept hstep fun _ => by simp) trivial
  | load cutoff => exact iff_of_true (kept_step hkept hstep fun _ => by simp) trivial
  | stop archive => exact iff_of_true (kept_step hkept hstep fun _ => by simp) trivial

/-- No archive has loaded its file into a table without the eight columns. -/
def Unloaded (w : LakeWorld) : Prop := w.columns ≠ 8 ∧ ∀ a ∈ w.running, a.phase = .copied

theorem unloaded_step {w w' : LakeWorld} {a : LakeAct} (h : w.Unloaded)
    (hstep : step w a = some w') : w'.Unloaded := by
  obtain ⟨hcolumns, hphases⟩ := h
  cases a with
  | ingest ev =>
    simp only [step] at hstep
    split at hstep
    · cases hstep
      exact ⟨hcolumns, hphases⟩
    · split_ifs at hstep <;> cases hstep <;> exact ⟨hcolumns, hphases⟩
  | copy cutoff =>
    cases hstep
    exact ⟨hcolumns, List.forall_mem_cons.mpr ⟨rfl, hphases⟩⟩
  | load cutoff =>
    rw [step, if_neg fun h => hcolumns h.2] at hstep
    cases hstep
  | delete cutoff =>
    rw [step] at hstep
    split_ifs at hstep with hloaded
    cases hphases _ hloaded
  | stop archive =>
    rw [step] at hstep
    split_ifs at hstep
    cases hstep
    exact ⟨hcolumns, fun a ha => hphases a (List.mem_of_mem_erase ha)⟩

/-- Where nothing is deleted nothing is lost. -/
theorem kept_of_columns_ne {foreignKeys : Bool} {columns : ℕ} {acts : List LakeAct}
    {w : LakeWorld} (hcolumns : columns ≠ 8)
    (hrun : run step (new foreignKeys columns) acts = some w) : w.Kept := by
  have hstart : Kept (new foreignKeys columns) ∧ Unloaded (new foreignKeys columns) :=
    ⟨fun _ hp => (List.not_mem_nil hp).elim, hcolumns, fun _ ha => (List.not_mem_nil ha).elim⟩
  refine (run_preserves (fun w => w.Kept ∧ w.Unloaded) ?_ hrun hstart).1
  rintro w a w' ⟨hkept, hunloaded⟩ hstep
  refine ⟨kept_step hkept hstep ?_, unloaded_step hunloaded hstep⟩
  rintro cutoff rfl
  rw [step] at hstep
  split_ifs at hstep with hloaded
  cases hunloaded.2 _ hloaded

/-- With the table that `init` makes no event is lost. -/
theorem init_kept {foreignKeys : Bool} {acts : List LakeAct} {w : LakeWorld}
    (hrun : run step (new foreignKeys initColumns) acts = some w) : w.Kept :=
  kept_of_columns_ne (by decide) hrun

end

/-- An event is archived, and the next one comes after the delete. -/
def archivedInTime : List LakeAct :=
  [.ingest ⟨0, none, "bot", "message", none, some "hi", none⟩, .copy 5, .load 5, .delete 5,
    .ingest ⟨1, none, "bot", "message", none, some "ho", none⟩]

theorem archivedInTime_kept :
    let _ := ContentHash.checksum
    let _ := FloatText.zero
    let _ := ZstdCompress.off
    let _ := Refusal.never
    Along step Kept (new true 8) archivedInTime := by
  intro _ _ _ _
  obtain ⟨w, hrun⟩ : ∃ w, run step (new true 8) archivedInTime = some w :=
    Option.isSome_iff_exists.mp (by decide +kernel)
  exact (archive_kept_iff hrun).mpr (by decide +kernel)

/-- An event of an old time comes between the copy and the delete. -/
theorem late_event_lost :
    let _ := ContentHash.checksum
    let _ := FloatText.zero
    let _ := ZstdCompress.off
    let _ := Refusal.never
    ∃ w ∈ run step (new true 8)
      [.ingest ⟨0, none, "bot", "message", none, some "hi", none⟩, .copy 5, .load 5,
        .ingest ⟨1, none, "bot", "message", none, some "ho", none⟩, .delete 5], ¬w.Kept := by
  intro _ _ _ _
  exact ⟨_, rfl, by decide +kernel⟩

end LakeWorld

end SynapseMemory.Events
