import SynapseMemory.DaemonSteps

/-!
# Exactness of the cached counts

`stats_cache` keeps the counts of `docs` and `docs_vec` with the highest id they cover. After a
write the counts go up by the rows whose id is higher than that. So the invariant to look for is
that the counts are those of the rows **up to the highest id** (`StatsInv`), and what it takes to
keep it is that ids are counted in ascending order.

The store call and the adjustment are two sections. When two writes are adjusted in the other
order than they were stored, the ids of the first are skipped; between a store call and its
adjustment the cached counts are behind; and a `Delete` never lowers them. A run is **orderly**
when a write is adjusted only after the writes before it, when counts are taken from the cache
only while it covers every row and nothing was removed, and when the highest id is known as the
counts are cached. Every answer to `Stats` in an orderly run is exact. -/

namespace SynapseMemory

namespace Daemon

open Transition

variable {H E K : Type}

/-- A step that answers `Stats` gives the number of rows at that moment. -/
def ExactStats [DecidableEq H] [DecidableEq K] (s : State H E K) (a : Action H E K) : Prop :=
  ∀ s', exec s a = some s' → ∀ p docs vecs, s.procs p ≠ .done (.stats docs vecs) →
    s'.procs p = .done (.stats docs vecs) →
      docs = s'.tables.docs.length ∧ vecs = s'.tables.vecs.length

/-- Whether a `Delete` has removed a document and waits for the store it holds. -/
def removing (s : State H E K) : Bool :=
  match s.storeHeld with
  | some p =>
    match s.procs p with
    | .removed _ true _ => true
    | _ => false
  | none => false

/-- Every document below an id is covered by the cached counts. -/
def Snapshot.covers (snap : Snapshot) (t : Tables H E) (below : ℕ) : Bool :=
  t.docs.all fun d => d.1 < below → d.1 ≤ snap.maxId

/-- The sections that use the cache do so in order. -/
def orderly (s : State H E K) : Action H E K → Bool
  | .adjust p =>
    match s.procs p, s.statsCache with
    | .stored _ base _, some snap => snap.covers s.tables base
    | _, _ => true
  | .look _ true =>
    match s.statsCache with
    | some snap => snap.covers s.tables s.tables.nextId && !removing s
    | none => true
  | .fill _ maxOk => maxOk || s.tables.docs.all (·.1 ≤ s.tables.docs.length)
  | _ => true

/-! ## Counting rows up to an id -/

/-- The number of rows with an id up to a bound. -/
def countUpTo {α : Type} (rows : List (ℕ × α)) (bound : ℕ) : ℕ := rows.countP (·.1 ≤ bound)

section Count

variable {α : Type} {rows new : List (ℕ × α)} {bound : ℕ}

theorem countUpTo_eq_length (h : ∀ r ∈ rows, r.1 ≤ bound) : countUpTo rows bound = rows.length :=
  List.countP_eq_length.mpr fun r hr => decide_eq_true (h r hr)

/-- Rows past the bound do not count. -/
theorem countUpTo_append (h : ∀ r ∈ new, bound < r.1) :
    countUpTo (rows ++ new) bound = countUpTo rows bound := by
  have hnone : new.countP (·.1 ≤ bound) = 0 := by
    rw [List.countP_eq_zero]
    intro r hr
    simpa using h r hr
  rw [countUpTo, List.countP_append, hnone]
  rfl

/-- The next id that occurs counts its own rows as well. -/
theorem countUpTo_next {id : ℕ} (hlt : bound < id) (hgap : ∀ r ∈ rows, r.1 < id → r.1 ≤ bound) :
    countUpTo rows id = countUpTo rows bound + (rows.map Prod.fst).count id := by
  induction rows with
  | nil => rfl
  | cons r rest ih =>
    have hrest := ih fun x hx => hgap x (List.mem_cons_of_mem _ hx)
    have hr := hgap r List.mem_cons_self
    simp only [countUpTo, List.countP_cons, List.map_cons, List.count_cons, decide_eq_true_eq,
      beq_iff_eq] at hrest ⊢
    rw [hrest]
    split <;> split <;> split <;> omega

end Count

/-! ## Rows of a batch -/

namespace Tables

/-- Rows were added, with ids from the next one on. -/
structure Extends (t t' : Tables H E) : Prop where
  nextId_le : t.nextId ≤ t'.nextId
  docs : ∃ new, t'.docs = t.docs ++ new ∧ ∀ d ∈ new, t.nextId ≤ d.1
  vecs : ∃ new, t'.vecs = t.vecs ++ new ∧ ∀ v ∈ new, t.nextId ≤ v.1

theorem Extends.refl (t : Tables H E) : t.Extends t :=
  ⟨Nat.le_refl _, ⟨[], by simp⟩, ⟨[], by simp⟩⟩

theorem Extends.trans {t u w : Tables H E} (h : t.Extends u) (h' : u.Extends w) : t.Extends w := by
  obtain ⟨hle, ⟨docs, hdocs, hdocsNew⟩, vecs, hvecs, hvecsNew⟩ := h
  obtain ⟨hle', ⟨docs', hdocs', hdocsNew'⟩, vecs', hvecs', hvecsNew'⟩ := h'
  refine ⟨Nat.le_trans hle hle', ⟨docs ++ docs', ?_, fun d hd => ?_⟩,
    ⟨vecs ++ vecs', ?_, fun v hv => ?_⟩⟩
  · rw [hdocs', hdocs, List.append_assoc]
  · rcases List.mem_append.mp hd with hd | hd
    · exact hdocsNew d hd
    · exact Nat.le_trans hle (hdocsNew' d hd)
  · rw [hvecs', hvecs, List.append_assoc]
  · rcases List.mem_append.mp hv with hv | hv
    · exact hvecsNew v hv
    · exact Nat.le_trans hle (hvecsNew' v hv)

theorem append_extends (t : Tables H E) (item : Item H E) : t.Extends (t.append item) := by
  refine ⟨Nat.le_succ _, ⟨_, rfl, fun d hd => ?_⟩, _, rfl, fun v hv => ?_⟩
  · obtain rfl := List.mem_singleton.mp hd
    exact Nat.le_refl _
  · obtain ⟨e, -, rfl⟩ := Option.map_eq_some_iff.mp (Option.mem_toList.mp hv)
    exact Nat.le_refl _

theorem append_vec_iff (t : Tables H E) (item : Item H E) :
    t.nextId ∈ (t.append item).vecs.map Prod.fst ↔ item.embedding.isSome = true := by
  have hold : t.nextId ∉ t.vecs.map Prod.fst := by
    intro hmem
    obtain ⟨v, hv, heq⟩ := List.mem_map.mp hmem
    exact absurd heq (Nat.ne_of_lt (t.vecs_lt hv))
  rw [append, List.map_append, List.mem_append, or_iff_right hold]
  cases item.embedding <;> simp

/-- An id has a document. -/
def HasDoc (t : Tables H E) (id : ℕ) : Prop := id ∈ t.docs.map Prod.fst

theorem HasDoc.lt {t : Tables H E} {id : ℕ} (h : t.HasDoc id) : id < t.nextId := by
  obtain ⟨d, hd, rfl⟩ := List.mem_map.mp h
  exact t.docs_lt d hd

theorem HasDoc.mono {t t' : Tables H E} {id : ℕ} (h : t.HasDoc id) (hext : t.Extends t') :
    t'.HasDoc id := by
  obtain ⟨new, hdocs, -⟩ := hext.docs
  rw [HasDoc, hdocs, List.map_append]
  exact List.mem_append_left _ h

/-- Whether a document with this id has a vector does not change when rows are added. -/
theorem Extends.vec_iff {t t' : Tables H E} {id : ℕ} (hext : t.Extends t') (hid : id < t.nextId) :
    id ∈ t'.vecs.map Prod.fst ↔ id ∈ t.vecs.map Prod.fst := by
  obtain ⟨new, hvecs, hnew⟩ := hext.vecs
  rw [hvecs, List.map_append, List.mem_append, or_iff_left]
  intro hmem
  obtain ⟨v, hv, rfl⟩ := List.mem_map.mp hmem
  exact Nat.not_lt.mpr (hnew v hv) hid

/-- The rows of one batch: a new document gets the next id, with a vector when it has an
embedding, and any other has an id below. -/
def Batch (t : Tables H E) : ℕ → List (Row E) → Prop
  | _, [] => True
  | next, row :: rest =>
    t.HasDoc row.id ∧
      (row.id = next ∧ (row.id ∈ t.vecs.map Prod.fst ↔ row.embedding.isSome = true) ∧
          t.Batch (next + 1) rest ∨
        row.id < next ∧ t.Batch next rest)

theorem Batch.mono {t t' : Tables H E} (hext : t.Extends t') {next : ℕ} {rows : List (Row E)}
    (h : t.Batch next rows) : t'.Batch next rows := by
  induction rows generalizing next with
  | nil => trivial
  | cons row rest ih =>
    obtain ⟨hdoc, ⟨hid, hvec, hrest⟩ | ⟨hid, hrest⟩⟩ := h
    · exact ⟨hdoc.mono hext, .inl ⟨hid, (hext.vec_iff hdoc.lt).trans hvec, ih hrest⟩⟩
    · exact ⟨hdoc.mono hext, .inr ⟨hid, ih hrest⟩⟩

variable [DecidableEq H]

theorem put_extends (t : Tables H E) (item : Item H E) : t.Extends (t.put item).1 := by
  unfold put
  split
  · exact .refl t
  · exact t.append_extends item

theorem putBatch_extends (t : Tables H E) (items : List (Item H E)) :
    t.Extends (t.putBatch items).1 := by
  induction items generalizing t with
  | nil => exact .refl t
  | cons item rest ih => exact (t.put_extends item).trans (ih _)

/-- A batch gives out ids from the next one on. -/
theorem putBatch_batch (t : Tables H E) (items : List (Item H E)) :
    (t.putBatch items).1.Batch t.nextId (t.putBatch items).2 := by
  induction items generalizing t with
  | nil => trivial
  | cons item rest ih =>
    have hext := (t.put item).1.putBatch_extends rest
    have hrest := ih (t.put item).1
    simp only [putBatch]
    revert hext hrest
    unfold put
    split
    · rename_i d hfind
      intro hext hrest
      have hdoc : t.HasDoc d.1 := List.mem_map_of_mem (List.mem_of_find?_eq_some hfind)
      exact ⟨hdoc.mono hext, .inr ⟨hdoc.lt, hrest⟩⟩
    · intro hext hrest
      have hdoc : (t.append item).HasDoc t.nextId := by
        rw [HasDoc, append, List.map_append]
        exact List.mem_append_right _ (List.mem_singleton_self _)
      refine ⟨hdoc.mono hext, .inl ⟨rfl, ?_, hrest⟩⟩
      exact (hext.vec_iff hdoc.lt).trans (t.append_vec_iff item)

end Tables

/-! ## The invariant -/

/-- The counts of the rows up to the highest id. -/
structure Snapshot.Exact (snap : Snapshot) (t : Tables H E) : Prop where
  maxId_lt : snap.maxId < t.nextId
  docs : snap.docs = countUpTo t.docs snap.maxId
  vecs : snap.vecs = countUpTo t.vecs snap.maxId

namespace Snapshot

variable {snap : Snapshot} {t t' : Tables H E}

theorem Exact.mono (h : snap.Exact t) (hext : t.Extends t') : snap.Exact t' := by
  obtain ⟨hle, ⟨docs, hdocs, hdocsNew⟩, vecs, hvecs, hvecsNew⟩ := hext
  refine ⟨Nat.lt_of_lt_of_le h.maxId_lt hle, ?_, ?_⟩
  · rw [hdocs, countUpTo_append fun d hd => Nat.lt_of_lt_of_le h.maxId_lt (hdocsNew d hd)]
    exact h.docs
  · rw [hvecs, countUpTo_append fun v hv => Nat.lt_of_lt_of_le h.maxId_lt (hvecsNew v hv)]
    exact h.vecs

theorem covers_iff {below : ℕ} :
    snap.covers t below = true ↔ ∀ id, t.HasDoc id → id < below → id ≤ snap.maxId := by
  rw [covers, List.all_eq_true]
  constructor
  · intro h id hid hlt
    obtain ⟨d, hd, rfl⟩ := List.mem_map.mp hid
    exact of_decide_eq_true (h d hd) hlt
  · intro h d hd
    exact decide_eq_true (h d.1 (List.mem_map_of_mem hd))

/-- One document is next to be counted. -/
theorem Exact.next (h : snap.Exact t) {row : Row E} (hdoc : t.HasDoc row.id)
    (hlt : snap.maxId < row.id) (hcovers : snap.covers t row.id = true)
    (hvec : row.id ∈ t.vecs.map Prod.fst ↔ row.embedding.isSome = true) :
    (snap.adjust row).Exact t := by
  rw [covers_iff] at hcovers
  rw [Snapshot.adjust, if_pos hlt]
  refine ⟨hdoc.lt, ?_, ?_⟩
  · rw [countUpTo_next hlt fun d hd => hcovers d.1 (List.mem_map_of_mem hd),
      List.count_eq_one_of_mem t.docs_nodup hdoc, h.docs]
  · rw [countUpTo_next hlt fun v hv => hcovers v.1 (t.vecs_docs v hv), h.vecs]
    by_cases hsome : row.embedding.isSome = true
    · rw [if_pos hsome, List.count_eq_one_of_mem t.vecs_nodup (hvec.mpr hsome)]
    · rw [if_neg hsome, List.count_eq_zero_of_not_mem fun hmem => hsome (hvec.mp hmem)]

/-- **The loop of the adjustment** counts the new documents of a batch, once every document
before the batch is counted. -/
theorem Exact.foldl_adjust {next : ℕ} {rows : List (Row E)} (h : snap.Exact t)
    (hcovers : snap.covers t next = true) (hbatch : t.Batch next rows) :
    (rows.foldl Snapshot.adjust snap).Exact t := by
  induction rows generalizing snap next with
  | nil => exact h
  | cons row rest ih =>
    rw [List.foldl_cons]
    obtain ⟨hdoc, ⟨rfl, hvec, hrest⟩ | ⟨hid, hrest⟩⟩ := hbatch
    · by_cases hlt : snap.maxId < row.id
      · -- a new document, the next to be counted
        refine ih (h.next hdoc hlt hcovers hvec) (covers_iff.mpr fun id _ hid => ?_) hrest
        rw [Snapshot.adjust, if_pos hlt]
        exact Nat.le_of_lt_succ hid
      · -- a new document that was counted when the cache was filled after the store call
        rw [Snapshot.adjust, if_neg hlt]
        refine ih h (covers_iff.mpr fun id _ hid => ?_) hrest
        exact Nat.le_trans (Nat.le_of_lt_succ hid) (Nat.not_lt.mp hlt)
    · -- a document from before, or from earlier in the batch
      have hle : row.id ≤ snap.maxId := covers_iff.mp hcovers row.id hdoc hid
      rw [Snapshot.adjust, if_neg (Nat.not_lt.mpr hle)]
      exact ih h hcovers hrest

/-- Counts of all rows, with a bound on their ids. -/
theorem exact_of_le {maxId : ℕ} (hlt : maxId < t.nextId) (hle : ∀ d ∈ t.docs, d.1 ≤ maxId) :
    (⟨t.docs.length, t.vecs.length, maxId⟩ : Snapshot).Exact t := by
  refine ⟨hlt, (countUpTo_eq_length hle).symm, (countUpTo_eq_length fun v hv => ?_).symm⟩
  obtain ⟨d, hd, heq⟩ := List.mem_map.mp (t.vecs_docs v hv)
  exact heq ▸ hle d hd

end Snapshot

namespace Tables

theorem le_maxId (t : Tables H E) {d : ℕ × H} (hd : d ∈ t.docs) : d.1 ≤ t.maxId :=
  List.le_max_of_le (List.mem_map_of_mem hd) (Nat.le_refl _)

theorem maxId_lt (t : Tables H E) : t.maxId < t.nextId := by
  refine Nat.lt_of_le_pred t.nextId_pos (List.max_le_of_forall_le _ _ fun id hid => ?_)
  exact Nat.le_pred_of_lt (HasDoc.lt hid)

/-- There are no more documents than ids. -/
theorem length_lt (t : Tables H E) : t.docs.length < t.nextId := by
  have hsub : t.docs.map Prod.fst ⊆ List.range' 1 (t.nextId - 1) := by
    intro id hid
    obtain ⟨d, hd, rfl⟩ := List.mem_map.mp hid
    have hlt := t.docs_lt d hd
    have hpos := t.docs_pos d hd
    rw [List.mem_range'_1]
    omega
  have hle := (t.docs_nodup.subperm hsub).length_le
  rw [List.length_map, List.length_range'] at hle
  have hpos := t.nextId_pos
  omega

end Tables

/-- What a phase knows about the ids its batch was given. -/
def BatchPhase (t : Tables H E) : Proc H E K → Prop
  | .stored _ base rows => t.Batch base rows
  | _ => True

/-- The cached counts are exact up to their highest id. -/
structure StatsInv (s : State H E K) : Prop where
  phase : ∀ p, BatchPhase s.tables (s.procs p)
  exact : ∀ snap, s.statsCache = some snap → snap.Exact s.tables

theorem statsInv_initial (tables : Tables H E) :
    StatsInv (State.initial tables : State H E K) where
  phase _ := trivial
  exact _ h := nomatch h

/-- A section that only adds rows and leaves the cache alone. -/
theorem StatsInv.frame {s s' : State H E K} {p : ℕ} {phase : Proc H E K} (h : StatsInv s)
    (hprocs : s'.procs = Function.update s.procs p phase) (hext : s.tables.Extends s'.tables)
    (hcache : s'.statsCache = s.statsCache) (hphase : BatchPhase s'.tables phase) :
    StatsInv s' := by
  refine ⟨?_, fun snap hsnap => (h.exact snap (hcache ▸ hsnap)).mono hext⟩
  rw [hprocs]
  refine (Function.forall_update_iff _ _).mpr ⟨hphase, fun q _ => ?_⟩
  have hold := h.phase q
  cases hq : s.procs q with
  | stored time base rows =>
    rw [hq] at hold
    exact hold.mono hext
  | _ => trivial

/-! ## Sections and runs -/

variable [DecidableEq H] [DecidableEq K]

/-- **The counts through a section** of an orderly run. -/
theorem StatsInv.step {s s' : State H E K} {a : Action H E K} (h : StatsInv s) (hlocks : Locks s)
    (horder : orderly s a = true) (hs : Step s a s') : StatsInv s' ∨ Removing s' := by
  have hrefl := Tables.Extends.refl s.tables
  cases hs with
  | start p req hp =>
    refine .inl (h.frame rfl hrefl rfl ?_)
    cases req <;> trivial
  | storeWrite p items hfree hp =>
    exact .inl (h.frame rfl (s.tables.putBatch_extends items) rfl (s.tables.putBatch_batch items))
  | storeDelete p id hfree hp =>
    by_cases hid : id ∈ s.tables.docs.map Prod.fst
    · refine .inr ⟨p, id, s.clock + 1, ?_⟩
      simp only [State.goto, Function.update_self, hid, decide_true]
    · refine .inl (h.frame rfl ?_ rfl trivial)
      refine ⟨Nat.le_refl _, ⟨[], ?_, nofun⟩, [], ?_, nofun⟩
      · rw [List.append_nil]
        exact s.tables.remove_docs_of_not_mem hid
      · rw [List.append_nil]
        exact s.tables.remove_vecs_of_not_mem hid
  | adjust p time base rows hp =>
    left
    have hbatch := h.phase p
    rw [hp] at hbatch
    refine ⟨(Function.forall_update_iff _ _).mpr ⟨trivial, fun q _ => h.phase q⟩, ?_⟩
    intro snap hsnap
    obtain ⟨old, hold, rfl⟩ := Option.map_eq_some_iff.mp hsnap
    simp only [orderly, hp, hold] at horder
    exact (h.exact old hold).foldl_adjust horder hbatch
  | fill p docs vecs maxOk hp =>
    left
    obtain ⟨-, rfl, rfl⟩ := hlocks.phaseOf hp
    refine ⟨(Function.forall_update_iff _ _).mpr ⟨trivial, fun q _ => h.phase q⟩, ?_⟩
    rintro snap ⟨⟩
    cases maxOk with
    | true => exact Snapshot.exact_of_le s.tables.maxId_lt fun d hd => s.tables.le_maxId hd
    | false =>
      simp only [orderly, Bool.false_or, List.all_eq_true, decide_eq_true_eq] at horder
      exact Snapshot.exact_of_le s.tables.length_lt horder
  | warmRead hw => exact .inl ⟨h.phase, h.exact⟩
  | warmFail hw => exact .inl ⟨h.phase, h.exact⟩
  | warmPublish snapshot hw => exact .inl ⟨h.phase, h.exact⟩
  | _ => exact .inl (h.frame rfl hrefl rfl trivial)

omit [DecidableEq H] [DecidableEq K] in
/-- A `Delete` that waits holds the store. -/
theorem removing_of_removing {s : State H E K} (hlocks : Locks s) (h : Removing s) :
    removing s = true := by
  obtain ⟨p, id, time, hp⟩ := h
  have hheld : s.storeHeld = some p := hlocks.phaseOf hp
  simp only [removing, hheld, hp]

/-- Counts are given by the cache, which is exact, or under the store lock. -/
theorem exactStats {s : State H E K} {a : Action H E K} (hlocks : Locks s)
    (h : StatsInv s ∨ Removing s) (horder : orderly s a = true) : ExactStats s a := by
  intro s' hexec p docs vecs hold hnew
  have hmoved : ∀ q phase, Function.update s.procs q phase p = .done (.stats docs vecs) →
      q = p ∧ phase = .done (.stats docs vecs) := by
    intro q phase hup
    by_cases hq : p = q
    · subst hq
      rw [Function.update_self] at hup
      exact ⟨rfl, hup⟩
    · rw [Function.update_of_ne hq] at hup
      exact absurd hup hold
  cases exec_step hexec with
  | lookCached q snap hq hsnap =>
    obtain ⟨rfl, hphase⟩ := hmoved _ _ hnew
    obtain ⟨rfl, rfl⟩ := Answer.stats.inj (Proc.done.inj hphase)
    simp only [orderly, hsnap, Bool.and_eq_true, Bool.not_eq_true'] at horder
    have hinv : StatsInv s := h.resolve_right fun hrem =>
      absurd (removing_of_removing hlocks hrem) (by rw [horder.2]; nofun)
    have hexact := hinv.exact snap hsnap
    have hle : ∀ d ∈ s.tables.docs, d.1 ≤ snap.maxId := fun d hd =>
      Snapshot.covers_iff.mp horder.1 d.1 (List.mem_map_of_mem hd) (s.tables.docs_lt d hd)
    refine ⟨hexact.docs.trans (countUpTo_eq_length hle),
      hexact.vecs.trans (countUpTo_eq_length fun v hv => ?_)⟩
    obtain ⟨d, hd, heq⟩ := List.mem_map.mp (s.tables.vecs_docs v hv)
    exact heq ▸ hle d hd
  | fill q d v maxOk hq =>
    obtain ⟨rfl, hphase⟩ := hmoved _ _ hnew
    obtain ⟨rfl, rfl⟩ := Answer.stats.inj (Proc.done.inj hphase)
    exact (hlocks.phaseOf hq).2
  | start q req hq =>
    obtain ⟨rfl, hphase⟩ := hmoved _ _ hnew
    cases req <;> cases hphase
  | warmRead hw => exact absurd hnew hold
  | warmFail hw => exact absurd hnew hold
  | warmPublish snapshot hw => exact absurd hnew hold
  | _ =>
    obtain ⟨rfl, hphase⟩ := hmoved _ _ hnew
    cases hphase

/-- **Stats stay exact.** In every orderly run, each answer to `Stats` gives the number of rows in
`docs` and `docs_vec` at that moment. -/
theorem stats_exact {tables : Tables H E} {actions : List (Action H E K)}
    (hmeets : Meets exec (fun s a => orderly s a = true) (State.initial tables) actions) :
    Meets exec ExactStats (State.initial tables) actions := by
  refine hmeets.of_invariant (fun s => Locks s ∧ (StatsInv s ∨ Removing s)) ?_ ?_
    ⟨locks_initial tables, .inl (statsInv_initial tables)⟩
  · intro s a s' ⟨hlocks, hinv⟩ horder hstep
    have hs := exec_step hstep
    refine ⟨hlocks.step hs, ?_⟩
    exact hinv.elim (fun h => h.step hlocks horder hs) fun h => .inr (h.step hlocks hs)
  · intro s a ⟨hlocks, hinv⟩ horder
    exact exactStats hlocks hinv horder

/-- A database with one document. -/
def oneDoc : Tables ℕ ℕ := Tables.empty.append ⟨5, none⟩

/-- The counts are cached, a document with a vector is stored, and the counts are asked for. -/
def countedRun : List (Action ℕ ℕ ℕ) :=
  [.start 0 .stats, .look 0 true, .count 0, .fill 0 true, .start 1 (.write [⟨6, some 60⟩]),
    .store 1 true, .adjust 1, .start 2 .stats, .look 2 true]

theorem countedRun_exact :
    (run exec (State.initial oneDoc) countedRun).map (fun s => s.procs 2) =
      some (.done (.stats 2 1)) ∧ Meets exec ExactStats (State.initial oneDoc) countedRun :=
  ⟨rfl, stats_exact (by decide)⟩

/-- A run whose last step answers `Stats` with another number of documents. -/
theorem not_exactStats_of_last {tables : Tables H E} {actions : List (Action H E K)}
    {a : Action H E K} (p docs vecs n : ℕ)
    (hbefore : (run exec (State.initial tables) actions).map (fun s => s.procs p) = some .stats)
    (hafter : (run exec (State.initial tables) (actions ++ [a])).map
      (fun s => (s.procs p, s.tables.docs.length)) = some (.done (.stats docs vecs), n))
    (hne : docs ≠ n) : ¬ Meets exec ExactStats (State.initial tables) (actions ++ [a]) := by
  intro hmeets
  obtain ⟨s, hrun, hp⟩ := Option.map_eq_some_iff.mp hbefore
  obtain ⟨s', hrun', hs'⟩ := Option.map_eq_some_iff.mp hafter
  obtain ⟨hp', hlen⟩ := Prod.mk.inj hs'
  rw [run_append, hrun] at hrun'
  obtain ⟨t, ht, hdone⟩ := run_cons.mp hrun'
  obtain rfl := Option.some.inj hdone
  have hexact := (hmeets.of_append hrun).1 t ht p docs vecs (by rw [hp]; nofun) hp'
  exact hne (hexact.1.trans hlen)

/-- The counts are cached, and two writes adjust them in the other order than they stored. -/
def swappedRun : List (Action ℕ ℕ ℕ) :=
  [.start 0 .stats, .look 0 true, .count 0, .fill 0 true, .start 1 (.write [⟨6, none⟩]),
    .start 2 (.write [⟨7, none⟩]), .store 1 true, .store 2 true, .adjust 2, .adjust 1,
    .start 3 .stats] ++ [.look 3 true]

/-- The first write is not counted: its id is not higher than the one that the second has left. -/
theorem stats_wrong : ¬Meets exec ExactStats (State.initial oneDoc) swappedRun :=
  not_exactStats_of_last 3 2 0 3 rfl rfl (by decide)

end Daemon

end SynapseMemory
