import SynapseMemory.DaemonSteps

/-!
# The lifted index against `docs_vec`

The warm-up reads `docs_vec` into a snapshot and publishes it later as the index. In the meantime
the index is absent and writes pass it by: a vector that is stored and lifted between the two is
in neither. Once the index is there, a write lifts every embedding of its request, also when the
store recognised the text and stored nothing.

Call a lift **safe** when neither happens: while a snapshot waits, the embedding of a new row is in
it already, and once the index is there, the row is new or its id is in the index. The invariant
is that the **copy** of `docs_vec` (the snapshot, then the index) has no row of its own, and lacks
only rows that some write still has to lift (`Pending`). When every request is answered there are
none, and the index is `docs_vec`.

A `Delete` that removed a row would leave it in the index, but it is never answered. -/

namespace SynapseMemory

namespace Daemon

open Transition

variable {H E K : Type}

/-- Every request is answered. -/
def Quiet (s : State H E K) : Prop :=
  ∀ p, s.procs p = .idle ∨ ∃ answer, s.procs p = .done answer

/-- The published index holds the rows of `docs_vec`, each once. -/
def IndexAgrees (s : State H E K) : Prop :=
  s.warm = .published → Quiet s →
    ∃ index, s.index = some index ∧ (index.map Prod.fst).Nodup ∧
      ∀ id e, (id, e) ∈ index ↔ (id, e) ∈ s.tables.vecs

/-- A lift of an embedding that neither loses a row nor adds one that is not stored. -/
def safeLift (s : State H E K) : Action H E K → Bool
  | .lift p =>
    match s.procs p with
    | .lifting _ _ (⟨id, inserted, some _⟩ :: _) =>
      match s.index, s.warm with
      | some index, _ => inserted || id ∈ index.map Prod.fst
      | none, .read snapshot => !inserted || id ∈ snapshot.map Prod.fst
      | none, _ => true
    | _ => true
  | _ => true

/-! ## Rows of `docs_vec` -/

/-- The row of `docs_vec` that storing an item made, if it made one. -/
def Row.vec (row : Row E) : Option (ℕ × E) :=
  if row.inserted then row.embedding.map (row.id, ·) else none

theorem Row.vec_eq_some {row : Row E} {v : ℕ × E} :
    row.vec = some v ↔ row.inserted = true ∧ row.id = v.1 ∧ row.embedding = some v.2 := by
  obtain ⟨id, inserted, embedding⟩ := row
  obtain ⟨vid, e⟩ := v
  cases inserted <;> cases embedding <;> simp [Row.vec]

namespace Tables

/-- An id has one vector. -/
theorem vec_unique (t : Tables H E) {id : ℕ} {e e' : E} (h : (id, e) ∈ t.vecs)
    (h' : (id, e') ∈ t.vecs) : e = e' :=
  congrArg Prod.snd (List.inj_on_of_nodup_map t.vecs_nodup h h' rfl)

theorem mem_append_vecs (t : Tables H E) (item : Item H E) (v : ℕ × E) :
    v ∈ (t.append item).vecs ↔
      v ∈ t.vecs ∨ (⟨t.nextId, true, item.embedding⟩ : Row E).vec = some v := by
  rw [append, List.mem_append, Option.mem_toList]
  rfl

variable [DecidableEq H]

theorem mem_put_vecs (t : Tables H E) (item : Item H E) (v : ℕ × E) :
    v ∈ (t.put item).1.vecs ↔ v ∈ t.vecs ∨ (t.put item).2.vec = some v := by
  unfold put
  split
  · rw [Row.vec_eq_some]
    simp
  · exact t.mem_append_vecs item v

/-- A batch adds to `docs_vec` the rows of its new documents. -/
theorem mem_putBatch_vecs (t : Tables H E) (items : List (Item H E)) (v : ℕ × E) :
    v ∈ (t.putBatch items).1.vecs ↔
      v ∈ t.vecs ∨ ∃ row ∈ (t.putBatch items).2, row.vec = some v := by
  induction items generalizing t with
  | nil => simp [putBatch]
  | cons item rest ih =>
    simp only [putBatch, ih, mem_put_vecs, List.mem_cons, exists_eq_or_imp]
    rw [or_assoc]

end Tables

/-! ## The invariant -/

/-- The rows a process still has to lift. -/
def Proc.toLift : Proc H E K → List (Row E)
  | .stored _ _ rows => rows
  | .lifting _ _ todo => todo
  | _ => []

/-- A row of `docs_vec` that a process still has to lift. -/
def Pending (s : State H E K) (v : ℕ × E) : Prop :=
  ∃ p, ∃ row ∈ (s.procs p).toLift, row.vec = some v

/-- The snapshot of the warm-up, and then the index. -/
def Copy (s : State H E K) (copy : List (ℕ × E)) : Prop :=
  s.warm = .read copy ∨ s.index = some copy

/-- A list of vectors that has no row of its own and lacks only rows still to be lifted. -/
structure Faithful (s : State H E K) (copy : List (ℕ × E)) : Prop where
  nodup : (copy.map Prod.fst).Nodup
  sound : ∀ v ∈ copy, v ∈ s.tables.vecs
  complete : ∀ v ∈ s.tables.vecs, v ∈ copy ∨ Pending s v

/-- What holds of the lifted index in every state of a run. -/
structure IndexInv (s : State H E K) : Prop where
  absent : s.index = none ∨ s.warm = .published
  present : s.warm = .published → ∃ index, s.index = some index
  stored : ∀ v, Pending s v → v ∈ s.tables.vecs
  faithful : ∀ copy, Copy s copy → Faithful s copy

theorem indexInv_initial (tables : Tables H E) :
    IndexInv (State.initial tables : State H E K) where
  absent := .inl rfl
  present h := nomatch h
  stored := by
    rintro v ⟨p, row, hrow, -⟩
    cases hrow
  faithful _ h := h.elim nofun nofun

section Frame

variable {s s' : State H E K} {copy : List (ℕ × E)}

/-- The copy has a row as soon as it has its id. -/
theorem Faithful.mem_of_id (h : Faithful s copy) {v : ℕ × E} (hv : v ∈ s.tables.vecs)
    (hid : v.1 ∈ copy.map Prod.fst) : v ∈ copy := by
  obtain ⟨⟨id, e⟩, hmem, heq⟩ := List.mem_map.mp hid
  obtain ⟨vid, ve⟩ := v
  obtain rfl : id = vid := heq
  obtain rfl := s.tables.vec_unique (h.sound _ hmem) hv
  exact hmem

/-- Nothing happened to the vectors, and what was pending is in the copy or still pending. -/
theorem Faithful.mono (h : Faithful s copy) (hvecs : s'.tables.vecs = s.tables.vecs)
    (hpending : ∀ v ∈ s.tables.vecs, Pending s v → v ∈ copy ∨ Pending s' v) :
    Faithful s' copy where
  nodup := h.nodup
  sound := by
    rw [hvecs]
    exact h.sound
  complete v hv := by
    rw [hvecs] at hv
    exact (h.complete v hv).elim .inl (hpending v hv)

/-- A section that changes neither the vectors, nor the copy, nor what is still to be lifted. -/
theorem IndexInv.congr (h : IndexInv s) (hvecs : s'.tables.vecs = s.tables.vecs)
    (hindex : s'.index = s.index) (hwarm : s'.warm = s.warm)
    (hpending : ∀ v, Pending s' v ↔ Pending s v) : IndexInv s' := by
  refine ⟨?_, ?_, ?_, fun copy hcopy => ?_⟩
  · rw [hindex, hwarm]
    exact h.absent
  · rw [hindex, hwarm]
    exact h.present
  · intro v hv
    rw [hvecs]
    exact h.stored v ((hpending v).mp hv)
  · rw [Copy, hindex, hwarm] at hcopy
    exact (h.faithful copy hcopy).mono hvecs fun v _ hv => .inr ((hpending v).mpr hv)

/-- A process moves on and has the same rows to lift. -/
theorem IndexInv.frame {p : ℕ} {phase : Proc H E K} (h : IndexInv s)
    (hprocs : s'.procs = Function.update s.procs p phase)
    (hvecs : s'.tables.vecs = s.tables.vecs) (hindex : s'.index = s.index)
    (hwarm : s'.warm = s.warm) (hlift : phase.toLift = (s.procs p).toLift) : IndexInv s' := by
  refine h.congr hvecs hindex hwarm fun v => ?_
  have hsame : ∀ q, (s'.procs q).toLift = (s.procs q).toLift := by
    rw [hprocs]
    exact (Function.forall_update_iff _
      fun q (ph : Proc H E K) => ph.toLift = (s.procs q).toLift).mpr ⟨hlift, fun q _ => rfl⟩
  rw [Pending, Pending]
  simp only [hsame]

end Frame

/-! ## Lifting a row -/

section Lift

variable {s s' : State H E K} {p time : ℕ} {rows todo : List (Row E)} {row : Row E}

/-- What is pending when a process has a row less to lift. -/
theorem pending_lift (hp : s.procs p = .lifting time rows (row :: todo))
    (hprocs : s'.procs = Function.update s.procs p (.lifting time rows todo)) (v : ℕ × E) :
    Pending s v ↔ row.vec = some v ∨ Pending s' v := by
  rw [Pending, Pending, hprocs, Function.exists_update_iff _
    (fun _ (ph : Proc H E K) => ∃ row ∈ ph.toLift, row.vec = some v)]
  constructor
  · rintro ⟨q, r, hr, hv⟩
    by_cases hq : q = p
    · subst hq
      rw [hp] at hr
      rcases List.mem_cons.mp hr with rfl | hr
      · exact .inl hv
      · exact .inr (.inl ⟨r, hr, hv⟩)
    · exact .inr (.inr ⟨q, hq, r, hr, hv⟩)
  · rintro (hv | ⟨r, hr, hv⟩ | ⟨q, -, r, hr, hv⟩)
    · exact ⟨p, row, by rw [hp]; exact List.mem_cons_self, hv⟩
    · exact ⟨p, r, by rw [hp]; exact List.mem_cons_of_mem _ hr, hv⟩
    · exact ⟨q, r, hr, hv⟩

/-- The copy has the id already, if the row is new: nothing is lost with it. -/
theorem Faithful.skip {copy : List (ℕ × E)} (h : Faithful s copy)
    (hvecs : s'.tables.vecs = s.tables.vecs)
    (hpending : ∀ v, Pending s v ↔ row.vec = some v ∨ Pending s' v)
    (hid : row.inserted = true → row.id ∈ copy.map Prod.fst) : Faithful s' copy := by
  refine h.mono hvecs fun v hv hpend => ?_
  rcases (hpending v).mp hpend with hrow | hpend
  · obtain ⟨hins, heq, -⟩ := Row.vec_eq_some.mp hrow
    exact .inl (h.mem_of_id hv (heq ▸ hid hins))
  · exact .inr hpend

/-- The row is new to the copy and is added to it. -/
theorem Faithful.add {copy : List (ℕ × E)} {v : ℕ × E} (h : Faithful s copy)
    (hvecs : s'.tables.vecs = s.tables.vecs)
    (hpending : ∀ v, Pending s v ↔ row.vec = some v ∨ Pending s' v) (hrow : row.vec = some v)
    (hstored : v ∈ s.tables.vecs) (hid : v.1 ∉ copy.map Prod.fst) :
    Faithful s' (copy ++ [v]) where
  nodup := by
    rw [List.map_append]
    refine h.nodup.append (List.nodup_singleton _) fun id hmem hnew => ?_
    obtain rfl := List.mem_singleton.mp hnew
    exact hid hmem
  sound w hw := by
    rw [hvecs]
    rcases List.mem_append.mp hw with hw | hw
    · exact h.sound w hw
    · obtain rfl := List.mem_singleton.mp hw
      exact hstored
  complete w hw := by
    rw [hvecs] at hw
    rcases h.complete w hw with hmem | hpend
    · exact .inl (List.mem_append_left _ hmem)
    · rcases (hpending w).mp hpend with hw | hpend
      · obtain rfl := Option.some.inj (hrow.symm.trans hw)
        exact .inl (List.mem_append_right _ (List.mem_singleton_self _))
      · exact .inr hpend

/-- A lift that the condition allows. -/
theorem IndexInv.lift (h : IndexInv s) (hp : s.procs p = .lifting time rows (row :: todo))
    (hsafe : safeLift s (.lift p) = true)
    (hprocs : s'.procs = Function.update s.procs p (.lifting time rows todo))
    (htables : s'.tables = s.tables) (hwarm : s'.warm = s.warm)
    (hindex : s'.index = updateLifted s.index row) : IndexInv s' := by
  have hpending := pending_lift hp hprocs
  have hvecs : s'.tables.vecs = s.tables.vecs := congrArg Tables.vecs htables
  have hstored : ∀ v, Pending s' v → v ∈ s'.tables.vecs := by
    intro v hv
    rw [hvecs]
    exact h.stored v ((hpending v).mpr (.inr hv))
  obtain ⟨id, inserted, embedding⟩ := row
  cases embedding with
  | none =>
    refine h.congr hvecs hindex hwarm fun v => ?_
    rw [hpending v, Row.vec_eq_some]
    simp
  | some e =>
    simp only [safeLift, hp] at hsafe
    cases hidx : s.index with
    | none =>
      -- the row passes the index by, and a waiting snapshot has to have it
      have hindex' : s'.index = none := by rw [hindex, hidx]; rfl
      refine ⟨.inl hindex', ?_, hstored, ?_⟩
      · intro hpub
        obtain ⟨index, hsome⟩ := h.present (hwarm ▸ hpub)
        rw [hidx] at hsome
        cases hsome
      · intro copy hcopy
        have hread : s.warm = .read copy := by
          rw [Copy, hindex', hwarm] at hcopy
          exact hcopy.resolve_right nofun
        rw [hidx, hread] at hsafe
        refine (h.faithful copy (.inl hread)).skip hvecs hpending ?_
        rintro (rfl : inserted = true)
        simpa using hsafe
    | some index =>
      -- the row goes into the index unless its id is there
      have hpub : s.warm = .published := h.absent.resolve_left (by rw [hidx]; nofun)
      have hold := h.faithful index (.inr hidx)
      have hindex' : s'.index = some (addRow index id e) := by rw [hindex, hidx]; rfl
      refine ⟨.inr (hwarm.trans hpub), fun _ => ⟨_, hindex'⟩, hstored, fun copy hcopy => ?_⟩
      obtain rfl : addRow index id e = copy := by
        rw [Copy, hindex', hwarm, hpub] at hcopy
        exact Option.some.inj (hcopy.resolve_left nofun)
      rw [hidx] at hsafe
      by_cases hid : id ∈ index.map Prod.fst
      · rw [addRow, if_pos hid]
        exact hold.skip hvecs hpending fun _ => hid
      · rw [addRow, if_neg hid]
        have hins : inserted = true := by simpa [hid] using hsafe
        have hrow : Row.vec ⟨id, inserted, some e⟩ = some (id, e) :=
          Row.vec_eq_some.mpr ⟨hins, rfl, rfl⟩
        exact hold.add hvecs hpending hrow (h.stored _ ((hpending _).mpr (.inl hrow))) hid

end Lift

/-! ## Sections and runs -/

variable [DecidableEq H]

/-- The rows of a stored batch are pending until its process lifts them. -/
theorem IndexInv.commit {s : State H E K} {p : ℕ} {items : List (Item H E)} (h : IndexInv s)
    (hp : s.procs p = .write items) : IndexInv (commit s p items) := by
  have hpending : ∀ v, Pending (Daemon.commit s p items) v ↔
      (∃ row ∈ (s.tables.putBatch items).2, row.vec = some v) ∨ Pending s v := by
    intro v
    rw [Pending, Daemon.commit, Function.exists_update_iff _
      (fun _ (ph : Proc H E K) => ∃ row ∈ ph.toLift, row.vec = some v)]
    refine or_congr_right ⟨fun ⟨q, _, hq⟩ => ⟨q, hq⟩, fun ⟨q, row, hrow, hv⟩ => ?_⟩
    -- the process that stored had nothing to lift before
    refine ⟨q, ?_, row, hrow, hv⟩
    rintro rfl
    rw [hp] at hrow
    cases hrow
  have hvecs : ∀ v, v ∈ (Daemon.commit s p items).tables.vecs ↔
      v ∈ s.tables.vecs ∨ ∃ row ∈ (s.tables.putBatch items).2, row.vec = some v :=
    s.tables.mem_putBatch_vecs items
  refine ⟨h.absent, h.present, fun v hv => ?_, fun copy hcopy => ?_⟩
  · rw [hvecs]
    exact ((hpending v).mp hv).symm.imp_left (h.stored v)
  · have hold := h.faithful copy hcopy
    refine ⟨hold.nodup, fun v hv => (hvecs v).mpr (.inl (hold.sound v hv)), fun v hv => ?_⟩
    rw [hpending]
    rcases (hvecs v).mp hv with hv | hv
    · exact (hold.complete v hv).imp_right .inr
    · exact .inr (.inl hv)

variable [DecidableEq K]

/-- **The index through a section** that lifts safely, if it lifts anything. -/
theorem IndexInv.step {s s' : State H E K} {a : Action H E K} (h : IndexInv s)
    (hsafe : safeLift s a = true) (hs : Step s a s') : IndexInv s' ∨ Removing s' := by
  cases hs with
  | storeWrite p items hfree hp => exact .inl (h.commit hp)
  | storeDelete p id hfree hp =>
    by_cases hid : id ∈ s.tables.docs.map Prod.fst
    · refine .inr ⟨p, id, s.clock + 1, ?_⟩
      simp only [State.goto, Function.update_self, hid, decide_true]
    · refine .inl (h.frame rfl (s.tables.remove_vecs_of_not_mem hid) rfl rfl ?_)
      rw [hp]
      rfl
  | storeFail p hfree hp =>
    refine .inl (h.frame rfl rfl rfl rfl ?_)
    rcases hp with ⟨items, hp⟩ | hp | ⟨id, hp⟩ <;> rw [hp] <;> rfl
  | lift p time rows todo row hp => exact .inl (h.lift hp hsafe rfl rfl rfl rfl)
  | fail p hp =>
    refine .inl (h.frame rfl rfl rfl rfl ?_)
    rcases hp with ⟨items, hp⟩ | ⟨key, after, asOf, ids, hp⟩ | hp <;> rw [hp] <;> rfl
  | start p req hp =>
    refine .inl (h.frame rfl rfl rfl rfl ?_)
    cases req <;> rw [hp] <;> rfl
  | warmRead hw =>
    have hnone : s.index = none := h.absent.resolve_right (by rw [hw]; nofun)
    refine .inl ⟨.inl hnone, nofun, h.stored, fun copy hcopy => ?_⟩
    obtain rfl : s.tables.vecs = copy := by
      rw [Copy, hnone] at hcopy
      exact Warm.read.inj (hcopy.resolve_right nofun)
    exact ⟨s.tables.vecs_nodup, fun v hv => hv, fun v hv => .inl hv⟩
  | warmFail hw =>
    have hnone : s.index = none := h.absent.resolve_right (by rw [hw]; nofun)
    refine .inl ⟨.inl hnone, nofun, h.stored, fun copy hcopy => ?_⟩
    rw [Copy, hnone] at hcopy
    exact hcopy.elim nofun nofun
  | warmPublish snapshot hw =>
    refine .inl ⟨.inr rfl, fun _ => ⟨snapshot, rfl⟩, h.stored, fun copy hcopy => ?_⟩
    obtain rfl : snapshot = copy := Option.some.inj (hcopy.resolve_left nofun)
    have hold := h.faithful snapshot (.inl hw)
    exact ⟨hold.nodup, hold.sound, hold.complete⟩
  | _ =>
    refine .inl (h.frame rfl rfl rfl rfl ?_)
    simp [*, Proc.toLift]

/-- **The index agrees with the store.** After every run with safe lifts, once the warm-up has
published and every request is answered, the index holds the rows of `docs_vec`, each once. -/
theorem index_agrees {tables : Tables H E} {actions : List (Action H E K)} {s : State H E K}
    (hrun : run exec (State.initial tables) actions = some s)
    (hmeets : Meets exec (fun s a => safeLift s a = true) (State.initial tables) actions) :
    IndexAgrees s := by
  have hinv : Locks s ∧ (IndexInv s ∨ Removing s) := by
    refine run_invariant (fun s => Locks s ∧ (IndexInv s ∨ Removing s)) ?_ hrun hmeets
      ⟨locks_initial tables, .inl (indexInv_initial tables)⟩
    intro s a s' ⟨hlocks, hindex⟩ hsafe hstep
    have hs := exec_step hstep
    exact ⟨hlocks.step hs, hindex.elim (fun h => h.step hsafe hs) fun h => .inr (h.step hlocks hs)⟩
  intro hpub hquiet
  have hindex : IndexInv s := by
    refine hinv.2.resolve_right ?_
    rintro ⟨p, id, time, hp⟩
    rcases hquiet p with hidle | ⟨answer, hdone⟩
    · cases hp.symm.trans hidle
    · cases hp.symm.trans hdone
  have hnone : ∀ v, ¬ Pending s v := by
    rintro v ⟨p, row, hrow, -⟩
    rcases hquiet p with hidle | ⟨answer, hdone⟩
    · rw [hidle] at hrow
      cases hrow
    · rw [hdone] at hrow
      cases hrow
  obtain ⟨index, hsome⟩ := hindex.present hpub
  have hfaithful := hindex.faithful index (.inr hsome)
  refine ⟨index, hsome, hfaithful.nodup, fun id e => ⟨hfaithful.sound _, fun hv => ?_⟩⟩
  exact (hfaithful.complete _ hv).resolve_right (hnone _)

/-- A database with two documents, the second with a vector. -/
def twoDocs : Tables ℕ ℕ := (Tables.empty.append ⟨5, none⟩).append ⟨6, some 60⟩

/-- A new vector is stored before the snapshot and lifted after the index is published. -/
def overlapRun : List (Action ℕ ℕ ℕ) :=
  [.start 0 (.write [⟨7, some 70⟩]), .store 0 true, .warmRead, .warmPublish, .adjust 0, .lift 0,
    .clear 0, .audit 0 true]

theorem overlapRun_agrees :
    ∃ s, run exec (State.initial twoDocs) overlapRun = some s ∧ s.warm = .published ∧
      s.index = some [(2, 60), (3, 70)] ∧ IndexAgrees s := by
  have hend : (run exec (State.initial twoDocs) overlapRun).map (fun s => (s.warm, s.index)) =
      some (.published, some [(2, 60), (3, 70)]) := rfl
  obtain ⟨s, hrun, hs⟩ := Option.map_eq_some_iff.mp hend
  obtain ⟨hwarm, hindex⟩ := Prod.mk.inj hs
  exact ⟨s, hrun, hwarm, hindex, index_agrees hrun (by decide)⟩

/-- A new vector is stored and lifted between the snapshot and its publication. -/
def lostRun : List (Action ℕ ℕ ℕ) :=
  [.warmRead, .start 0 (.write [⟨7, some 70⟩]), .store 0 true, .adjust 0, .lift 0, .clear 0,
    .audit 0 true, .warmPublish]

/-- A text that is stored without a vector is put again with one. -/
def strayRun : List (Action ℕ ℕ ℕ) :=
  [.warmRead, .warmPublish, .start 0 (.write [⟨5, some 50⟩]), .store 0 true, .adjust 0, .lift 0,
    .clear 0, .audit 0 true]

omit [DecidableEq H] [DecidableEq K] in
/-- A run that ends with one request answered and a published index that differs. -/
theorem not_indexAgrees_of_end {final : Option (State H E K)} (index vecs : List (ℕ × E))
    (answer : Answer) (v : ℕ × E)
    (h : ∀ p, final.map (fun s => (s.warm, s.index, s.tables.vecs, s.procs p)) =
      some (.published, some index, vecs, if p = 0 then .done answer else .idle))
    (hv : ¬ (v ∈ index ↔ v ∈ vecs)) : ∃ s, final = some s ∧ ¬ IndexAgrees s := by
  obtain ⟨s, rfl, -⟩ := Option.map_eq_some_iff.mp (h 0)
  refine ⟨s, rfl, fun hagrees => hv ?_⟩
  simp only [Option.map_some, Option.some.injEq, Prod.mk.injEq] at h
  have hquiet : Quiet s := by
    intro p
    rw [(h p).2.2.2]
    split
    · exact .inr ⟨answer, rfl⟩
    · exact .inl rfl
  obtain ⟨idx, hidx, -, hmem⟩ := hagrees (h 0).1 hquiet
  obtain rfl := Option.some.inj ((h 0).2.1.symm.trans hidx)
  rw [hmem, (h 0).2.2.1]

/-- The one leaves a vector out of the index, the other adds one that is not stored. -/
theorem index_differs :
    (∃ s, run exec (State.initial twoDocs) lostRun = some s ∧ ¬ IndexAgrees s) ∧
      ∃ s, run exec (State.initial twoDocs) strayRun = some s ∧ ¬ IndexAgrees s := by
  refine ⟨not_indexAgrees_of_end [(2, 60)] [(2, 60), (3, 70)] (.ids [3]) (3, 70) ?_ (by decide),
    not_indexAgrees_of_end [(2, 60), (1, 50)] [(2, 60)] (.ids [1]) (1, 50) ?_ (by decide)⟩
  · intro p
    cases p <;> rfl
  · intro p
    cases p <;> rfl

end Daemon

end SynapseMemory
