import SynapseMemory.MemoryPipeline
import SynapseMemory.PointerWalk
import SynapseMemory.MemoryStability

/-!
# Supersession is well-founded

A memory that is superseded names the one that took its place. The references of a table should form
a forest: each names a row, they do not go in a circle, and from each row they lead to an active
one.

Every operation that writes a reference writes it from an active row to another active row
(`Forest.supersede`): a promotion from the row of another document, the evolution on ingest to the
row it has just inserted, and the compaction within a cluster, of which only the representative
stays active. New rows have no reference, and a delete takes back those to the rows it deletes. The
ids of deleted rows are given out again, but nothing refers to them then.
-/

namespace SynapseMemory

open Proto Space PointerWalk Transition Relation

namespace MemoryStore

section Forest

variable [Blake3]

/-! ## The forest -/

/-- Where the reference of a row leads. -/
def pointer (s : MemoryStore) (id : ℤ) : Except Unit (Option ℤ) :=
  match s.memories.find? fun m => m.id = id with
  | none => .error ()
  | some m => .ok m.supersededBy

/-- From every row the references lead to a row without one. -/
structure Forest (s : MemoryStore) : Prop where
  nodup : (s.memories.map Memory.id).Nodup
  grounded : ∀ m ∈ s.memories, Grounded s.pointer m.id

/-- An active memory. -/
def Active (s : MemoryStore) (id : ℤ) : Prop := ∃ m ∈ s.memories, m.id = id ∧ m.supersededBy = none

theorem pointer_eq_ok {s : MemoryStore} {id : ℤ} {p : Option ℤ} (h : s.pointer id = .ok p) :
    ∃ m ∈ s.memories, m.id = id ∧ m.supersededBy = p := by
  rw [pointer] at h
  split at h
  next => cases h
  next m hm =>
    cases h
    exact ⟨m, List.mem_of_find?_eq_some hm, by simpa using List.find?_some hm, rfl⟩

/-- The pointer of a memory. -/
theorem pointer_of_mem {s : MemoryStore} (hnodup : (s.memories.map Memory.id).Nodup) {m : Memory}
    (hm : m ∈ s.memories) : s.pointer m.id = .ok m.supersededBy := by
  have hfind : s.memories.find? (fun n => n.id = m.id) = some m := by
    rw [Table.find?_eq_some_of_unique]
    · exact ⟨hm, decide_eq_true rfl⟩
    · intro a ha b hb hida hidb
      exact List.inj_on_of_nodup_map hnodup ha hb
        ((of_decide_eq_true hida).trans (of_decide_eq_true hidb).symm)
  rw [pointer, hfind]

theorem Active.pointer {s : MemoryStore} (hnodup : (s.memories.map Memory.id).Nodup) {id : ℤ}
    (h : s.Active id) : s.pointer id = .ok none := by
  obtain ⟨m, hm, rfl, hnone⟩ := h
  rw [pointer_of_mem hnodup hm, hnone]

theorem Active.known {s : MemoryStore} {id : ℤ} (h : s.Active id) : s.known id = true := by
  obtain ⟨m, hm, hid, -⟩ := h
  exact List.any_eq_true.mpr ⟨m, hm, decide_eq_true hid⟩

/-! ## New rows and rows that keep their references -/

/-- Rows without a reference can be added. -/
theorem Forest.append {s s' : MemoryStore} (h : s.Forest) {rows : List Memory}
    (hrows : s'.memories = s.memories ++ rows) (hnodup : (s'.memories.map Memory.id).Nodup)
    (hnone : ∀ m ∈ rows, m.supersededBy = none) : s'.Forest := by
  have hkeeps : ∀ id p, s.pointer id = .ok p → s'.pointer id = .ok p := by
    intro id p hp
    obtain ⟨m, hm, rfl, rfl⟩ := pointer_eq_ok hp
    refine pointer_of_mem hnodup ?_
    rw [hrows]
    exact List.mem_append_left _ hm
  refine ⟨hnodup, fun m hm => ?_⟩
  have hpointer := pointer_of_mem hnodup hm
  rw [hrows] at hm
  rcases List.mem_append.mp hm with hold | hnew
  · refine (h.grounded m hold).transfer (fun _ => True) ?_ ?_ trivial
    · exact fun a _ ha => .last (hkeeps a none ha)
    · exact fun a b _ hab => .inr ⟨hkeeps a (some b) hab, trivial⟩
  · rw [hnone m hnew] at hpointer
    exact .last hpointer

/-- A change of other columns leaves the references as they are. -/
theorem Forest.modify {s : MemoryStore} (h : s.Forest) (id : ℤ) {f : Memory → Memory}
    (hf : ∀ m, (f m).id = m.id ∧ (f m).supersededBy = m.supersededBy) : (s.modify id f).Forest := by
  have hkeys : ∀ m, (if m.id = id then f m else m).id = m.id ∧
      (if m.id = id then f m else m).supersededBy = m.supersededBy := by
    intro m
    split
    · exact hf m
    · exact ⟨rfl, rfl⟩
  have hids : (s.modify id f).memories.map Memory.id = s.memories.map Memory.id := by
    rw [MemoryStore.modify, List.map_map]
    exact List.map_congr_left fun m _ => (hkeys m).1
  have hpointer : (s.modify id f).pointer = s.pointer := by
    funext i
    rw [pointer, pointer, MemoryStore.modify, List.find?_map]
    have hsame : ((fun m => decide (m.id = i)) ∘ fun m => if m.id = id then f m else m) =
        fun m => decide (m.id = i) := by
      funext m
      rw [Function.comp, (hkeys m).1]
    rw [hsame]
    cases s.memories.find? fun m => decide (m.id = i) with
    | none => rfl
    | some m => exact congrArg Except.ok (hkeys m).2
  refine ⟨hids ▸ h.nodup, fun m' hm' => ?_⟩
  obtain ⟨m, hm, rfl⟩ := List.mem_map.mp hm'
  rw [hpointer, (hkeys m).1]
  exact h.grounded m hm

/-! ## One reference -/

/-- The store after a supersession of two memories that are there. -/
theorem supersede_of_active {s : MemoryStore} {oldId newId : ℤ} (hold : s.Active oldId)
    (hnew : s.Active newId) (ts : ℤ) : s.supersede ts oldId newId =
      .ok (s.modify oldId fun m => { m with supersededBy := some newId, updatedTs := ts }) := by
  rw [MemoryStore.supersede, hold.known, hnew.known]
  rfl

/-- The pointers after a supersession. -/
theorem pointer_supersede {s : MemoryStore} {oldId : ℤ} (hold : s.Active oldId) (ts newId id : ℤ) :
    (s.modify oldId fun m => { m with supersededBy := some newId, updatedTs := ts }).pointer id =
      if id = oldId then .ok (some newId) else s.pointer id := by
  have hsame : ((fun m => decide (m.id = id)) ∘ fun m : Memory =>
      if m.id = oldId then { m with supersededBy := some newId, updatedTs := ts } else m) =
        fun m => decide (m.id = id) := by
    funext m
    rw [Function.comp]
    split
    · rfl
    · rfl
  rw [pointer, pointer, MemoryStore.modify, List.find?_map, hsame]
  cases hfind : s.memories.find? fun m => decide (m.id = id) with
  | none =>
    have hne : id ≠ oldId := by
      rintro rfl
      obtain ⟨m, hm, hid, -⟩ := hold
      exact List.find?_eq_none.mp hfind m hm (decide_eq_true hid)
    rw [if_neg hne]
    rfl
  | some m =>
    have hid : m.id = id := by simpa using List.find?_some hfind
    subst hid
    rw [Option.map_some]
    by_cases heq : m.id = oldId
    · rw [if_pos heq, if_pos heq]
    · rw [if_neg heq, if_neg heq]

/-- **A reference from an active memory to another one.** -/
theorem Forest.supersede {s s' : MemoryStore} (h : s.Forest) {ts oldId newId : ℤ}
    (hold : s.Active oldId) (hnew : s.Active newId) (hne : oldId ≠ newId)
    (hs' : s.supersede ts oldId newId = .ok s') :
    s'.Forest ∧ ∀ id, id ≠ oldId → s.Active id → s'.Active id := by
  rw [supersede_of_active hold hnew] at hs'
  cases hs'
  have hids : ((s.modify oldId fun m => { m with supersededBy := some newId, updatedTs := ts
      }).memories.map Memory.id) = s.memories.map Memory.id := by
    rw [MemoryStore.modify, List.map_map]
    apply List.map_congr_left
    intro m _
    rw [Function.comp]
    split
    · rfl
    · rfl
  have hpointer := pointer_supersede hold ts newId
  refine ⟨⟨hids ▸ h.nodup, ?_⟩, ?_⟩
  · have hend : Grounded _ newId := .last ((hpointer newId).trans
      ((if_neg hne.symm).trans (hnew.pointer h.nodup)))
    have hlink : Grounded _ oldId := .step ((hpointer oldId).trans (if_pos rfl)) hend
    intro m' hm'
    have hmem : m'.id ∈ s.memories.map Memory.id := hids ▸ List.mem_map_of_mem hm'
    obtain ⟨m, hm, hid⟩ := List.mem_map.mp hmem
    rw [← hid]
    refine (h.grounded m hm).transfer (fun _ => True) ?_ ?_ trivial
    · intro a _ ha
      by_cases heq : a = oldId
      · exact heq ▸ hlink
      · exact .last ((hpointer a).trans ((if_neg heq).trans ha))
    · intro a b _ hab
      by_cases heq : a = oldId
      · exact .inl (heq ▸ hlink)
      · exact .inr ⟨(hpointer a).trans ((if_neg heq).trans hab), trivial⟩
  · rintro id hid ⟨m, hm, rfl, hnone⟩
    exact ⟨m, List.mem_map.mpr ⟨m, hm, if_neg hid⟩, rfl, hnone⟩

/-! ## A delete -/

/-- A grounded reference names a row. -/
theorem exists_of_grounded {s : MemoryStore} {id : ℤ} (h : Grounded s.pointer id) :
    ∃ m ∈ s.memories, m.id = id := by
  cases hpointer : s.pointer id with
  | error e => exact absurd hpointer (h.lookup e)
  | ok p =>
    obtain ⟨m, hm, hid, -⟩ := pointer_eq_ok hpointer
    exact ⟨m, hm, hid⟩

/-- A delete keeps the forest. -/
theorem Forest.delete [Store.Tokenizer] {s s' : MemoryStore} (h : s.Forest) {id : ℤ} {found : Bool}
    (hdelete : s.delete id = .ok (s', found)) : s'.Forest := by
  have hmemories : s'.memories = s.memoriesWithout id := by
    obtain ⟨r, -, hr⟩ := map_eq_ok.mp hdelete
    cases hr
    rfl
  -- what the delete makes of a row that stays
  let gone := (s.memories.filter fun m => m.docId = id).map Memory.id
  let keep : Memory → Memory := fun m =>
    if m.supersededBy.any (· ∈ gone) then { m with supersededBy := none } else m
  have hkeep : ∀ m, (keep m).id = m.id ∧ (keep m).docId = m.docId := by
    intro m
    simp only [keep]
    split
    · exact ⟨rfl, rfl⟩
    · exact ⟨rfl, rfl⟩
  have hmem : ∀ m', m' ∈ s'.memories ↔ ∃ m ∈ s.memories, m.docId ≠ id ∧ keep m = m' := by
    intro m'
    rw [hmemories]
    change m' ∈ (s.memories.map keep).filter _ ↔ _
    rw [List.mem_filter, List.mem_map, decide_eq_true_eq]
    refine ⟨?_, ?_⟩
    · rintro ⟨⟨m, hm, rfl⟩, hdoc⟩
      exact ⟨m, hm, (hkeep m).2 ▸ hdoc, rfl⟩
    · rintro ⟨m, hm, hdoc, rfl⟩
      exact ⟨⟨m, hm, rfl⟩, (hkeep m).2.symm ▸ hdoc⟩
  have hnodup : (s'.memories.map Memory.id).Nodup := by
    rw [hmemories]
    have hids : (s.memories.map keep).map Memory.id = s.memories.map Memory.id := by
      rw [List.map_map]
      exact List.map_congr_left fun m _ => (hkeep m).1
    exact (hids ▸ h.nodup).sublist (List.filter_sublist.map Memory.id)
  have hpointer : ∀ m ∈ s.memories, m.docId ≠ id →
      s'.pointer m.id = .ok (keep m).supersededBy := by
    intro m hm hdoc
    rw [← (hkeep m).1]
    exact pointer_of_mem hnodup ((hmem (keep m)).mpr ⟨m, hm, hdoc, rfl⟩)
  refine ⟨hnodup, fun m' hm' => ?_⟩
  obtain ⟨m, hm, hdoc, rfl⟩ := (hmem m').mp hm'
  rw [(hkeep m).1]
  refine (h.grounded m hm).transfer
    (fun a => Grounded s.pointer a ∧ ∃ x ∈ s.memories, x.id = a ∧ x.docId ≠ id) ?_ ?_
    ⟨h.grounded m hm, m, hm, rfl, hdoc⟩
  · rintro a ⟨-, x, hx, rfl, hxdoc⟩ hnone
    rw [pointer_of_mem h.nodup hx] at hnone
    have hsame : keep x = x := by
      simp only [keep, Except.ok.inj hnone]
      rfl
    exact .last ((hpointer x hx hxdoc).trans (hsame.symm ▸ hnone))
  · rintro a b ⟨hgrounded, x, hx, rfl, hxdoc⟩ hab
    have hb := hgrounded.of_points hab
    rw [Points, pointer_of_mem h.nodup hx] at hab
    by_cases hgone : b ∈ gone
    · -- the reference to a deleted row is taken back
      have hnull : (keep x).supersededBy = none := by
        simp [keep, Except.ok.inj hab, hgone]
      exact .inl (.last (hnull ▸ hpointer x hx hxdoc))
    · have hsame : keep x = x := by
        simp [keep, Except.ok.inj hab, hgone]
      refine .inr ⟨(hpointer x hx hxdoc).trans (hsame.symm ▸ hab), hb, ?_⟩
      obtain ⟨y, hy, rfl⟩ := exists_of_grounded hb
      refine ⟨y, hy, rfl, fun hydoc => hgone ?_⟩
      exact List.mem_map_of_mem (List.mem_filter.mpr ⟨hy, decide_eq_true hydoc⟩)

/-! ## Puts and promotions -/

theorem Forest.rawAdded {s s' : MemoryStore} (h : s.Forest) {docIds : List ℤ}
    (hadded : RawAdded s s' docIds) : s'.Forest := by
  obtain ⟨rows, hrows, -, hraw⟩ := hadded.rows
  exact h.append hrows (hadded.nodup h.nodup) fun m hm => (Memory.isRawFor_iff.mp (hraw m hm)).2.2.1

/-- The documents do not matter. -/
theorem Forest.withDb {s : MemoryStore} (h : s.Forest) (db : Store) :
    ({ s with db } : MemoryStore).Forest :=
  ⟨h.nodup, h.grounded⟩

theorem Forest.putMemoryWithDate {s s' : MemoryStore} (h : s.Forest) {ts docId id : ℤ}
    {memoryType : MemoryType} {confidence : F64} {eventDate : Option String}
    (hput : s.putMemoryWithDate ts docId memoryType confidence eventDate = .ok (s', id)) :
    s'.Forest ∧ ∃ m ∈ s'.memories, m.id = id ∧ m.docId = docId ∧ m.supersededBy = none := by
  rw [MemoryStore.putMemoryWithDate] at hput
  split at hput
  next =>
    cases hput
    refine ⟨h.append rfl (nodup_append_nextId rfl h.nodup) ?_, ?_⟩
    · exact List.forall_mem_singleton.mpr rfl
    · exact ⟨_, List.mem_append_right _ List.mem_cons_self, rfl, rfl, rfl⟩
  next => cases hput

/-- A promotion keeps the forest. -/
theorem Forest.promoteRow {s s' : MemoryStore} (h : s.Forest) {ts docId id : ℤ}
    {memoryType : MemoryType} {confidence : F64} {eventDate : Option String}
    (hpromote : s.promoteRow ts docId memoryType confidence eventDate = .ok (s', id)) :
    s'.Forest ∧ ∃ m ∈ s'.memories, m.id = id ∧ m.docId = docId ∧ m.supersededBy = none := by
  rw [MemoryStore.promoteRow] at hpromote
  split at hpromote
  next m hm =>
    cases hpromote
    obtain ⟨hmem, hactive⟩ := List.mem_filter.mp (mem_of_firstBy hm)
    have hrow : m.docId = docId ∧ m.entityId = none ∧ m.supersededBy = none := by
      simpa [Memory.isActiveFor, and_assoc] using hactive
    refine ⟨h.modify m.id fun _ => ⟨rfl, rfl⟩, _, List.mem_map_of_mem hmem, ?_⟩
    rw [if_pos rfl]
    exact ⟨rfl, hrow.1, hrow.2.2⟩
  next => exact h.putMemoryWithDate hpromote

/-- An active memory of another document is superseded by an active one. -/
theorem Forest.supersedeOther {s s' : MemoryStore} (h : s.Forest) {ts : ℤ} {old m : Memory}
    (hold : old ∈ s.memories) (holdNone : old.supersededBy = none) (hm : m ∈ s.memories)
    (hnone : m.supersededBy = none) (hne : old.docId ≠ m.docId)
    (hs' : s.supersede ts old.id m.id = .ok s') : s'.Forest := by
  refine (h.supersede ⟨old, hold, rfl, holdNone⟩ ⟨m, hm, rfl, hnone⟩ ?_ hs').1
  intro heq
  exact hne (by rw [List.inj_on_of_nodup_map h.nodup hold hm heq])

theorem Forest.promoteDocMemory {s s' : MemoryStore} (h : s.Forest) {ts oldTs docId id : ℤ}
    {memoryType : MemoryType} {confidence : F64} {eventDate : Option String}
    {supersedes : Option ℤ} (hpromote : s.promoteDocMemory ts oldTs docId memoryType confidence
      eventDate supersedes = .ok (s', id)) : s'.Forest := by
  obtain ⟨hself, t, ht, hold⟩ := promoteDocMemory_ok hpromote
  obtain ⟨hforest, m, hm, rfl, hdoc, hnone⟩ := h.promoteRow ht
  cases supersedes with
  | none =>
    cases hold
    exact hforest
  | some oldDocId =>
    obtain ⟨old, holdMem, rfl, holdNone, hsuper⟩ := supersedeDoc_some hold
    refine hforest.supersedeOther holdMem holdNone hm hnone (fun heq => hself ?_) hsuper
    rw [heq, hdoc]

end Forest

/-! ## Evolution on ingest -/

section Evolve

variable [Blake3] [Floats]

/-- The target is one of the candidates. -/
theorem findEvolveTarget_mem {s : MemoryStore} {newText : String} {candidates : List ℤ}
    {lo hi : F32}
    {docId : ℤ} (h : s.findEvolveTarget newText candidates lo hi = some docId) :
    docId ∈ candidates := by
  rw [findEvolveTarget] at h
  obtain ⟨best, hbest, rfl⟩ := Option.map_eq_some_iff.mp h
  revert hbest
  refine List.foldlRecOn candidates _ (motive := fun b => b = some best → best.1 ∈ candidates)
    nofun fun b hb docId hdocId => ?_
  cases s.textOf docId with
  | none => exact hb
  | some text =>
    simp only
    split_ifs
    · rintro ⟨⟩
      exact hdocId
    · exact hb

omit [Floats] in
theorem evolveCandidates_ne {s : MemoryStore} {newDocId docId : ℤ} {limit : UInt64}
    (h : docId ∈ s.evolveCandidates newDocId limit) : docId ≠ newDocId := by
  obtain ⟨m, hm, rfl⟩ := List.mem_map.mp h
  have hrow := List.mem_mergeSort.mp ((sqlLimit_sublist limit _).subset hm)
  have hcond := (List.mem_filter.mp hrow).2
  exact of_decide_eq_true (Bool.and_eq_true_iff.mp hcond).2

omit [Floats] in
theorem newestActive_eq_some {s : MemoryStore} {docId : ℤ} {m : Memory}
    (h : s.newestActive docId = some m) :
    m ∈ s.memories ∧ m.docId = docId ∧ m.supersededBy = none := by
  obtain ⟨hmem, hrow⟩ := List.mem_filter.mp (mem_of_firstBy h)
  obtain ⟨hdoc, hsuper⟩ := Bool.and_eq_true_iff.mp hrow
  exact ⟨hmem, of_decide_eq_true hdoc, Option.isNone_iff_eq_none.mp hsuper⟩

/-- Evolving keeps the forest. -/
theorem Forest.evolveOnIngest [PipelineHooks] {s : MemoryStore} (h : s.Forest)
    (ts oldTs newDocId : ℤ) (newText : String) (memoryType : MemoryType) (cfg : EvolveCfg) :
    (s.evolveOnIngest ts oldTs newDocId newText memoryType cfg).1.Forest := by
  rw [MemoryStore.evolveOnIngest]
  cases hput : s.putMemory ts newDocId memoryType Memory.full with
  | error e => exact h
  | ok r =>
    obtain ⟨t, newId⟩ := r
    obtain ⟨hforest, m, hm, rfl, hdoc, hnone⟩ := h.putMemoryWithDate hput
    simp only
    split
    next => exact hforest
    next oldDocId htarget =>
      split
      next => exact hforest
      next =>
        split
        next => exact hforest
        next old hold =>
          split
          next => exact hforest
          next u hu =>
            obtain ⟨holdMem, holdDoc, holdNone⟩ := newestActive_eq_some hold
            refine hforest.supersedeOther holdMem holdNone hm hnone ?_ hu
            rw [holdDoc, hdoc]
            exact evolveCandidates_ne (findEvolveTarget_mem htarget)

end Evolve

/-! ## Compaction -/

section Compact

variable [Blake3]

/-- A cluster of active memories is superseded by one of them, and nothing else is. -/
theorem Forest.supersedeAll {s : MemoryStore} (h : s.Forest) (clock : ℤ → ℤ) {rep : ℤ}
    (hrep : s.Active rep) {ids : List ℤ} (hids : ids.Nodup) (hactive : ∀ i ∈ ids, s.Active i) :
    (supersedeAll clock rep s ids).1.Forest ∧
      ∀ i, i ∉ ids → s.Active i → (supersedeAll clock rep s ids).1.Active i := by
  induction ids generalizing s with
  | nil => exact ⟨h, fun i _ hi => hi⟩
  | cons id rest ih =>
    obtain ⟨hid, hrest⟩ := List.nodup_cons.mp hids
    obtain ⟨hidActive, hrestActive⟩ := List.forall_mem_cons.mp hactive
    rw [MemoryStore.supersedeAll]
    by_cases heq : id = rep
    · rw [if_pos heq]
      obtain ⟨hforest, hothers⟩ := ih h hrep hrest hrestActive
      exact ⟨hforest, fun i hi => hothers i fun hmem => hi (List.mem_cons_of_mem _ hmem)⟩
    · rw [if_neg heq, supersede_of_active hidActive hrep]
      obtain ⟨hstep, hkeeps⟩ :=
        h.supersede hidActive hrep heq (supersede_of_active hidActive hrep (clock id))
      obtain ⟨hforest, hothers⟩ := ih hstep (hkeeps rep (Ne.symm heq) hrep) hrest fun i hi =>
        hkeeps i (fun hsame => hid (hsame ▸ hi)) (hrestActive i hi)
      refine ⟨hforest, fun i hi hiActive => ?_⟩
      obtain ⟨hne, hnot⟩ := not_or.mp (mt List.mem_cons.mpr hi)
      exact hothers i hnot (hkeeps i hne hiActive)

/-- Compacting groups keeps the forest. -/
theorem Forest.compactGroups [PipelineHooks] {s : MemoryStore} (h : s.Forest) (clock : ℤ → ℤ)
    {groups : List (List ℤ)} (hne : ∀ g ∈ groups, g ≠ []) (hnodup : groups.flatten.Nodup)
    (hactive : ∀ i ∈ groups.flatten, s.Active i) : (compactGroups clock s groups).1.Forest := by
  induction groups generalizing s with
  | nil => exact h
  | cons group rest ih =>
    obtain ⟨hgroup, hgroups⟩ := List.forall_mem_cons.mp hne
    rw [List.flatten_cons] at hnodup hactive
    obtain ⟨hgroupNodup, hrestNodup, hdisjoint⟩ := List.nodup_append.mp hnodup
    obtain ⟨hgroupActive, hrestActive⟩ := List.forall_mem_append.mp hactive
    rw [MemoryStore.compactGroups]
    simp only
    split
    next => exact h
    next =>
      cases hmax : group.max? with
      | none => exact absurd (List.max?_eq_none_iff.mp hmax) hgroup
      | some rep =>
        have hrep : rep ∈ group := (List.max?_eq_some_iff.mp hmax).1
        obtain ⟨hforest, hothers⟩ :=
          h.supersedeAll clock (hgroupActive rep hrep) hgroupNodup hgroupActive
        rw [Option.getD_some]
        split
        next t e ht => exact ht ▸ hforest
        next t k ht =>
          rw [ht] at hforest hothers
          refine ih hforest hgroups hrestNodup fun i hi => hothers i ?_ (hrestActive i hi)
          exact fun hmem => hdisjoint i hmem i hi rfl

/-- The rows that are clustered are different active memories. -/
theorem activeTexts_ids {s : MemoryStore} (hnodup : (s.memories.map Memory.id).Nodup)
    (limit : UInt64) :
    ((s.activeTexts limit).map Prod.fst).Nodup ∧
      ∀ i ∈ (s.activeTexts limit).map Prod.fst, s.Active i := by
  let active := s.memories.filter fun m => m.supersededBy.isNone
  let rows := active.filterMap fun m => (s.textOf m.docId).map (m, ·)
  let sorted := rows.mergeSort fun a b => b.1.updatedTs ≤ a.1.updatedTs
  have hids : (s.activeTexts limit).map Prod.fst =
      (sqlLimit limit sorted).map fun row => row.1.id := List.map_map
  have hsub : ∀ l : List Memory, ((l.filterMap fun m => (s.textOf m.docId).map (m, ·)).map
      fun row => row.1.id).Sublist (l.map Memory.id) := by
    intro l
    induction l with
    | nil => exact List.Sublist.refl _
    | cons m l ih =>
      rw [List.filterMap_cons]
      cases s.textOf m.docId with
      | none => exact ih.cons m.id
      | some text => exact ih.cons_cons m.id
  have hperm : (sorted.map fun row => row.1.id).Perm (rows.map fun row => row.1.id) :=
    (List.mergeSort_perm _ _).map _
  have hlimit : ((sqlLimit limit sorted).map fun row => row.1.id).Sublist
      (sorted.map fun row => row.1.id) := (sqlLimit_sublist limit sorted).map _
  have hactive : (active.map Memory.id).Sublist (s.memories.map Memory.id) :=
    List.filter_sublist.map _
  rw [hids]
  refine ⟨?_, fun i hi => ?_⟩
  · exact (hperm.nodup_iff.mpr (hnodup.sublist ((hsub active).trans hactive))).sublist hlimit
  · obtain ⟨m, hm, rfl⟩ := List.mem_map.mp ((hsub active).subset (hperm.subset (hlimit.subset hi)))
    obtain ⟨hmem, hnone⟩ := List.mem_filter.mp hm
    exact ⟨m, hmem, rfl, Option.isNone_iff_eq_none.mp hnone⟩

section Clusters

variable {rows : List (ℤ × String)} (hrows : (rows.map Prod.fst).Nodup) (roots : List ℕ)

omit [Blake3] in
/-- The rows with their roots, by their ids. -/
theorem zip_ids_sublist (rows : List (ℤ × String)) (roots : List ℕ) :
    ((rows.zip roots).map fun p => p.1.1).Sublist (rows.map Prod.fst) := by
  induction rows generalizing roots with
  | nil => exact List.Sublist.refl _
  | cons row rows ih =>
    cases roots with
    | nil => exact List.nil_sublist _
    | cons r roots => exact (ih roots).cons_cons row.1

omit [Blake3] in
theorem clusterOf_sublist (rows : List (ℤ × String)) (roots : List ℕ) (r : ℕ) :
    (clusterOf rows roots r).Sublist (rows.map Prod.fst) :=
  (List.filter_sublist.map _).trans (zip_ids_sublist rows roots)

omit [Blake3] in
include hrows in
/-- A row is in one cluster. -/
theorem clusterOf_disjoint {r r' : ℕ} (hne : r ≠ r') :
    List.Disjoint (clusterOf rows roots r) (clusterOf rows roots r') := by
  intro i hi hi'
  obtain ⟨p, hp, rfl⟩ := List.mem_map.mp hi
  obtain ⟨p', hp', heq⟩ := List.mem_map.mp hi'
  obtain ⟨hmem, hr⟩ := List.mem_filter.mp hp
  obtain ⟨hmem', hr'⟩ := List.mem_filter.mp hp'
  have hsame := List.inj_on_of_nodup_map (hrows.sublist (zip_ids_sublist rows roots)) hmem' hmem heq
  subst hsame
  exact hne ((of_decide_eq_true hr).symm.trans (of_decide_eq_true hr'))

end Clusters

/-- The clusters are disjoint and hold active memories. -/
theorem clusterForCompact_active [Floats] [HashOrder] {s : MemoryStore} (h : s.Forest)
    (threshold : F64) (maxRows : UInt64) :
    (∀ g ∈ s.clusterForCompact threshold maxRows, g ≠ []) ∧
      (s.clusterForCompact threshold maxRows).flatten.Nodup ∧
      ∀ i ∈ (s.clusterForCompact threshold maxRows).flatten, s.Active i := by
  obtain ⟨hnodup, hactive⟩ := activeTexts_ids h.nodup maxRows
  have hclusters : ∃ roots keys : List ℕ, keys.Nodup ∧
      (s.clusterForCompact threshold maxRows).Sublist
        (keys.map (clusterOf (s.activeTexts maxRows) roots)) := by
    refine ⟨_, _, ?_, List.filter_sublist⟩
    exact (HashOrder.perm _).nodup_iff.mpr (List.nodup_dedup _)
  obtain ⟨roots, keys, hkeys, hsub⟩ := hclusters
  have hrows : ∀ g ∈ s.clusterForCompact threshold maxRows,
      g.Sublist ((s.activeTexts maxRows).map Prod.fst) := by
    intro g hg
    obtain ⟨r, -, rfl⟩ := List.mem_map.mp (hsub.subset hg)
    exact clusterOf_sublist _ _ _
  refine ⟨?_, List.nodup_flatten.mpr ⟨?_, ?_⟩, ?_⟩
  · rintro g hg rfl
    exact absurd (of_decide_eq_true (List.mem_filter.mp hg).2) (by decide)
  · exact fun g hg => hnodup.sublist (hrows g hg)
  · refine List.Pairwise.sublist hsub (List.pairwise_map.mpr (hkeys.imp fun hne => ?_))
    exact clusterOf_disjoint hnodup roots hne
  · intro i hi
    obtain ⟨g, hg, hig⟩ := List.mem_flatten.mp hi
    exact hactive i ((hrows g hg).subset hig)

theorem Forest.compact [Floats] [HashOrder] [PipelineHooks] {s : MemoryStore} (h : s.Forest)
    (clock : ℤ → ℤ) (threshold : F64) (maxRows : UInt64) :
    (s.compact clock threshold maxRows).1.Forest := by
  obtain ⟨hne, hnodup, hactive⟩ := clusterForCompact_active h threshold maxRows
  exact h.compactGroups clock hne hnodup hactive

end Compact

end MemoryStore

/-! ## Runs -/

/-- A call of the memory pipeline. -/
inductive PipelineAction where
  | put (now ts : ℤ) (req : PutRequest)
  | putBatch (ts : ℤ) (reqs : List (ℤ × PutRequest))
  | promoteDocMemory (ts oldTs docId : ℤ) (memoryType : MemoryType) (confidence : F64)
    (eventDate : Option String) (supersedesDocId : Option ℤ)
  | evolveOnIngest (ts oldTs newDocId : ℤ) (newText : String) (memoryType : MemoryType)
    (cfg : EvolveCfg)
  | compact (clock : ℤ → ℤ) (jaccardThreshold : F64) (maxRows : UInt64)
  | delete (id : ℤ)

namespace MemoryStore

section Runs

variable [Blake3] [Floats] [HashOrder] [PipelineHooks] [Store.Tokenizer]

/-- The store after an action, whether or not it went through. -/
def pipelineStep (s : MemoryStore) : PipelineAction → MemoryStore
  | .put now ts req => s.after (s.put now ts req)
  | .putBatch ts reqs => s.after (s.putBatch ts reqs)
  | .promoteDocMemory ts oldTs docId memoryType confidence eventDate supersedes =>
    s.after (s.promoteDocMemory ts oldTs docId memoryType confidence eventDate supersedes)
  | .evolveOnIngest ts oldTs newDocId newText memoryType cfg =>
    (s.evolveOnIngest ts oldTs newDocId newText memoryType cfg).1
  | .compact clock threshold maxRows => (s.compact clock threshold maxRows).1
  | .delete id => s.after (s.delete id)

/-- **Every action keeps the forest.** -/
theorem Forest.step {s : MemoryStore} (h : s.Forest) (a : PipelineAction) :
    (s.pipelineStep a).Forest := by
  cases a with
  | put now ts req =>
    rw [pipelineStep]
    cases hput : s.put now ts req with
    | error e => exact h
    | ok r =>
      obtain ⟨s', id⟩ := r
      obtain ⟨db, -, hadded⟩ := put_ok hput
      exact (h.withDb db).rawAdded hadded
  | putBatch ts reqs =>
    rw [pipelineStep]
    cases hput : s.putBatch ts reqs with
    | error e => exact h
    | ok r =>
      obtain ⟨s', ids⟩ := r
      obtain ⟨db, -, hadded⟩ := putBatch_ok hput
      exact (h.withDb db).rawAdded hadded
  | promoteDocMemory ts oldTs docId memoryType confidence eventDate supersedes =>
    rw [pipelineStep]
    cases hpromote :
      s.promoteDocMemory ts oldTs docId memoryType confidence eventDate supersedes with
    | error e => exact h
    | ok r =>
      obtain ⟨s', id⟩ := r
      exact h.promoteDocMemory hpromote
  | evolveOnIngest ts oldTs newDocId newText memoryType cfg =>
    exact h.evolveOnIngest ts oldTs newDocId newText memoryType cfg
  | compact clock threshold maxRows => exact h.compact clock threshold maxRows
  | delete id =>
    rw [pipelineStep]
    cases hdelete : s.delete id with
    | error e => exact h
    | ok r => exact h.delete hdelete

omit [Floats] [HashOrder] [PipelineHooks] [Store.Tokenizer] in
/-- The memory `a` is superseded by `b`. -/
def SupersededBy (s : MemoryStore) (a b : ℤ) : Prop :=
  ∃ m ∈ s.memories, m.id = a ∧ m.supersededBy = some b

omit [Floats] [HashOrder] [PipelineHooks] [Store.Tokenizer] in
/-- Every reference names a memory, no memory is superseded by itself over any number of steps, and
the references from each memory lead to one that is not superseded. -/
structure EndsActive (s : MemoryStore) : Prop where
  no_dangling : ∀ a b, s.SupersededBy a b → ∃ m ∈ s.memories, m.id = b
  acyclic : ∀ a, ¬TransGen s.SupersededBy a a
  ends : ∀ m ∈ s.memories, ∃ n ∈ s.memories, ReflTransGen s.SupersededBy m.id n.id ∧
    n.supersededBy = none

omit [Floats] [HashOrder] [PipelineHooks] [Store.Tokenizer] in
/-- In a forest every way ends at an active memory. -/
theorem Forest.endsActive {s : MemoryStore} (h : s.Forest) : s.EndsActive := by
  have hpoints : ∀ a b, s.SupersededBy a b → Points s.pointer a b := by
    rintro a b ⟨m, hm, rfl, hsome⟩
    rw [Points, pointer_of_mem h.nodup hm, hsome]
  refine ⟨?_, ?_, ?_⟩
  · rintro a b ⟨m, hm, rfl, hsome⟩
    exact exists_of_grounded ((h.grounded m hm).of_points (hpoints m.id b ⟨m, hm, rfl, hsome⟩))
  · intro a hcycle
    obtain ⟨b, ⟨m, hm, rfl, -⟩, -⟩ := TransGen.head'_iff.mp hcycle
    exact (h.grounded m hm).acyclic (TransGen.mono hpoints _ _ hcycle)
  · intro m hm
    have hgrounded := h.grounded m hm
    generalize m.id = a at hgrounded
    induction hgrounded with
    | last hlast =>
      obtain ⟨n, hn, rfl, hnone⟩ := pointer_eq_ok hlast
      exact ⟨n, hn, .refl, hnone⟩
    | step hpoint _ ih =>
      obtain ⟨x, hx, rfl, hsome⟩ := pointer_eq_ok hpoint
      obtain ⟨n, hn, hreach, hnone⟩ := ih
      exact ⟨n, hn, .head ⟨x, hx, rfl, hsome⟩ hreach, hnone⟩

/-- In every state that puts, promotions, evolutions, compactions and deletes lead to, supersession
is well-founded. -/
theorem supersession_wellFounded (as : List PipelineAction) :
    (as.foldl pipelineStep new).EndsActive := by
  have hnone : new.memories = [] := rfl
  have hnew : new.Forest := by
    constructor
    · rw [hnone]
      exact List.nodup_nil
    · rw [hnone]
      exact fun m hm => absurd hm List.not_mem_nil
  have hstep : ∀ s a s', Forest s → some (pipelineStep s a) = some s' → Forest s' := by
    rintro s a _ h ⟨⟩
    exact h.step a
  have hforest := run_preserves Forest hstep (run_total pipelineStep new as) hnew
  exact hforest.endsActive

end Runs

end MemoryStore

end SynapseMemory
