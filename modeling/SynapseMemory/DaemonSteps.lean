import SynapseMemory.DaemonState

/-!
# What a section of the daemon can do

`Step` lists every way a critical section can go, each with the phase it starts from, the lock it
needs and the state it leaves; `exec_step` says that `exec` has no other. Every invariant of a run
is proved from this list.

The first invariant is about the store lock. A `Merge` or a `Delete` whose store call succeeded
keeps the store and asks for it again, so it never gets past its audit: none is ever answered. -/

namespace SynapseMemory

namespace Daemon

open Transition

variable {H E K : Type} [DecidableEq H] [DecidableEq K]

/-- The sections of the daemon. -/
inductive Step (s : State H E K) : Action H E K → State H E K → Prop
  | start (p : ℕ) (req : Req H E K) (h : s.procs p = .idle) :
      Step s (.start p req) (s.goto p (arrive s req))
  | storeWrite (p : ℕ) (items : List (Item H E)) (hfree : s.storeHeld = none)
      (h : s.procs p = .write items) : Step s (.store p true) (commit s p items)
  | storeMerge (p : ℕ) (hfree : s.storeHeld = none) (h : s.procs p = .merge) :
      Step s (.store p true)
        { s.goto p (.merged (s.clock + 1)) with
          version := s.version + 1, clock := s.clock + 1, storeHeld := some p }
  | storeDelete (p id : ℕ) (hfree : s.storeHeld = none) (h : s.procs p = .delete id) :
      Step s (.store p true)
        { s.goto p (.removed id (id ∈ s.tables.docs.map Prod.fst) (s.clock + 1)) with
          tables := s.tables.remove id
          version := s.version + 1, clock := s.clock + 1, storeHeld := some p }
  | storeFail (p : ℕ) (hfree : s.storeHeld = none)
      (h : (∃ items, s.procs p = .write items) ∨ s.procs p = .merge ∨
        ∃ id, s.procs p = .delete id) :
      Step s (.store p false) (s.goto p (.done .failed))
  | adjust (p time base : ℕ) (rows : List (Row E)) (h : s.procs p = .stored time base rows) :
      Step s (.adjust p)
        { s.goto p (.lifting time rows rows) with
          statsCache := s.statsCache.map fun snap => rows.foldl Snapshot.adjust snap }
  | lift (p time : ℕ) (rows todo : List (Row E)) (row : Row E)
      (h : s.procs p = .lifting time rows (row :: todo)) :
      Step s (.lift p)
        { s.goto p (.lifting time rows todo) with index := updateLifted s.index row }
  | clearWrite (p time : ℕ) (rows : List (Row E)) (h : s.procs p = .lifting time rows []) :
      Step s (.clear p)
        { s.goto p (.cleared time rows) with queryCache := [], cleared := time :: s.cleared }
  | clearMerge (p time : ℕ) (h : s.procs p = .mergeAudited time) :
      Step s (.clear p)
        { s.goto p (.done .ok) with
          queryCache := [], cleared := time :: s.cleared
          answered := ⟨time, none⟩ :: s.answered, storeHeld := none }
  | clearDelete (p id time : ℕ) (h : s.procs p = .deleteAudited id time) :
      Step s (.clear p)
        { s.goto p (.done .ok) with
          queryCache := [], cleared := time :: s.cleared
          answered := ⟨time, some id⟩ :: s.answered, storeHeld := none }
  | auditWrite (p time : ℕ) (rows : List (Row E)) (ok : Bool) (hfree : s.storeHeld = none)
      (h : s.procs p = .cleared time rows) :
      Step s (.audit p ok)
        { s.goto p (.done (.ids (rows.map Row.id))) with
          version := if ok then s.version + 1 else s.version
          answered := ⟨time, none⟩ :: s.answered }
  | auditMerge (p time : ℕ) (ok : Bool) (hfree : s.storeHeld = none)
      (h : s.procs p = .merged time) :
      Step s (.audit p ok)
        { s.goto p (.mergeAudited time) with
          version := if ok then s.version + 1 else s.version }
  | auditDelete (p id time : ℕ) (hit ok : Bool) (hfree : s.storeHeld = none)
      (h : s.procs p = .removed id hit time) :
      Step s (.audit p ok)
        { s.goto p (.deleteAudited id time) with
          version := if ok then s.version + 1 else s.version }
  | probe (p : ℕ) (key : K) (after : List Written) (h : s.procs p = .search key after) :
      Step s (.probe p) (s.goto p (.probed key after s.version))
  | seeSame (p fp : ℕ) (key : K) (after : List Written) (h : s.procs p = .probed key after fp)
      (hseen : s.dbSeen = some fp) : Step s (.see p) (s.goto p (.getting key after))
  | seeNew (p fp : ℕ) (key : K) (after : List Written) (h : s.procs p = .probed key after fp)
      (hseen : s.dbSeen ≠ some fp) :
      Step s (.see p) { s.goto p (.wiping key after) with dbSeen := some fp }
  | wipe (p : ℕ) (key : K) (after : List Written) (h : s.procs p = .wiping key after) :
      Step s (.wipe p) { s.goto p (.reading key after none []) with queryCache := [] }
  | getHit (p : ℕ) (key : K) (after : List Written) (hits : Hits)
      (h : s.procs p = .getting key after) (hcached : s.queryCache.lookup key = some hits) :
      Step s (.get p) (s.goto p (.done (.hits after hits)))
  | getMiss (p : ℕ) (key : K) (after : List Written) (h : s.procs p = .getting key after)
      (hcached : s.queryCache.lookup key = none) :
      Step s (.get p) (s.goto p (.reading key after none []))
  | read (p : ℕ) (key : K) (after : List Written) (asOf : Option ℕ) (ids found : List ℕ)
      (h : s.procs p = .reading key after asOf ids)
      (hfound : ∀ id ∈ found, id ∈ s.tables.docs.map Prod.fst) :
      Step s (.read p found)
        (s.goto p (.reading key after (some (asOf.getD s.clock)) (ids ++ found)))
  | log (p : ℕ) (key : K) (after : List Written) (asOf : Option ℕ) (ids : List ℕ) (ok : Bool)
      (hfree : s.storeHeld = none) (h : s.procs p = .reading key after asOf ids) :
      Step s (.log p ok)
        { s.goto p (.logged key after ⟨asOf.getD s.clock, ids⟩) with
          version := if ok then s.version + 1 else s.version }
  | putCached (p : ℕ) (key : K) (after : List Written) (hits : Hits)
      (cache : List (K × Hits)) (h : s.procs p = .logged key after hits)
      (hcache : cache ⊆ s.queryCache) :
      Step s (.putCached p)
        { s.goto p (.done (.hits after hits)) with queryCache := (key, hits) :: cache }
  | fail (p : ℕ) (h : (∃ items, s.procs p = .write items) ∨
        (∃ key after asOf ids, s.procs p = .reading key after asOf ids) ∨
        s.procs p = .counting) :
      Step s (.fail p) (s.goto p (.done .failed))
  | lookCached (p : ℕ) (snap : Snapshot) (h : s.procs p = .stats)
      (hsnap : s.statsCache = some snap) :
      Step s (.look p true) (s.goto p (.done (.stats snap.docs snap.vecs)))
  | lookMiss (p : ℕ) (fresh : Bool) (h : s.procs p = .stats) :
      Step s (.look p fresh) (s.goto p .counting)
  | count (p : ℕ) (hfree : s.storeHeld = none) (h : s.procs p = .counting) :
      Step s (.count p)
        { s.goto p (.counted s.tables.docs.length s.tables.vecs.length) with storeHeld := some p }
  | fill (p docs vecs : ℕ) (maxOk : Bool) (h : s.procs p = .counted docs vecs) :
      Step s (.fill p maxOk)
        { s.goto p (.done (.stats docs vecs)) with
          statsCache := some ⟨docs, vecs, if maxOk then s.tables.maxId else docs⟩
          storeHeld := none }
  | warmRead (h : s.warm = .idle) : Step s .warmRead { s with warm := .read s.tables.vecs }
  | warmFail (h : s.warm = .read []) : Step s .warmPublish { s with warm := .failed }
  | warmPublish (snapshot : List (ℕ × E)) (h : s.warm = .read snapshot) :
      Step s .warmPublish { s with warm := .published, index := some snapshot }

/-- **Nothing else happens.** -/
theorem exec_step {s s' : State H E K} {a : Action H E K} (h : exec s a = some s') :
    Step s a s' := by
  cases a with
  | start p req =>
    simp only [exec] at h
    split at h
    · rename_i hp
      obtain rfl := Option.some.inj h
      exact .start p req hp
    · cases h
  | store p ok =>
    simp only [exec] at h
    split at h
    · rename_i hfree
      split at h
      · rename_i items hp
        cases ok with
        | true =>
          obtain rfl := Option.some.inj h
          exact .storeWrite p items hfree hp
        | false =>
          obtain rfl := Option.some.inj h
          exact .storeFail p hfree (.inl ⟨items, hp⟩)
      · rename_i hp
        cases ok with
        | true =>
          obtain rfl := Option.some.inj h
          exact .storeMerge p hfree hp
        | false =>
          obtain rfl := Option.some.inj h
          exact .storeFail p hfree (.inr (.inl hp))
      · rename_i id hp
        cases ok with
        | true =>
          obtain rfl := Option.some.inj h
          exact .storeDelete p id hfree hp
        | false =>
          obtain rfl := Option.some.inj h
          exact .storeFail p hfree (.inr (.inr ⟨id, hp⟩))
      · cases h
    · cases h
  | adjust p =>
    simp only [exec] at h
    split at h
    · rename_i time base rows hp
      obtain rfl := Option.some.inj h
      exact .adjust p time base rows hp
    · cases h
  | lift p =>
    simp only [exec] at h
    split at h
    · rename_i time rows row todo hp
      obtain rfl := Option.some.inj h
      exact .lift p time rows todo row hp
    · cases h
  | clear p =>
    simp only [exec] at h
    split at h
    · rename_i time rows hp
      obtain rfl := Option.some.inj h
      exact .clearWrite p time rows hp
    · rename_i time hp
      obtain rfl := Option.some.inj h
      exact .clearMerge p time hp
    · rename_i id time hp
      obtain rfl := Option.some.inj h
      exact .clearDelete p id time hp
    · cases h
  | audit p ok =>
    simp only [exec] at h
    split at h
    · rename_i hfree
      split at h
      · rename_i time rows hp
        obtain rfl := Option.some.inj h
        exact .auditWrite p time rows ok hfree hp
      · rename_i time hp
        obtain rfl := Option.some.inj h
        exact .auditMerge p time ok hfree hp
      · rename_i id hit time hp
        obtain rfl := Option.some.inj h
        exact .auditDelete p id time hit ok hfree hp
      · cases h
    · cases h
  | probe p =>
    simp only [exec] at h
    split at h
    · rename_i key after hp
      obtain rfl := Option.some.inj h
      exact .probe p key after hp
    · cases h
  | see p =>
    simp only [exec] at h
    split at h
    · rename_i key after fp hp
      obtain rfl := Option.some.inj h
      split
      · rename_i hseen
        exact .seeSame p fp key after hp hseen
      · rename_i hseen
        exact .seeNew p fp key after hp hseen
    · cases h
  | wipe p =>
    simp only [exec] at h
    split at h
    · rename_i key after hp
      obtain rfl := Option.some.inj h
      exact .wipe p key after hp
    · cases h
  | get p =>
    simp only [exec] at h
    split at h
    · rename_i key after hp
      obtain rfl := Option.some.inj h
      cases hc : s.queryCache.lookup key with
      | some hits => exact .getHit p key after hits hp hc
      | none => exact .getMiss p key after hp hc
    · cases h
  | read p found =>
    simp only [exec] at h
    split at h
    · rename_i key after asOf ids hp
      split at h
      · rename_i hfound
        obtain rfl := Option.some.inj h
        exact .read p key after asOf ids found hp hfound
      · cases h
    · cases h
  | log p ok =>
    simp only [exec] at h
    split at h
    · rename_i hfree
      split at h
      · rename_i key after asOf ids hp
        obtain rfl := Option.some.inj h
        exact .log p key after asOf ids ok hfree hp
      · cases h
    · cases h
  | putCached p =>
    simp only [exec] at h
    split at h
    · rename_i key after hits hp
      obtain rfl := Option.some.inj h
      refine .putCached p key after hits _ hp fun e he => ?_
      have hcache := List.mem_of_mem_filter he
      split at hcache
      · cases hcache
      · exact hcache
    · cases h
  | fail p =>
    simp only [exec] at h
    split at h
    · rename_i items hp
      obtain rfl := Option.some.inj h
      exact .fail p (.inl ⟨items, hp⟩)
    · rename_i key after asOf ids hp
      obtain rfl := Option.some.inj h
      exact .fail p (.inr (.inl ⟨key, after, asOf, ids, hp⟩))
    · rename_i hp
      split at h
      · obtain rfl := Option.some.inj h
        exact .fail p (.inr (.inr hp))
      · cases h
    · cases h
  | look p fresh =>
    simp only [exec] at h
    split at h
    · rename_i hp
      obtain rfl := Option.some.inj h
      split
      · rename_i snap hsnap
        exact .lookCached p snap hp hsnap
      · exact .lookMiss p _ hp
    · cases h
  | count p =>
    simp only [exec] at h
    split at h
    · rename_i hfree
      split at h
      · rename_i hp
        obtain rfl := Option.some.inj h
        exact .count p hfree hp
      · cases h
    · cases h
  | fill p maxOk =>
    simp only [exec] at h
    split at h
    · rename_i docs vecs hp
      obtain rfl := Option.some.inj h
      exact .fill p docs vecs maxOk hp
    · cases h
  | warmRead =>
    simp only [exec] at h
    split at h
    · rename_i hw
      obtain rfl := Option.some.inj h
      exact .warmRead hw
    · cases h
  | warmPublish =>
    simp only [exec] at h
    split at h
    · rename_i hw
      obtain rfl := Option.some.inj h
      exact .warmFail hw
    · rename_i v rest hw
      obtain rfl := Option.some.inj h
      exact .warmPublish (v :: rest) hw
    · cases h

/-! ## The store lock -/

/-- What a phase says about the store lock: a process between its store call and its audit holds
it, and so does one that has counted and not yet filled the cache. -/
def LockPhase (s : State H E K) (p : ℕ) : Proc H E K → Prop
  | .merged _ => s.storeHeld = some p
  | .removed _ _ _ => s.storeHeld = some p
  | .mergeAudited _ => False
  | .deleteAudited _ _ => False
  | .counted docs vecs =>
    s.storeHeld = some p ∧ docs = s.tables.docs.length ∧ vecs = s.tables.vecs.length
  | _ => True

/-- The store lock is held by the process that says so, and no `Delete` was ever answered. -/
structure Locks (s : State H E K) : Prop where
  phase : ∀ p, LockPhase s p (s.procs p)
  kept : ∀ w ∈ s.answered, w.deleted = none

omit [DecidableEq H] [DecidableEq K] in
theorem locks_initial (tables : Tables H E) : Locks (State.initial tables : State H E K) :=
  ⟨fun _ => trivial, fun _ hw => absurd hw List.not_mem_nil⟩

section Locks

omit [DecidableEq H] [DecidableEq K]

variable {s s' : State H E K} {p : ℕ} {phase : Proc H E K}

theorem Locks.phaseOf (h : Locks s) (hp : s.procs p = phase) : LockPhase s p phase :=
  hp ▸ h.phase p

/-- A process that does not hold the store is in a phase that says nothing about it. -/
theorem LockPhase.of_not_held {q : ℕ} (h : LockPhase s q phase) (hq : s.storeHeld ≠ some q) :
    LockPhase s' q phase := by
  cases phase with
  | merged time => exact absurd h hq
  | removed id hit time => exact absurd h hq
  | mergeAudited time => exact h
  | deleteAudited id time => exact h
  | counted docs vecs => exact absurd h.1 hq
  | _ => trivial

/-- A section that leaves the tables and the store lock alone. -/
theorem Locks.frame (h : Locks s) (hprocs : s'.procs = Function.update s.procs p phase)
    (htables : s'.tables = s.tables) (hheld : s'.storeHeld = s.storeHeld)
    (hphase : LockPhase s p phase) (hkept : ∀ w ∈ s'.answered, w.deleted = none) : Locks s' := by
  have hsame : ∀ q ph, LockPhase s q ph → LockPhase s' q ph := by
    intro q ph hph
    unfold LockPhase at hph ⊢
    rw [htables, hheld]
    exact hph
  refine ⟨?_, hkept⟩
  rw [hprocs]
  exact (Function.forall_update_iff _ _).mpr
    ⟨hsame p phase hphase, fun q _ => hsame q _ (h.phase q)⟩

/-- A section of a process that had the store for itself. -/
theorem Locks.exclusive (h : Locks s) (hprocs : s'.procs = Function.update s.procs p phase)
    (hothers : ∀ q, q ≠ p → s.storeHeld ≠ some q) (hphase : LockPhase s' p phase)
    (hkept : s'.answered = s.answered) : Locks s' := by
  refine ⟨?_, ?_⟩
  · rw [hprocs]
    exact (Function.forall_update_iff _ _).mpr
      ⟨hphase, fun q hq => (h.phase q).of_not_held (hothers q hq)⟩
  · rw [hkept]
    exact h.kept

end Locks

/-- **The store lock through a section.** A `Merge` and a `Delete` never get past their audit. -/
theorem Locks.step {s s' : State H E K} {a : Action H E K} (h : Locks s) (hs : Step s a s') :
    Locks s' := by
  have hfree : s.storeHeld = none → ∀ p q : ℕ, q ≠ p → s.storeHeld ≠ some q := by
    intro hnone p q _ hq
    rw [hnone] at hq
    cases hq
  cases hs with
  | start p req hp =>
    refine h.frame rfl rfl rfl ?_ h.kept
    cases req <;> trivial
  | storeWrite p items hnone hp => exact h.exclusive rfl (hfree hnone p) trivial rfl
  | storeMerge p hnone hp => exact h.exclusive rfl (hfree hnone p) rfl rfl
  | storeDelete p id hnone hp => exact h.exclusive rfl (hfree hnone p) rfl rfl
  | storeFail p hnone hp => exact h.frame rfl rfl rfl trivial h.kept
  | adjust p time base rows hp => exact h.frame rfl rfl rfl trivial h.kept
  | lift p time rows todo row hp => exact h.frame rfl rfl rfl trivial h.kept
  | clearWrite p time rows hp => exact h.frame rfl rfl rfl trivial h.kept
  | clearMerge p time hp =>
    exact (h.phaseOf hp).elim
  | clearDelete p id time hp =>
    exact (h.phaseOf hp).elim
  | auditWrite p time rows ok hnone hp =>
    refine h.frame rfl rfl rfl trivial fun w hw => ?_
    rcases List.mem_cons.mp hw with rfl | hw
    · rfl
    · exact h.kept w hw
  | auditMerge p time ok hnone hp =>
    -- the process holds the store it asks for
    cases hnone.symm.trans (h.phaseOf hp)
  | auditDelete p id time hit ok hnone hp =>
    cases hnone.symm.trans (h.phaseOf hp)
  | probe p key after hp => exact h.frame rfl rfl rfl trivial h.kept
  | seeSame p fp key after hp hseen => exact h.frame rfl rfl rfl trivial h.kept
  | seeNew p fp key after hp hseen => exact h.frame rfl rfl rfl trivial h.kept
  | wipe p key after hp => exact h.frame rfl rfl rfl trivial h.kept
  | getHit p key after hits hp hcached => exact h.frame rfl rfl rfl trivial h.kept
  | getMiss p key after hp hcached => exact h.frame rfl rfl rfl trivial h.kept
  | read p key after asOf ids found hp hfound => exact h.frame rfl rfl rfl trivial h.kept
  | log p key after asOf ids ok hnone hp => exact h.frame rfl rfl rfl trivial h.kept
  | putCached p key after hits cache hp hcache => exact h.frame rfl rfl rfl trivial h.kept
  | fail p hp => exact h.frame rfl rfl rfl trivial h.kept
  | lookCached p snap hp hsnap => exact h.frame rfl rfl rfl trivial h.kept
  | lookMiss p fresh hp => exact h.frame rfl rfl rfl trivial h.kept
  | count p hnone hp => exact h.exclusive rfl (hfree hnone p) ⟨rfl, rfl, rfl⟩ rfl
  | fill p docs vecs maxOk hp =>
    refine h.exclusive rfl (fun q hq hheld => hq ?_) trivial rfl
    exact Option.some.inj (hheld.symm.trans (h.phaseOf hp).1)
  | warmRead hw => exact ⟨h.phase, h.kept⟩
  | warmFail hw => exact ⟨h.phase, h.kept⟩
  | warmPublish snapshot hw => exact ⟨h.phase, h.kept⟩

/-! ## A removal that blocks -/

section Remove

omit [DecidableEq H]

variable (t : Tables H E) {id : ℕ}

/-- A document that is not there is not removed. -/
theorem Tables.remove_docs_of_not_mem (h : id ∉ t.docs.map Prod.fst) :
    (t.remove id).docs = t.docs := by
  refine List.filter_eq_self.mpr fun d hd => decide_eq_true ?_
  rintro rfl
  exact h (List.mem_map_of_mem hd)

theorem Tables.remove_vecs_of_not_mem (h : id ∉ t.docs.map Prod.fst) :
    (t.remove id).vecs = t.vecs := by
  refine List.filter_eq_self.mpr fun v hv => decide_eq_true ?_
  rintro rfl
  exact h (t.vecs_docs v hv)

end Remove

/-- A `Delete` has removed a document and waits for the store it holds. -/
def Removing (s : State H E K) : Prop := ∃ p id time, s.procs p = .removed id true time

/-- It waits for ever. -/
theorem Removing.step {s s' : State H E K} {a : Action H E K} (hlocks : Locks s)
    (h : Removing s) (hs : Step s a s') : Removing s' := by
  obtain ⟨p, id, time, hp⟩ := h
  have hheld := hlocks.phaseOf hp
  refine ⟨p, id, time, ?_⟩
  have hkeep : ∀ q phase, s.procs q ≠ .removed id true time →
      Function.update s.procs q phase p = .removed id true time := by
    intro q phase hq
    rw [Function.update_of_ne, hp]
    rintro rfl
    exact hq hp
  cases hs with
  | auditDelete q id' time' hit ok hfree hq => cases hfree.symm.trans hheld
  | storeFail q hfree hq => cases hfree.symm.trans hheld
  | fail q hq =>
    refine hkeep q _ ?_
    rcases hq with ⟨items, hq⟩ | ⟨key, after, asOf, ids, hq⟩ | hq <;> rw [hq] <;> nofun
  | warmRead hw => exact hp
  | warmFail hw => exact hp
  | warmPublish snapshot hw => exact hp
  | _ =>
    -- every other section starts from another phase
    refine hkeep _ _ ?_
    simp [*]

end Daemon

end SynapseMemory
