import SynapseMemory.DaemonSteps

/-!
# Freshness of the query cache

A search computes its hits, and only then locks `query_cache` to store them; a write clears the
cache after its store call. Hits that were read before the store call and are stored after the
clear stay in the cache, and once another search has moved `db_seen` on, nothing drops them: a
search that starts after the write was answered is served from them.

Every other order is safe. Call a store of hits **in time** when each write that has cleared the
cache by then made its store call before the hits were read. If every store of hits is in time,
then each entry of the cache was read after the store call of each write that has cleared it
(`CacheInv`), so a search never gives hits from before a write that was answered when it started.

The part about deleted documents holds for another reason: no `Delete` is ever answered. -/

namespace SynapseMemory

namespace Daemon

open Transition

variable {H E K : Type}

/-- Every finished search gave hits that were read after the writes answered before it started,
and none of the documents those deleted. -/
def Fresh (s : State H E K) : Prop :=
  ∀ p after hits, s.procs p = .done (.hits after hits) →
    ∀ w ∈ after, w.time ≤ hits.asOf ∧ ∀ id, w.deleted = some id → id ∉ hits.ids

/-- Hits are stored only while every write after their first read still has to clear the cache. -/
def inTime (s : State H E K) : Action H E K → Bool
  | .putCached p =>
    match s.procs p with
    | .logged _ _ hits => s.cleared.all (· ≤ hits.asOf)
    | _ => true
  | _ => true

/-! ## The invariant -/

/-- What a phase knows about the times of writes. -/
def TimePhase (s : State H E K) : Proc H E K → Prop
  | .stored time _ _ => time ≤ s.clock
  | .lifting time _ _ => time ≤ s.clock
  | .cleared time _ => time ∈ s.cleared
  | .search _ after => ∀ w ∈ after, w ∈ s.answered
  | .probed _ after _ => ∀ w ∈ after, w ∈ s.answered
  | .wiping _ after => ∀ w ∈ after, w ∈ s.answered
  | .getting _ after => ∀ w ∈ after, w ∈ s.answered
  | .reading _ after asOf _ =>
    ∀ w ∈ after, w ∈ s.answered ∧ w.time ≤ asOf.getD s.clock
  | .logged _ after hits => ∀ w ∈ after, w ∈ s.answered ∧ w.time ≤ hits.asOf
  | .done (.hits after hits) => ∀ w ∈ after, w ∈ s.answered ∧ w.time ≤ hits.asOf
  | _ => True

/-- Every entry of the cache was read after the store call of each write that cleared it. -/
structure CacheInv (s : State H E K) : Prop where
  phase : ∀ p, TimePhase s (s.procs p)
  entries : ∀ e ∈ s.queryCache, ∀ t ∈ s.cleared, t ≤ e.2.asOf
  cleared_le : ∀ t ∈ s.cleared, t ≤ s.clock
  answered : ∀ w ∈ s.answered, w.time ∈ s.cleared

/-- The invariant of a new daemon. -/
theorem cacheInv_initial (tables : Tables H E) :
    CacheInv (State.initial tables : State H E K) where
  phase _ := trivial
  entries _ he := absurd he List.not_mem_nil
  cleared_le _ ht := absurd ht List.not_mem_nil
  answered _ hw := absurd hw List.not_mem_nil

section Frame

variable {s s' : State H E K} {p : ℕ} {phase : Proc H E K}

theorem CacheInv.phaseOf (h : CacheInv s) (hp : s.procs p = phase) : TimePhase s phase :=
  hp ▸ h.phase p

theorem CacheInv.answered_le (h : CacheInv s) {w : Written} (hw : w ∈ s.answered) :
    w.time ≤ s.clock := h.cleared_le _ (h.answered w hw)

/-- Time goes on and writes are added: what a phase knows stays true. -/
theorem TimePhase.mono (h : TimePhase s phase) (hclock : s.clock ≤ s'.clock)
    (hcleared : s.cleared ⊆ s'.cleared) (hanswered : s.answered ⊆ s'.answered) :
    TimePhase s' phase := by
  cases phase with
  | stored time base rows => exact Nat.le_trans h hclock
  | lifting time rows todo => exact Nat.le_trans h hclock
  | cleared time rows => exact hcleared h
  | search key after => exact fun w hw => hanswered (h w hw)
  | probed key after fp => exact fun w hw => hanswered (h w hw)
  | wiping key after => exact fun w hw => hanswered (h w hw)
  | getting key after => exact fun w hw => hanswered (h w hw)
  | reading key after asOf ids =>
    intro w hw
    refine ⟨hanswered (h w hw).1, Nat.le_trans (h w hw).2 ?_⟩
    cases asOf with
    | none => exact hclock
    | some t => exact Nat.le_refl t
  | logged key after hits => exact fun w hw => ⟨hanswered (h w hw).1, (h w hw).2⟩
  | done answer =>
    cases answer with
    | hits after hits => exact fun w hw => ⟨hanswered (h w hw).1, (h w hw).2⟩
    | _ => trivial
  | _ => trivial

theorem mem_of_lookup [BEq K] [LawfulBEq K] {key : K} {hits : Hits} {cache : List (K × Hits)}
    (h : cache.lookup key = some hits) : (key, hits) ∈ cache := by
  obtain ⟨before, after, rfl, -⟩ := List.lookup_eq_some_iff.mp h
  exact List.mem_append_right _ List.mem_cons_self

/-- A section that clears nothing, answers no write, and adds nothing to the cache. -/
theorem CacheInv.frame (h : CacheInv s) (hprocs : s'.procs = Function.update s.procs p phase)
    (hclock : s.clock ≤ s'.clock) (hcleared : s'.cleared = s.cleared)
    (hanswered : s'.answered = s.answered) (hcache : s'.queryCache ⊆ s.queryCache)
    (hphase : TimePhase s' phase) : CacheInv s' where
  phase := by
    rw [hprocs]
    refine (Function.forall_update_iff _ _).mpr ⟨hphase, fun q _ => (h.phase q).mono hclock ?_ ?_⟩
    · rw [hcleared]
      exact List.Subset.refl _
    · rw [hanswered]
      exact List.Subset.refl _
  entries e he t ht := h.entries e (hcache he) t (hcleared ▸ ht)
  cleared_le t ht := Nat.le_trans (h.cleared_le t (hcleared ▸ ht)) hclock
  answered w hw := by
    rw [hcleared]
    exact h.answered w (hanswered ▸ hw)

end Frame

/-! ## Sections and runs -/

variable [DecidableEq H] [DecidableEq K]

/-- **The cache through a section** that stores hits in time, if it stores any. -/
theorem CacheInv.step {s s' : State H E K} {a : Action H E K} (h : CacheInv s) (hlocks : Locks s)
    (htime : inTime s a = true) (hs : Step s a s') : CacheInv s' := by
  have hrefl : s.queryCache ⊆ s.queryCache := List.Subset.refl _
  cases hs with
  | start p req hp =>
    refine h.frame rfl (Nat.le_refl _) rfl rfl hrefl ?_
    cases req with
    | search key => exact fun w hw => hw
    | _ => trivial
  | storeWrite p items hfree hp =>
    exact h.frame rfl (Nat.le_succ _) rfl rfl hrefl (Nat.le_refl (s.clock + 1))
  | storeMerge p hfree hp => exact h.frame rfl (Nat.le_succ _) rfl rfl hrefl trivial
  | storeDelete p id hfree hp => exact h.frame rfl (Nat.le_succ _) rfl rfl hrefl trivial
  | storeFail p hfree hp => exact h.frame rfl (Nat.le_refl _) rfl rfl hrefl trivial
  | adjust p time base rows hp =>
    exact h.frame rfl (Nat.le_refl _) rfl rfl hrefl (h.phaseOf hp)
  | lift p time rows todo row hp =>
    exact h.frame rfl (Nat.le_refl _) rfl rfl hrefl (h.phaseOf hp)
  | clearWrite p time rows hp =>
    have hphase := h.phaseOf hp
    have hsub : s.cleared ⊆ time :: s.cleared := List.subset_cons_self _ _
    refine ⟨?_, fun e he => absurd he List.not_mem_nil, ?_, fun w hw => hsub (h.answered w hw)⟩
    · refine (Function.forall_update_iff _ _).mpr ⟨List.mem_cons_self, fun q _ => ?_⟩
      exact (h.phase q).mono (Nat.le_refl _) hsub (List.Subset.refl _)
    · intro t ht
      rcases List.mem_cons.mp ht with rfl | ht
      · exact hphase
      · exact h.cleared_le t ht
  | clearMerge p time hp =>
    exact (hlocks.phaseOf hp).elim
  | clearDelete p id time hp =>
    exact (hlocks.phaseOf hp).elim
  | auditWrite p time rows ok hfree hp =>
    have hphase := h.phaseOf hp
    refine ⟨?_, h.entries, h.cleared_le, ?_⟩
    · refine (Function.forall_update_iff _ _).mpr ⟨trivial, fun q _ => ?_⟩
      exact (h.phase q).mono (Nat.le_refl _) (List.Subset.refl _) (List.subset_cons_self _ _)
    · intro w hw
      rcases List.mem_cons.mp hw with rfl | hw
      · exact hphase
      · exact h.answered w hw
  | auditMerge p time ok hfree hp => exact h.frame rfl (Nat.le_refl _) rfl rfl hrefl trivial
  | auditDelete p id time hit ok hfree hp =>
    exact h.frame rfl (Nat.le_refl _) rfl rfl hrefl trivial
  | probe p key after hp =>
    exact h.frame rfl (Nat.le_refl _) rfl rfl hrefl (h.phaseOf hp)
  | seeSame p fp key after hp hseen =>
    exact h.frame rfl (Nat.le_refl _) rfl rfl hrefl (h.phaseOf hp)
  | seeNew p fp key after hp hseen =>
    exact h.frame rfl (Nat.le_refl _) rfl rfl hrefl (h.phaseOf hp)
  | wipe p key after hp =>
    have hphase := h.phaseOf hp
    exact h.frame rfl (Nat.le_refl _) rfl rfl (List.nil_subset _)
      fun w hw => ⟨hphase w hw, h.answered_le (hphase w hw)⟩
  | getHit p key after hits hp hcached =>
    -- every write answered before the search has cleared the cache, so the entry is younger
    have hphase := h.phaseOf hp
    refine h.frame rfl (Nat.le_refl _) rfl rfl hrefl fun w hw => ⟨hphase w hw, ?_⟩
    exact h.entries _ (mem_of_lookup hcached) _ (h.answered w (hphase w hw))
  | getMiss p key after hp hcached =>
    have hphase := h.phaseOf hp
    exact h.frame rfl (Nat.le_refl _) rfl rfl hrefl
      fun w hw => ⟨hphase w hw, h.answered_le (hphase w hw)⟩
  | read p key after asOf ids found hp hfound =>
    exact h.frame rfl (Nat.le_refl _) rfl rfl hrefl (h.phaseOf hp)
  | log p key after asOf ids ok hfree hp =>
    exact h.frame rfl (Nat.le_refl _) rfl rfl hrefl (h.phaseOf hp)
  | putCached p key after hits cache hp hcache =>
    have hphase := h.phaseOf hp
    -- the only section that can make the cache stale, and where the condition is used
    simp only [inTime, hp, List.all_eq_true, decide_eq_true_eq] at htime
    refine ⟨?_, ?_, h.cleared_le, h.answered⟩
    · exact (Function.forall_update_iff _ _).mpr ⟨hphase, fun q _ => h.phase q⟩
    · intro e he
      rcases List.mem_cons.mp he with rfl | he
      · exact htime
      · exact h.entries e (hcache he)
  | fail p hp => exact h.frame rfl (Nat.le_refl _) rfl rfl hrefl trivial
  | lookCached p snap hp hsnap => exact h.frame rfl (Nat.le_refl _) rfl rfl hrefl trivial
  | lookMiss p fresh hp => exact h.frame rfl (Nat.le_refl _) rfl rfl hrefl trivial
  | count p hfree hp => exact h.frame rfl (Nat.le_refl _) rfl rfl hrefl trivial
  | fill p docs vecs maxOk hp => exact h.frame rfl (Nat.le_refl _) rfl rfl hrefl trivial
  | warmRead hw => exact ⟨h.phase, h.entries, h.cleared_le, h.answered⟩
  | warmFail hw => exact ⟨h.phase, h.entries, h.cleared_le, h.answered⟩
  | warmPublish snapshot hw => exact ⟨h.phase, h.entries, h.cleared_le, h.answered⟩

/-- **Freshness of the query cache.** In every run in which hits are stored in time, no search
gives hits that were read before a write answered when the search started, or a document that
such a write deleted. -/
theorem search_fresh {tables : Tables H E} {actions : List (Action H E K)} {s : State H E K}
    (hrun : run exec (State.initial tables) actions = some s)
    (hmeets : Meets exec (fun s a => inTime s a = true) (State.initial tables) actions) :
    Fresh s := by
  have hinv : Locks s ∧ CacheInv s := by
    refine run_invariant (fun s => Locks s ∧ CacheInv s) ?_ hrun hmeets
      ⟨locks_initial tables, cacheInv_initial tables⟩
    intro s a s' ⟨hlocks, hcache⟩ htime hstep
    exact ⟨hlocks.step (exec_step hstep), hcache.step hlocks htime (exec_step hstep)⟩
  obtain ⟨hlocks, hcache⟩ := hinv
  intro p after hits hp w hw
  obtain ⟨hanswered, hle⟩ := hcache.phaseOf hp w hw
  refine ⟨hle, fun id hid => ?_⟩
  rw [hlocks.kept w hanswered] at hid
  cases hid

/-- A write, and then a search that is served from the hits of an earlier one. A third search has
seen the fingerprint in between, since the earlier one changed it with its query log. -/
def cachedRun : List (Action ℕ ℕ ℕ) :=
  [.start 0 (.write [⟨5, none⟩]), .store 0 true, .adjust 0, .lift 0, .clear 0, .audit 0 true,
    .start 1 (.search 7), .probe 1, .see 1, .wipe 1, .read 1 [1], .log 1 true,
    .start 2 (.search 8), .probe 2, .see 2, .wipe 2, .putCached 1,
    .start 3 (.search 7), .probe 3, .see 3, .get 3]

/-- A query is answered from the cache, and nothing was written in between. -/
theorem cachedRun_fresh :
    ∃ s, run exec (State.initial Tables.empty) cachedRun = some s ∧
      s.procs 3 = .done (.hits [⟨1, none⟩] ⟨1, [1]⟩) ∧ Fresh s := by
  have hend : (run exec (State.initial Tables.empty) cachedRun).map (fun s => s.procs 3) =
      some (.done (.hits [⟨1, none⟩] ⟨1, [1]⟩)) := rfl
  obtain ⟨s, hrun, hp⟩ := Option.map_eq_some_iff.mp hend
  exact ⟨s, hrun, hp, search_fresh hrun (by decide)⟩

/-- A search reads the database before a write and stores its hits after the write has cleared
the cache and another search has moved `db_seen` on. -/
def lateRun : List (Action ℕ ℕ ℕ) :=
  [.start 0 (.search 7), .probe 0, .see 0, .wipe 0, .read 0 [], .log 0 true,
    .start 1 (.write [⟨5, none⟩]), .store 1 true, .adjust 1, .lift 1, .clear 1, .audit 1 true,
    .start 2 (.search 8), .probe 2, .see 2, .putCached 0,
    .start 3 (.search 7), .probe 3, .see 3, .get 3]

/-- The last search started after the write was answered and is served from hits read before. -/
theorem lateRun_stale :
    ∃ s, run exec (State.initial Tables.empty) lateRun = some s ∧
      s.procs 3 = .done (.hits [⟨1, none⟩] ⟨0, []⟩) ∧ ¬ Fresh s := by
  have hend : (run exec (State.initial Tables.empty) lateRun).map (fun s => s.procs 3) =
      some (.done (.hits [⟨1, none⟩] ⟨0, []⟩)) := rfl
  obtain ⟨s, hrun, hp⟩ := Option.map_eq_some_iff.mp hend
  refine ⟨s, hrun, hp, fun hfresh => ?_⟩
  have hle := (hfresh 3 _ _ hp ⟨1, none⟩ List.mem_cons_self).1
  exact absurd hle (by decide)

end Daemon

end SynapseMemory
