import Mathlib

/-!
# Passes over the parts of a job

A job has parts, numbered from zero. A worker that takes a job does its parts in order, one at a
time, and it can leave the job before its last part. A log holds the parts that were done, by
whichever worker.

Every pass that does any part of a job does the first one first. So a part is done twice only if
two passes have done the first part, and it is enough to look at the first parts: as long as each
of them is done on a job that nobody has started (`Fresh`), no part is in the log twice
(`Once.apply`), and the first time that one is not, a part is (`Once.not_nodup_apply`).
-/

namespace Passes

variable {ι κ : Type*}

/-- What each worker has still to do, and what was done. -/
structure Ledger (ι κ : Type*) where
  todo : ι → List (κ × ℕ)
  log : List (κ × ℕ)

/-- What can happen to a ledger. -/
inductive Change (ι κ : Type*) where
  | wait
  | take (i : ι) (job : κ) (parts : ℕ)
  | next (i : ι)
  | leave (i : ι)

namespace Ledger

variable [DecidableEq ι]

/-- The ledger after a change. -/
def apply (l : Ledger ι κ) : Change ι κ → Ledger ι κ
  | .wait => l
  | .take i job parts =>
    { l with todo := Function.update l.todo i ((List.range parts).map (job, ·)) }
  | .next i =>
    match l.todo i with
    | [] => l
    | p :: rest => ⟨Function.update l.todo i rest, l.log ++ [p]⟩
  | .leave i => { l with todo := Function.update l.todo i [] }

/-- No part of the job was done. -/
def Untouched (l : Ledger ι κ) (job : κ) : Prop := ∀ k, (job, k) ∉ l.log

/-- If the first part of a job is done next, it is a job that nobody has started. -/
def Fresh (l : Ledger ι κ) : Change ι κ → Prop
  | .next i => ∀ job rest, l.todo i = (job, 0) :: rest → l.Untouched job
  | _ => True

/-- The worker has done the first part of the job and has others of it to do. -/
def Begun (l : Ledger ι κ) (i : ι) (job : κ) : Prop := ∃ k rest, l.todo i = (job, k + 1) :: rest

/-- No part was done twice, and nothing that was begun leads to it. -/
structure Once (l : Ledger ι κ) : Prop where
  nodup : l.log.Nodup
  first : ∀ job k, (job, k) ∈ l.log → (job, 0) ∈ l.log
  ordered : ∀ i, (l.todo i).Pairwise fun p q => p.1 = q.1 ∧ p.2 < q.2
  logged : ∀ i job, l.Begun i job → (job, 0) ∈ l.log
  ahead : ∀ i job, l.Begun i job → ∀ p ∈ l.todo i, p ∉ l.log
  alone : ∀ i j job, l.Begun i job → l.Begun j job → i = j

theorem log_prefix_apply (l : Ledger ι κ) (c : Change ι κ) : l.log <+: (l.apply c).log := by
  cases c with
  | wait => exact List.prefix_rfl
  | take i job parts => exact List.prefix_rfl
  | next i =>
    rw [apply]
    split
    · exact List.prefix_rfl
    · exact List.prefix_append _ _
  | leave i => exact List.prefix_rfl

theorem not_nodup_apply {l : Ledger ι κ} (h : ¬l.log.Nodup) (c : Change ι κ) :
    ¬(l.apply c).log.Nodup :=
  fun hnodup => h (hnodup.sublist (l.log_prefix_apply c).sublist)

omit [DecidableEq ι] in
theorem once_new : (⟨fun _ => [], []⟩ : Ledger ι κ).Once where
  nodup := List.nodup_nil
  first _ _ h := by cases h
  ordered _ := List.Pairwise.nil
  logged _ _ h := by obtain ⟨_, _, h⟩ := h; cases h
  ahead _ _ h := by obtain ⟨_, _, h⟩ := h; cases h
  alone _ _ _ h := by obtain ⟨_, _, h⟩ := h; cases h

namespace Once

variable {l : Ledger ι κ}

/-- A worker that has nothing begun changes nothing for the others. -/
theorem update (h : l.Once) (i : ι) {todo : List (κ × ℕ)}
    (hordered : todo.Pairwise fun p q => p.1 = q.1 ∧ p.2 < q.2)
    (hfirst : ∀ job k rest, todo ≠ (job, k + 1) :: rest) :
    (⟨Function.update l.todo i todo, l.log⟩ : Ledger ι κ).Once := by
  have hbegun : ∀ j job, Begun ⟨Function.update l.todo i todo, l.log⟩ j job →
      j ≠ i ∧ l.Begun j job := by
    rintro j job ⟨k, rest, hj⟩
    by_cases hji : j = i
    · subst hji
      exact absurd (Function.update_self j todo l.todo ▸ hj) (hfirst job k rest)
    · exact ⟨hji, k, rest, by simpa [Function.update_of_ne hji] using hj⟩
  refine ⟨h.nodup, h.first, fun j => ?_, fun j job hj => ?_, fun j job hj => ?_,
    fun j j' job hj hj' => ?_⟩
  · by_cases hji : j = i
    · subst hji
      simpa using hordered
    · simpa [Function.update_of_ne hji] using h.ordered j
  · exact h.logged j job (hbegun j job hj).2
  · obtain ⟨hji, hj⟩ := hbegun j job hj
    simpa [Function.update_of_ne hji] using h.ahead j job hj
  · exact h.alone j j' job (hbegun j job hj).2 (hbegun j' job hj').2

/-- Doing the first part of a job that nobody has started, or a part of a job that was begun. -/
theorem next (h : l.Once) {i : ι} {job : κ} {k : ℕ} {rest : List (κ × ℕ)}
    (htodo : l.todo i = (job, k) :: rest) (hfresh : l.Fresh (.next i)) :
    (⟨Function.update l.todo i rest, l.log ++ [(job, k)]⟩ : Ledger ι κ).Once := by
  have hordered := h.ordered i
  rw [htodo, List.pairwise_cons] at hordered
  obtain ⟨hrest, hordered⟩ := hordered
  -- no part of this pass is in the log yet
  have hpass : ∀ p ∈ l.todo i, p ∉ l.log := by
    intro p hp
    cases k with
    | zero =>
      have hjob : p = (job, p.2) := by
        rw [htodo, List.mem_cons] at hp
        rcases hp with rfl | hp
        · rfl
        · exact Prod.ext (hrest p hp).1.symm rfl
      rw [hjob]
      exact hfresh job rest htodo p.2
    | succ k => exact h.ahead i job ⟨k, rest, htodo⟩ p hp
  have hnew : (job, k) ∉ l.log := hpass _ (htodo ▸ List.mem_cons_self)
  -- another worker has not begun this job
  have hother : ∀ j, j ≠ i → ∀ job', l.Begun j job' → job' ≠ job := by
    rintro j hji job' hj rfl
    cases k with
    | zero => exact hnew (h.logged j job' hj)
    | succ k => exact hji (h.alone j i job' hj ⟨k, rest, htodo⟩)
  have hbegun : ∀ j job', Begun ⟨Function.update l.todo i rest, l.log ++ [(job, k)]⟩ j job' →
      (j = i ∧ job' = job) ∨ (j ≠ i ∧ l.Begun j job') := by
    rintro j job' ⟨m, rest', hj⟩
    by_cases hji : j = i
    · subst hji
      have hj' : rest = (job', m + 1) :: rest' := by simpa using hj
      exact .inl ⟨rfl, ((hrest (job', m + 1) (hj' ▸ List.mem_cons_self)).1).symm⟩
    · exact .inr ⟨hji, m, rest', by simpa [Function.update_of_ne hji] using hj⟩
  have hzero : (job, 0) ∈ l.log ++ [(job, k)] := by
    cases k with
    | zero => simp
    | succ k => exact List.mem_append_left _ (h.logged i job ⟨k, rest, htodo⟩)
  refine ⟨?_, ?_, fun j => ?_, fun j job' hj => ?_, fun j job' hj => ?_,
    fun j j' job' hj hj' => ?_⟩
  · rw [List.nodup_append]
    refine ⟨h.nodup, List.nodup_singleton _, fun p hp q hq => ?_⟩
    rintro rfl
    exact hnew (List.mem_singleton.mp hq ▸ hp)
  · intro job' m hm
    rcases List.mem_append.mp hm with hm | hm
    · exact List.mem_append_left _ (h.first job' m hm)
    · cases List.mem_singleton.mp hm
      exact hzero
  · by_cases hji : j = i
    · subst hji
      simpa using hordered
    · simpa [Function.update_of_ne hji] using h.ordered j
  · rcases hbegun j job' hj with ⟨_, rfl⟩ | ⟨_, hj⟩
    · exact hzero
    · exact List.mem_append_left _ (h.logged j job' hj)
  · intro p hp hlog
    rcases hbegun j job' hj with ⟨rfl, rfl⟩ | ⟨hji, hj⟩
    · have hp : p ∈ rest := by simpa using hp
      rcases List.mem_append.mp hlog with hlog | hlog
      · exact hpass p (htodo ▸ List.mem_cons_of_mem _ hp) hlog
      · obtain rfl := List.mem_singleton.mp hlog
        exact lt_irrefl _ (hrest _ hp).2
    · have hp : p ∈ l.todo j := by simpa [Function.update_of_ne hji] using hp
      rcases List.mem_append.mp hlog with hlog | hlog
      · exact h.ahead j job' hj p hp hlog
      · obtain rfl := List.mem_singleton.mp hlog
        refine hother j hji job' hj ?_
        -- what a worker has still to do is of one job
        obtain ⟨m, rest', hj⟩ := hj
        have hj' := h.ordered j
        rw [hj, List.pairwise_cons] at hj'
        rw [hj, List.mem_cons] at hp
        rcases hp with hp | hp
        · exact (congrArg Prod.fst hp).symm
        · exact (hj'.1 _ hp).1
  · rcases hbegun j job' hj with ⟨hji, hjob⟩ | ⟨hji, hbegunj⟩
    · rcases hbegun j' job' hj' with ⟨hji', _⟩ | ⟨hji', hbegunj'⟩
      · exact hji.trans hji'.symm
      · exact absurd hjob (hother j' hji' job' hbegunj')
    · rcases hbegun j' job' hj' with ⟨_, hjob⟩ | ⟨_, hbegunj'⟩
      · exact absurd hjob (hother j hji job' hbegunj)
      · exact h.alone j j' job' hbegunj hbegunj'

/-- Nothing is done twice by a change that is fresh. -/
theorem apply (h : l.Once) {c : Change ι κ} (hfresh : l.Fresh c) : (l.apply c).Once := by
  cases c with
  | wait => exact h
  | take i job parts =>
    refine h.update i ?_ ?_
    · rw [List.pairwise_map]
      exact List.pairwise_lt_range.imp fun hlt => ⟨rfl, hlt⟩
    · intro job' k rest heq
      cases parts with
      | zero => simp at heq
      | succ parts => simp [List.range_succ_eq_map] at heq
  | next i =>
    rw [Ledger.apply]
    split
    · exact h
    next p rest htodo => exact h.next htodo hfresh
  | leave i => exact h.update i List.Pairwise.nil (by simp)

/-- A change that is not fresh does a part for the second time. -/
theorem not_nodup_apply (h : l.Once) {c : Change ι κ} (hfresh : ¬l.Fresh c) :
    ¬(l.apply c).log.Nodup := by
  cases c with
  | wait => exact absurd trivial hfresh
  | take i job parts => exact absurd trivial hfresh
  | next i =>
    simp only [Fresh, Untouched, not_forall, not_not] at hfresh
    obtain ⟨job, rest, htodo, k, hk⟩ := hfresh
    rw [Ledger.apply, htodo]
    intro hnodup
    rw [List.nodup_append] at hnodup
    exact hnodup.2.2 (job, 0) (h.first job k hk) (job, 0) (List.mem_singleton_self _) rfl
  | leave i => exact absurd trivial hfresh

end Once

end Ledger

end Passes
