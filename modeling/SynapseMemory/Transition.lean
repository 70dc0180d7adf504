import Mathlib

/-!
# Runs of a transition function

A system is given by a partial step function: in a state, an action is either not possible or
leads to one next state. A run is a list of actions. A condition on steps is a relation between
the state before and the action; a run **meets** it when each of its steps does. What each step
that meets the condition preserves holds after every run that meets it.
-/

namespace Transition

variable {σ α : Type*} (step : σ → α → Option σ)

/-- The state after a list of actions, if all of them are possible. -/
def run (s : σ) (as : List α) : Option σ := as.foldlM step s

/-- Every step of the run meets the condition in the state before it. -/
def Meets (cond : σ → α → Prop) : σ → List α → Prop
  | _, [] => True
  | s, a :: rest => cond s a ∧ ∀ s' ∈ step s a, Meets cond s' rest

instance decidableMeets (cond : σ → α → Prop) [∀ s a, Decidable (cond s a)] :
    (s : σ) → (as : List α) → Decidable (Meets step cond s as)
  | _, [] => inferInstanceAs (Decidable True)
  | s, a :: rest =>
    have := fun t => decidableMeets cond t rest
    inferInstanceAs (Decidable (cond s a ∧ ∀ t ∈ step s a, Meets step cond t rest))

/-- The property holds in every state that the run reaches. -/
def Along (prop : σ → Prop) (s : σ) (as : List α) : Prop :=
  ∀ pre, pre <+: as → ∀ t, run step s pre = some t → prop t

variable {step}

theorem run_cons {s s' : σ} {a : α} {rest : List α} :
    run step s (a :: rest) = some s' ↔ ∃ t, step s a = some t ∧ run step t rest = some s' := by
  rw [run, List.foldlM_cons, Option.bind_eq_bind, Option.bind_eq_some_iff]
  rfl

theorem run_append {s : σ} {as rest : List α} :
    run step s (as ++ rest) = (run step s as).bind (run step · rest) :=
  List.foldlM_append

theorem Meets.of_forall {cond : σ → α → Prop} (h : ∀ s a, cond s a) {s : σ} {as : List α} :
    Meets step cond s as := by
  induction as generalizing s with
  | nil => exact trivial
  | cons a rest ih => exact ⟨h s a, fun _ _ => ih⟩

/-- Two conditions that are the same in the states of an invariant, which need only last as long as
they are met. -/
theorem Meets.congr_while {cond prop : σ → α → Prop} (Inv : σ → Prop)
    (hstep : ∀ s a s', Inv s → cond s a → step s a = some s' → Inv s')
    (h : ∀ s a, Inv s → (cond s a ↔ prop s a)) {s : σ} {as : List α} (hinv : Inv s) :
    Meets step cond s as ↔ Meets step prop s as := by
  induction as generalizing s with
  | nil => exact Iff.rfl
  | cons a rest ih =>
    rw [Meets, Meets, ← h s a hinv]
    apply and_congr_right
    intro hcond
    exact forall₂_congr fun t ht => ih (hstep s a t hinv hcond ht)

/-- Two conditions that are the same in the states of an invariant. -/
theorem Meets.congr {cond prop : σ → α → Prop} (Inv : σ → Prop)
    (hstep : ∀ s a s', Inv s → step s a = some s' → Inv s')
    (h : ∀ s a, Inv s → (cond s a ↔ prop s a)) {s : σ} {as : List α} (hinv : Inv s) :
    Meets step cond s as ↔ Meets step prop s as :=
  Meets.congr_while Inv (fun s a s' hinv _ => hstep s a s' hinv) h hinv

/-- **Invariants of runs.** -/
theorem run_invariant {cond : σ → α → Prop} (Inv : σ → Prop)
    (hstep : ∀ s a s', Inv s → cond s a → step s a = some s' → Inv s') {s s' : σ} {as : List α}
    (hrun : run step s as = some s') (hmeets : Meets step cond s as) (hinv : Inv s) : Inv s' := by
  induction as generalizing s with
  | nil =>
    obtain rfl := Option.some.inj hrun
    exact hinv
  | cons a rest ih =>
    obtain ⟨t, ht, hrest⟩ := run_cons.mp hrun
    exact ih hrest (hmeets.2 t ht) (hstep s a t hinv hmeets.1 ht)

/-- What every step preserves. -/
theorem run_preserves (Inv : σ → Prop) (hstep : ∀ s a s', Inv s → step s a = some s' → Inv s')
    {s s' : σ} {as : List α} (hrun : run step s as = some s') (hinv : Inv s) : Inv s' :=
  run_invariant Inv (fun s a s' hinv (_ : True) => hstep s a s' hinv) hrun
    (Meets.of_forall fun _ _ => trivial) hinv

/-- Where an invariant makes every action possible, every run is. -/
theorem run_possible (Inv : σ → Prop) (hstep : ∀ s a s', Inv s → step s a = some s' → Inv s')
    (hpossible : ∀ s a, Inv s → ∃ s', step s a = some s') {s : σ} {as : List α} (hinv : Inv s) :
    ∃ s', run step s as = some s' := by
  induction as generalizing s with
  | nil => exact ⟨s, rfl⟩
  | cons a rest ih =>
    obtain ⟨t, ht⟩ := hpossible s a hinv
    obtain ⟨s', hs'⟩ := ih (hstep s a t hinv ht)
    exact ⟨s', run_cons.mpr ⟨t, ht, hs'⟩⟩

/-- A condition that follows, at each step, from an invariant and another condition. -/
theorem Meets.of_invariant {cond prop : σ → α → Prop} (Inv : σ → Prop)
    (hstep : ∀ s a s', Inv s → cond s a → step s a = some s' → Inv s')
    (hprop : ∀ s a, Inv s → cond s a → prop s a) {s : σ} {as : List α}
    (hmeets : Meets step cond s as) (hinv : Inv s) : Meets step prop s as := by
  induction as generalizing s with
  | nil => exact trivial
  | cons a rest ih =>
    refine ⟨hprop s a hinv hmeets.1, fun t ht => ?_⟩
    exact ih (hmeets.2 t ht) (hstep s a t hinv hmeets.1 ht)

/-- What is left of a run meets the condition too. -/
theorem Meets.of_append {cond : σ → α → Prop} {s t : σ} {as rest : List α}
    (hmeets : Meets step cond s (as ++ rest)) (hrun : run step s as = some t) :
    Meets step cond t rest := by
  induction as generalizing s with
  | nil =>
    obtain rfl := Option.some.inj hrun
    exact hmeets
  | cons a as ih =>
    obtain ⟨u, hu, hrest⟩ := run_cons.mp hrun
    exact ih (hmeets.2 u hu) hrest

/-- The last step of a run that meets the condition. -/
theorem Meets.last {cond : σ → α → Prop} {s s' : σ} {as : List α} {a : α}
    (hmeets : Meets step cond s (as ++ [a])) (hrun : run step s (as ++ [a]) = some s') :
    ∃ t, step t a = some s' ∧ cond t a := by
  rw [run_append, Option.bind_eq_some_iff] at hrun
  obtain ⟨t, hpre, hlast⟩ := hrun
  obtain ⟨u, hu, hnil⟩ := run_cons.mp hlast
  obtain rfl := Option.some.inj hnil
  exact ⟨t, hu, (hmeets.of_append hpre).1⟩

/-- **The exact condition of a run.** A step that breaks the condition leads to a state that no
later step repairs, so the invariant holds at the end exactly of the runs that meet the
condition. -/
theorem run_exact {cond : σ → α → Prop} (Inv Bad : σ → Prop)
    (hstep : ∀ s a s', Inv s → cond s a → step s a = some s' → Inv s')
    (hbreak : ∀ s a s', Inv s → ¬cond s a → step s a = some s' → Bad s')
    (hkeep : ∀ s a s', Bad s → step s a = some s' → Bad s') {s s' : σ} {as : List α}
    (hrun : run step s as = some s') (hinv : Inv s) :
    (Meets step cond s as ∧ Inv s') ∨ (¬Meets step cond s as ∧ Bad s') := by
  induction as generalizing s with
  | nil =>
    obtain rfl := Option.some.inj hrun
    exact .inl ⟨trivial, hinv⟩
  | cons a rest ih =>
    obtain ⟨t, ht, hrest⟩ := run_cons.mp hrun
    by_cases hcond : cond s a
    · rcases ih hrest (hstep s a t hinv hcond ht) with ⟨hmeets, hinv'⟩ | ⟨hmeets, hbad⟩
      · refine .inl ⟨⟨hcond, fun u hu => ?_⟩, hinv'⟩
        obtain rfl := Option.some.inj (ht.symm.trans hu)
        exact hmeets
      · exact .inr ⟨fun h => hmeets (h.2 t ht), hbad⟩
    · refine .inr ⟨fun h => hcond h.1, ?_⟩
      -- from here on no step repairs the state
      exact run_preserves Bad hkeep hrest (hbreak s a t hinv hcond ht)

/-- Where each step keeps a property exactly if it meets the condition, and none restores it, the
property holds at the end if it held at the start and the run meets the condition. -/
theorem run_keeps_iff {cond : σ → α → Prop} (Inv prop : σ → Prop)
    (hstep : ∀ s a s', Inv s → step s a = some s' → Inv s')
    (hexact : ∀ s a s', Inv s → step s a = some s' → (prop s' ↔ prop s ∧ cond s a)) {s s' : σ}
    {as : List α} (hrun : run step s as = some s') (hinv : Inv s) :
    prop s' ↔ prop s ∧ Meets step cond s as := by
  induction as generalizing s with
  | nil =>
    obtain rfl := Option.some.inj hrun
    exact (and_iff_left trivial).symm
  | cons a rest ih =>
    obtain ⟨t, ht, hrest⟩ := run_cons.mp hrun
    have hmeets : Meets step cond s (a :: rest) ↔ cond s a ∧ Meets step cond t rest := by
      simp [Meets, ht]
    rw [ih hrest (hstep s a t hinv ht), hexact s a t hinv ht, hmeets, and_assoc]

/-- What every step that meets the condition preserves holds in every state of a run that meets
it. -/
theorem Meets.along {cond : σ → α → Prop} (Inv : σ → Prop)
    (hstep : ∀ s a s', Inv s → cond s a → step s a = some s' → Inv s') {s : σ} {as : List α}
    (hmeets : Meets step cond s as) (hinv : Inv s) : Along step Inv s as := by
  intro pre hpre t ht
  induction pre generalizing s as with
  | nil =>
    obtain rfl := Option.some.inj ht
    exact hinv
  | cons a pre ih =>
    obtain ⟨rest, rfl⟩ := hpre
    obtain ⟨u, hu, ht⟩ := run_cons.mp ht
    exact ih (hmeets.2 u hu) (hstep s a u hinv hmeets.1 hu) (List.prefix_append pre rest) ht

theorem along_cons {prop : σ → Prop} {s t : σ} {a : α} {rest : List α} (ht : step s a = some t) :
    Along step prop s (a :: rest) ↔ prop s ∧ Along step prop t rest := by
  refine ⟨?_, ?_⟩
  · intro h
    refine ⟨h [] (List.nil_prefix) s rfl, fun pre hpre u hu => ?_⟩
    exact h (a :: pre) (List.cons_prefix_cons.mpr ⟨rfl, hpre⟩) u (run_cons.mpr ⟨t, ht, hu⟩)
  · rintro ⟨hs, hrest⟩ pre hpre u hu
    cases pre with
    | nil =>
      obtain rfl := Option.some.inj hu
      exact hs
    | cons b pre =>
      obtain ⟨rfl, htail⟩ := List.cons_prefix_cons.mp hpre
      obtain ⟨t', ht', hu⟩ := run_cons.mp hu
      obtain rfl := Option.some.inj (ht.symm.trans ht')
      exact hrest pre htail u hu

/-- **The exact condition of a property of all states.** A step may undo what an earlier one broke;
the property holds in every state of the run exactly if no step breaks it. -/
theorem along_iff_meets {cond known : σ → α → Prop} (Inv prop : σ → Prop)
    (hstep : ∀ s a s', Inv s → step s a = some s' → Inv s')
    (hexact : ∀ s a s', Inv s → prop s → known s a → step s a = some s' → (prop s' ↔ cond s a))
    {s s' : σ} {as : List α} (hrun : run step s as = some s') (hknown : Meets step known s as)
    (hinv : Inv s) (hprop : prop s) : Along step prop s as ↔ Meets step cond s as := by
  induction as generalizing s with
  | nil =>
    refine iff_of_true (fun pre hpre t ht => ?_) trivial
    obtain rfl := List.prefix_nil.mp hpre
    obtain rfl := Option.some.inj ht
    exact hprop
  | cons a rest ih =>
    obtain ⟨t, ht, hrest⟩ := run_cons.mp hrun
    have hiff := hexact s a t hinv hprop hknown.1 ht
    have hmeets : Meets step cond s (a :: rest) ↔ cond s a ∧ Meets step cond t rest := by
      simp [Meets, ht]
    rw [along_cons ht, and_iff_right hprop, hmeets, ← hiff]
    refine ⟨?_, ?_⟩
    · intro halong
      have hpropt : prop t := halong [] List.nil_prefix t rfl
      exact ⟨hpropt, (ih hrest (hknown.2 t ht) (hstep s a t hinv ht) hpropt).mp halong⟩
    · rintro ⟨hpropt, hmeets⟩
      exact (ih hrest (hknown.2 t ht) (hstep s a t hinv ht) hpropt).mpr hmeets

/-- **Simulation.** A part of the state that each action changes by a list of operations is, after a
run, what the operations of all its actions make of it. -/
theorem run_simulates {τ β : Type*} (part : σ → τ) (apply : τ → β → τ) (ops : α → List β)
    (hstep : ∀ s a s', step s a = some s' → part s' = (ops a).foldl apply (part s)) {s s' : σ}
    {as : List α} (hrun : run step s as = some s') :
    part s' = (as.flatMap ops).foldl apply (part s) := by
  induction as generalizing s with
  | nil =>
    obtain rfl := Option.some.inj hrun
    rfl
  | cons a rest ih =>
    obtain ⟨t, ht, hrest⟩ := run_cons.mp hrun
    rw [ih hrest, hstep s a t ht, List.flatMap_cons, List.foldl_append]

/-- Where every action is possible, a run is a fold. -/
theorem run_total (f : σ → α → σ) (s : σ) (as : List α) :
    run (fun s a => some (f s a)) s as = some (as.foldl f s) := by
  induction as generalizing s with
  | nil => rfl
  | cons a rest ih => exact run_cons.mpr ⟨f s a, rfl, ih (f s a)⟩

theorem meets_total_cons {f : σ → α → σ} {cond : σ → α → Prop} {s : σ} {a : α} {rest : List α} :
    Meets (fun s a => some (f s a)) cond s (a :: rest) ↔
      cond s a ∧ Meets (fun s a => some (f s a)) cond (f s a) rest := by
  simp [Meets]

end Transition
