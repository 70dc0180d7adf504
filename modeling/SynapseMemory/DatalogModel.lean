import SynapseMemory.Datalog

/-!
# Semi-naive evaluation computes the least model

The rules are read as a set of inferences over facts (`inferences`), so that
"closed under all rules" and "least" are the notions of `Closure`. One pass of
the loop body is a `Closure.Round`, although the relations it reads grow while
it runs: what a rule reads lies between the facts before and after the pass, and
that is all the round needs (`round_isRound`).

Termination is the finiteness of the active domain: the facts over the constants
that occur in the facts and rules form a finite closed set (`bound`), and every
pass but the last adds one of them.
-/

namespace SynapseMemory

namespace Datalog

open Closure

/-- The facts of a store as a set. -/
def Relations.toSet (rels : Relations) : Set Fact := {f | f ∈ rels}

/-- The fact a predicate stands for under a substitution. -/
def Predicate.fact (σ : String → String) (p : Predicate) : Fact := (p.name, p.ground σ)

/-- The body facts of a rule under a substitution. -/
def Rule.premises (r : Rule) (σ : String → String) : Set Fact := {f | ∃ p ∈ r.body, p.fact σ = f}

/-- The inferences a rule stands for: its ground instances, if it is safe. -/
def Rule.instances (r : Rule) : Set (Inference Fact) :=
  {i | r.Safe ∧ ∃ σ, i = ⟨r.premises σ, r.head.fact σ⟩}

/-- The inferences of a program. -/
def inferences (rules : List Rule) : Set (Inference Fact) := {i | ∃ r ∈ rules, i ∈ r.instances}

/-- The inferences of the rules without a recursive literal. -/
def edbInferences (rules : List Rule) : Set (Inference Fact) :=
  {i | ∃ r ∈ rules, idbPositions rules r = [] ∧ i ∈ r.instances}

variable {rules rs : List Rule} {delta facts : Relations} {r : Rule} {t : Tuple} {M : Set Fact}

/-! ## The candidates of one rule -/

/-- A derivation whose literals read relations inside a closed set stays in it. -/
theorem deriveWith_sound {rel : ℕ → Predicate → List Tuple} (hr : r ∈ rules)
    (hM : Closed (inferences rules) M)
    (hrel : ∀ i p, r.body[i]? = some p → ∀ u ∈ rel i p, (p.name, u) ∈ M)
    (ht : t ∈ deriveWith rel r) : (r.head.name, t) ∈ M := by
  obtain ⟨hsafe, σ, hbody, rfl⟩ := mem_deriveWith.mp ht
  refine hM ⟨r.premises σ, r.head.fact σ⟩ ⟨r, hr, hsafe, σ, rfl⟩ ?_
  rintro f ⟨p, hp, rfl⟩
  obtain ⟨i, hi⟩ := List.mem_iff_getElem?.mp hp
  have := hbody i p hi
  rw [Nat.zero_add] at this
  exact hrel i p hi _ this

/-- A candidate follows from the facts. -/
theorem candidates_sound (hr : r ∈ rules) (hM : Closed (inferences rules) M)
    (hfacts : facts.toSet ⊆ M) (hdelta : delta.toSet ⊆ M)
    (ht : t ∈ candidates rules delta facts r) : (r.head.name, t) ∈ M := by
  unfold candidates at ht
  split at ht
  · refine deriveWith_sound hr hM (fun i p _ u hu => ?_) ht
    exact hfacts (Relations.mem_get.mp hu)
  · obtain ⟨pos, -, hpos⟩ := List.mem_flatMap.mp ht
    rcases hp : r.body[pos]? with _ | p
    · rw [hp] at hpos
      cases hpos
    · simp only [hp] at hpos
      split at hpos
      · cases hpos
      · refine deriveWith_sound hr hM (fun i q hq u hu => ?_) hpos
        by_cases hi : i = pos
        · -- the literal at the chosen position reads the delta of its own name
          subst hi
          obtain rfl : p = q := Option.some.inj (hp.symm.trans hq)
          rw [if_pos rfl] at hu
          exact hdelta (Relations.mem_get.mp hu)
        · rw [if_neg hi] at hu
          exact hfacts (Relations.mem_get.mp hu)

theorem mem_idbPositions {i : ℕ} {p : Predicate} (hi : r.body[i]? = some p)
    (hp : p.name ∈ idbPreds rules) : i ∈ idbPositions rules r := by
  refine List.mem_map.mpr ⟨(p, i), List.mem_filter.mpr ⟨?_, by simpa using hp⟩, rfl⟩
  exact List.mem_zipIdx_iff_getElem?.mpr hi

/-- An instance with a premise in the delta is among the candidates. -/
theorem candidates_fires (hsafe : r.Safe) {σ : String → String}
    (hidb : ∀ f ∈ delta, f.1 ∈ idbPreds rules) (hprem : r.premises σ ⊆ facts.toSet)
    (htouch : ∃ f ∈ r.premises σ, f ∈ delta) :
    r.head.ground σ ∈ candidates rules delta facts r := by
  obtain ⟨f, ⟨p, hp, rfl⟩, hpd⟩ := htouch
  obtain ⟨pos, hpos⟩ := List.mem_iff_getElem?.mp hp
  have hmem : pos ∈ idbPositions rules r := mem_idbPositions hpos (hidb _ hpd)
  have hget : p.ground σ ∈ delta.get p.name := Relations.mem_get.mpr hpd
  have hne : (delta.get p.name).isEmpty = false := by
    rw [List.isEmpty_eq_false_iff_exists_mem]
    exact ⟨_, hget⟩
  have hposne : (idbPositions rules r).isEmpty = false := by
    rw [List.isEmpty_eq_false_iff_exists_mem]
    exact ⟨_, hmem⟩
  rw [candidates, hposne]
  simp only [Bool.false_eq_true, if_false]
  refine List.mem_flatMap.mpr ⟨pos, hmem, ?_⟩
  simp only [hpos, hne, Bool.false_eq_true, if_false]
  refine mem_deriveWith.mpr ⟨hsafe, σ, fun i q hq => ?_, rfl⟩
  rw [Nat.zero_add]
  by_cases hi : i = pos
  · subst hi
    obtain rfl : p = q := Option.some.inj (hpos.symm.trans hq)
    simpa only [if_true] using hget
  · simp only [hi, if_false]
    exact Relations.mem_get.mpr (hprem ⟨q, List.mem_of_getElem? hq, rfl⟩)

/-- A rule without recursive literals yields all its instances. -/
theorem candidates_eager (hsafe : r.Safe) {σ : String → String}
    (hnil : idbPositions rules r = []) (hprem : r.premises σ ⊆ facts.toSet) :
    r.head.ground σ ∈ candidates rules delta facts r := by
  rw [candidates, hnil]
  simp only [List.isEmpty_nil, if_true]
  refine mem_deriveWith.mpr ⟨hsafe, σ, fun i q hq => ?_, rfl⟩
  exact Relations.mem_get.mpr (hprem ⟨q, List.mem_of_getElem? hq, rfl⟩)

/-! ## Inserting -/

theorem mem_insert_facts {s : RoundState} {name : String} {f : Fact} :
    f ∈ (s.insert name t).facts ↔ f ∈ s.facts ∨ f = (name, t) := by
  unfold RoundState.insert
  split
  · rename_i hold
    exact ⟨Or.inl, fun h => h.elim id fun heq => heq ▸ hold⟩
  · rename_i hnew
    simp [Relations.insert, hnew]

/-- The state of a round started at `F₀`: the new delta is what is not in `F₀`. -/
def RoundState.Fresh (F₀ : Set Fact) (s : RoundState) : Prop :=
  F₀ ⊆ s.facts.toSet ∧ s.newDelta.toSet = s.facts.toSet \ F₀

/-- Inserting a fact keeps the new facts apart from the old ones. -/
theorem insert_fresh {F₀ : Set Fact} {s : RoundState} (hs : s.Fresh F₀) (name : String)
    (t : Tuple) :
    (s.insert name t).Fresh F₀ := by
  obtain ⟨hsub, hdelta⟩ := hs
  unfold RoundState.insert
  split
  · exact ⟨hsub, hdelta⟩
  · rename_i hnew
    have hnot : (name, t) ∉ s.newDelta := by
      intro hmem
      have : (name, t) ∈ s.facts.toSet \ F₀ := hdelta ▸ hmem
      exact hnew this.1
    have hF₀ : (name, t) ∉ F₀ := fun hmem => hnew (hsub hmem)
    refine ⟨fun f hf => ?_, ?_⟩
    · have : f ∈ s.facts := hsub hf
      simp [Relations.toSet, Relations.insert, hnew, this]
    · ext f
      have hf : f ∈ s.newDelta ↔ f ∈ s.facts ∧ f ∉ F₀ := by
        have := Set.ext_iff.mp hdelta f
        exact this
      simp only [Relations.toSet, Relations.insert, hnew, hnot, if_false, Set.mem_ofPred_eq,
        List.mem_append, List.mem_singleton, Set.mem_sdiff, hf]
      constructor
      · rintro (⟨hmem, hout⟩ | rfl)
        · exact ⟨.inl hmem, hout⟩
        · exact ⟨.inr rfl, hF₀⟩
      · rintro ⟨hmem | rfl, hout⟩
        · exact .inl ⟨hmem, hout⟩
        · exact .inr rfl

/-- The facts after several were inserted. -/
theorem mem_foldl_insert {s : RoundState} {name : String} {ts : List Tuple} {f : Fact} :
    f ∈ (ts.foldl (fun s t => s.insert name t) s).facts ↔
      f ∈ s.facts ∨ ∃ t ∈ ts, f = (name, t) := by
  induction ts generalizing s with
  | nil => simp
  | cons u rest ih =>
    rw [List.foldl_cons, ih, mem_insert_facts]
    simp [or_assoc]

theorem mem_ruleStep {s : RoundState} {f : Fact} :
    f ∈ (ruleStep rules delta s r).facts ↔
      f ∈ s.facts ∨ ∃ t ∈ candidates rules delta s.facts r, f = (r.head.name, t) :=
  mem_foldl_insert

theorem ruleStep_fresh {F₀ : Set Fact} {s : RoundState} (hs : s.Fresh F₀) :
    (ruleStep rules delta s r).Fresh F₀ := by
  unfold ruleStep
  generalize candidates rules delta s.facts r = ts
  induction ts generalizing s with
  | nil => exact hs
  | cons t rest ih => exact ih (insert_fresh hs r.head.name t)

/-! ## One round -/

theorem foldl_ruleStep_fresh {F₀ : Set Fact} {s : RoundState} (hs : s.Fresh F₀) :
    (rs.foldl (ruleStep rules delta) s).Fresh F₀ := by
  induction rs generalizing s with
  | nil => exact hs
  | cons r rest ih => exact ih (ruleStep_fresh hs)

theorem foldl_ruleStep_grows {s : RoundState} :
    s.facts.toSet ⊆ (rs.foldl (ruleStep rules delta) s).facts.toSet := by
  induction rs generalizing s with
  | nil => exact subset_rfl
  | cons r rest ih => exact fun f hf => ih (mem_ruleStep.mpr (.inl hf))

/-- Only facts that follow are added. -/
theorem foldl_ruleStep_sound (hM : Closed (inferences rules) M) (hdelta : delta.toSet ⊆ M)
    (hrs : ∀ r ∈ rs, r ∈ rules) {s : RoundState} (hs : s.facts.toSet ⊆ M) :
    (rs.foldl (ruleStep rules delta) s).facts.toSet ⊆ M := by
  induction rs generalizing s with
  | nil => exact hs
  | cons r rest ih =>
    refine ih (fun q hq => hrs q (List.mem_cons_of_mem _ hq)) fun f hf => ?_
    rcases mem_ruleStep.mp hf with hf | ⟨t, ht, rfl⟩
    · exact hs hf
    · exact candidates_sound (hrs r (List.mem_cons_self ..)) hM hs hdelta ht

/-- What each rule sees: some facts between those at the start of the pass and
those at its end; all its candidates from there are kept. -/
theorem foldl_ruleStep_reads (rules : List Rule) (delta : Relations) (s : RoundState)
    (hr : r ∈ rs) :
    ∃ mid : Relations, s.facts.toSet ⊆ mid.toSet ∧
      ∀ t ∈ candidates rules delta mid r,
        (r.head.name, t) ∈ (rs.foldl (ruleStep rules delta) s).facts := by
  induction rs generalizing s with
  | nil => cases hr
  | cons q rest ih =>
    rcases List.mem_cons.mp hr with rfl | hr
    · refine ⟨s.facts, subset_rfl, fun t ht => ?_⟩
      exact foldl_ruleStep_grows (s := ruleStep rules delta s r)
        (mem_ruleStep.mpr (.inr ⟨t, ht, rfl⟩))
    · obtain ⟨mid, hmid, hkept⟩ := ih (ruleStep rules delta s q) hr
      exact ⟨mid, fun f hf => hmid (mem_ruleStep.mpr (.inl hf)), hkept⟩

/-- Relations of non-head predicates never change. -/
theorem foldl_ruleStep_edb (hrs : ∀ r ∈ rs, r ∈ rules) {s : RoundState} {f : Fact}
    (hf : f.1 ∉ idbPreds rules) (hmem : f ∈ (rs.foldl (ruleStep rules delta) s).facts) :
    f ∈ s.facts := by
  induction rs generalizing s with
  | nil => exact hmem
  | cons r rest ih =>
    rcases mem_ruleStep.mp (ih (fun q hq => hrs q (List.mem_cons_of_mem _ hq)) hmem) with
      hold | ⟨t, -, rfl⟩
    · exact hold
    · exact absurd (List.mem_map_of_mem (hrs r (List.mem_cons_self ..))) hf

/-- **One pass of the loop body is a semi-naive round.** -/
theorem round_isRound (hdelta : delta.toSet ⊆ facts.toSet)
    (hidb : ∀ f ∈ delta, f.1 ∈ idbPreds rules) :
    Round (inferences rules) (edbInferences rules) facts.toSet delta.toSet
      (round rules delta facts).facts.toSet (round rules delta facts).newDelta.toSet := by
  have hstart : RoundState.Fresh facts.toSet { facts, newDelta := [] } :=
    ⟨subset_rfl, by simp [Relations.toSet]⟩
  refine ⟨foldl_ruleStep_grows (s := { facts, newDelta := [] }),
    (foldl_ruleStep_fresh hstart).2, fun M hF hM => ?_, ?_, ?_⟩
  · exact foldl_ruleStep_sound hM (hdelta.trans hF) (fun _ h => h) hF
  · rintro i ⟨r, hr, hsafe, σ, rfl⟩ hprem htouch
    obtain ⟨mid, hmid, hkept⟩ :=
      foldl_ruleStep_reads rules delta { facts, newDelta := [] } hr
    refine hkept _ (candidates_fires hsafe hidb (hprem.trans hmid) ?_)
    obtain ⟨f, hf, hfd⟩ := Set.not_disjoint_iff.mp htouch
    exact ⟨f, hf, hfd⟩
  · rintro i ⟨r, hr, hnil, hsafe, σ, rfl⟩ hprem
    obtain ⟨mid, hmid, hkept⟩ :=
      foldl_ruleStep_reads rules delta { facts, newDelta := [] } hr
    refine hkept _ (candidates_eager hsafe hnil (Set.Subset.trans ?_ hmid))
    rintro f ⟨p, hp, rfl⟩
    -- no body literal is recursive, so the premises were there before the pass
    refine foldl_ruleStep_edb (fun _ h => h) (fun hname => ?_) (hprem ⟨p, hp, rfl⟩)
    obtain ⟨j, hj⟩ := List.mem_iff_getElem?.mp hp
    have := mem_idbPositions hj hname
    rw [hnil] at this
    cases this

/-! ## The finite bound -/

/-- The constants that can ever occur in a derived tuple. -/
def domain (rules : List Rule) (facts : Relations) : List String :=
  facts.flatMap Prod.snd ++ rules.flatMap fun r => r.head.args.filterMap fun
    | .const c => some c
    | .var _ => none

/-- The tuples of a given length over given constants. -/
def tuplesOver (cs : List String) (n : ℕ) : Set Tuple := {t | t.length = n ∧ ∀ c ∈ t, c ∈ cs}

theorem tuplesOver_finite (cs : List String) (n : ℕ) : (tuplesOver cs n).Finite := by
  have hfin : {l : List {c // c ∈ cs} | l.length = n}.Finite := List.finite_length_eq _ n
  refine (hfin.image (List.map Subtype.val)).subset ?_
  rintro t ⟨hlen, hmem⟩
  lift t to List {c // c ∈ cs} using hmem
  exact ⟨t, by simpa using hlen, rfl⟩

/-- The facts, and every head tuple over the active domain. -/
def bound (rules : List Rule) (facts : Relations) : Set Fact :=
  facts.toSet ∪ {f | ∃ r ∈ rules, f.1 = r.head.name ∧
    f.2 ∈ tuplesOver (domain rules facts) r.head.args.length}

/-- There are finitely many facts within the bound. -/
theorem bound_finite (rules : List Rule) (facts : Relations) : (bound rules facts).Finite := by
  refine (List.finite_toSet facts).union ?_
  have hfin : (⋃ r ∈ rules, (fun t => (r.head.name, t)) ''
      tuplesOver (domain rules facts) r.head.args.length).Finite :=
    (List.finite_toSet rules).biUnion fun r _ => (tuplesOver_finite _ _).image _
  refine hfin.subset ?_
  rintro ⟨n, t⟩ ⟨r, hr, hname, ht⟩
  simp only [Set.mem_iUnion]
  exact ⟨r, hr, t, ht, by simp only [← hname]⟩

theorem mem_domain_of_bound {f : Fact} (hf : f ∈ bound rules facts) :
    ∀ c ∈ f.2, c ∈ domain rules facts := by
  intro c hc
  rcases hf with hf | ⟨r, -, -, ht⟩
  · exact List.mem_append_left _ (List.mem_flatMap.mpr ⟨f, hf, hc⟩)
  · exact ht.2 c hc

/-- The bound is closed under the rules. -/
theorem bound_closed (rules : List Rule) (facts : Relations) :
    Closed (inferences rules) (bound rules facts) := by
  rintro i ⟨r, hr, hsafe, σ, rfl⟩ hprem
  refine .inr ⟨r, hr, rfl, by simp [Predicate.fact, Predicate.ground], fun c hc => ?_⟩
  obtain ⟨a, ha, rfl⟩ := List.mem_map.mp hc
  cases a with
  | const c =>
    refine List.mem_append_right _ (List.mem_flatMap.mpr ⟨r, hr, ?_⟩)
    exact List.mem_filterMap.mpr ⟨_, ha, rfl⟩
  | var x =>
    -- a safe rule takes the value of a head variable from a body fact
    obtain ⟨p, hp, hpx⟩ := hsafe x ha
    exact mem_domain_of_bound (hprem ⟨p, hp, rfl⟩) _ (List.mem_map.mpr ⟨_, hpx, rfl⟩)

/-! ## The loop -/

/-- Between two rounds: the delta is part of the facts and of head relations
only, and every open inference goes through it. -/
structure LoopInv (rules : List Rule) (delta facts : Relations) : Prop where
  /-- the delta holds facts -/
  sub : delta.toSet ⊆ facts.toSet
  /-- of head predicates -/
  idb : ∀ f ∈ delta, f.1 ∈ idbPreds rules
  /-- and everything else is settled -/
  saturated : Saturated (inferences rules) (edbInferences rules) facts.toSet delta.toSet

/-- The invariant holds at the beginning. -/
theorem loopInv_initial (rules : List Rule) (facts : Relations) :
    LoopInv rules (initialDelta rules facts) facts := by
  refine ⟨fun f hf => (List.mem_filter.mp hf).1, fun f hf => ?_, ?_⟩
  · simpa using (List.mem_filter.mp hf).2
  · rintro i ⟨r, hr, hinst⟩ hE hprem hdisj
    have hne : idbPositions rules r ≠ [] := fun hnil => hE ⟨r, hr, hnil, hinst⟩
    obtain ⟨-, σ, rfl⟩ := hinst
    -- a recursive literal's fact is in the initial delta
    obtain ⟨pos, hpos⟩ := List.exists_mem_of_ne_nil _ hne
    obtain ⟨⟨p, j⟩, hmem, -⟩ := List.mem_map.mp hpos
    obtain ⟨hzip, hname⟩ := List.mem_filter.mp hmem
    have hp : p ∈ r.body := List.mem_of_getElem? (List.mem_zipIdx_iff_getElem?.mp hzip)
    have hfact : p.fact σ ∈ r.premises σ := ⟨p, hp, rfl⟩
    exfalso
    exact Set.disjoint_left.mp hdisj hfact (List.mem_filter.mpr ⟨hprem hfact, hname⟩)

/-- What a round preserves. -/
theorem loopInv_round (h : LoopInv rules delta facts) :
    LoopInv rules (round rules delta facts).newDelta (round rules delta facts).facts := by
  have hr := round_isRound h.sub h.idb
  refine ⟨?_, fun f hf => ?_, hr.saturated h.saturated⟩
  · rw [hr.delta]
    exact Set.sdiff_subset
  · -- what is new in a round was derived by some rule
    by_contra hname
    have hnew : f ∈ (round rules delta facts).facts.toSet \ facts.toSet := hr.delta ▸ hf
    exact hnew.2 (foldl_ruleStep_edb (fun _ h => h) hname hnew.1)

/-- **The loop terminates in the least model**, by induction on the number of
facts of the bound that are still missing. -/
theorem semiNaiveLoop_leastModel {U : Set Fact} (hU : U.Finite)
    (hclosed : Closed (inferences rules) U) {delta facts : Relations}
    (hinv : LoopInv rules delta facts) (hsub : facts.toSet ⊆ U) :
    ∃ n out, (∀ m ≥ n, semiNaiveLoop rules m delta facts = some out) ∧
      LeastModel (inferences rules) facts.toSet out.toSet := by
  induction hk : (U \ facts.toSet).ncard using Nat.strong_induction_on
    generalizing delta facts with
  | _ k ih =>
    have hr := round_isRound hinv.sub hinv.idb
    by_cases hdone : (round rules delta facts).newDelta = []
    · -- nothing new: the facts are closed, and the loop breaks
      have hempty : (round rules delta facts).newDelta.toSet = ∅ := by
        rw [hdone]
        simp [Relations.toSet]
      obtain ⟨heq, hF⟩ := hr.closed_of_done hinv.saturated hempty
      refine ⟨1, (round rules delta facts).facts, fun m hm => ?_, heq ▸ hF.leastModel⟩
      obtain ⟨m', rfl⟩ : ∃ m', m = m' + 1 := ⟨m - 1, by omega⟩
      simp [semiNaiveLoop, hdone]
    · -- something new: one more round, fewer facts missing
      have hne : (round rules delta facts).newDelta.toSet ≠ ∅ := by
        obtain ⟨f, hf⟩ := List.exists_mem_of_ne_nil _ hdone
        exact Set.nonempty_iff_ne_empty.mp ⟨f, hf⟩
      have hlt := hr.ncard_lt hU hclosed hsub hne
      obtain ⟨n, out, hrun, hleast⟩ :=
        ih _ (hk ▸ hlt) (loopInv_round hinv) (hr.sound U hsub hclosed) rfl
      refine ⟨n + 1, out, fun m hm => ?_, hr.leastModel hleast⟩
      obtain ⟨m', rfl⟩ : ∃ m', m = m' + 1 := ⟨m - 1, by omega⟩
      have hcont : (round rules delta facts).newDelta.isEmpty = false := by
        simpa using hdone
      simp only [semiNaiveLoop, hcont, Bool.false_eq_true, if_false]
      exact hrun m' (by omega)

/-- On closed facts no rule has anything to add: the state does not move. -/
theorem foldl_ruleStep_of_closed {s : RoundState} (hM : Closed (inferences rules) s.facts.toSet)
    (hdelta : delta.toSet ⊆ s.facts.toSet) (hrs : ∀ r ∈ rs, r ∈ rules) :
    rs.foldl (ruleStep rules delta) s = s := by
  induction rs with
  | nil => rfl
  | cons r rest ih =>
    have hstep : ruleStep rules delta s r = s := by
      have hold : ∀ t ∈ candidates rules delta s.facts r, (r.head.name, t) ∈ s.facts :=
        fun t ht => candidates_sound (hrs r (List.mem_cons_self ..)) hM subset_rfl hdelta ht
      unfold ruleStep
      generalize candidates rules delta s.facts r = ts at hold
      induction ts with
      | nil => rfl
      | cons t ts iht =>
        have ht : s.insert r.head.name t = s := by
          rw [RoundState.insert, if_pos (hold t (List.mem_cons_self ..))]
        rw [List.foldl_cons, ht]
        exact iht fun u hu => hold u (List.mem_cons_of_mem _ hu)
    rw [List.foldl_cons, hstep]
    exact ih fun q hq => hrs q (List.mem_cons_of_mem _ hq)

/-! ## The engine -/

/-- With enough fuel, evaluation ends in `eng'`. -/
def Evaluates (eng eng' : DatalogEngine) : Prop := ∃ n, ∀ m ≥ n, eng.semiNaive m = some eng'

/-- Every evaluation ends, with the least model. -/
theorem evaluates_leastModel (eng : DatalogEngine) :
    ∃ eng', Evaluates eng eng' ∧ eng'.rules = eng.rules ∧
      LeastModel (inferences eng.rules) eng.facts.toSet eng'.facts.toSet := by
  obtain ⟨n, out, hrun, hleast⟩ := semiNaiveLoop_leastModel (bound_finite eng.rules eng.facts)
    (bound_closed eng.rules eng.facts) (loopInv_initial eng.rules eng.facts)
    Set.subset_union_left
  refine ⟨{ eng with facts := out }, ⟨n, fun m hm => ?_⟩, rfl, hleast⟩
  rw [DatalogEngine.semiNaive, hrun m hm]
  rfl

/-- Where nothing follows, the evaluation changes nothing. -/
theorem evaluates_self {eng : DatalogEngine}
    (h : Closed (inferences eng.rules) eng.facts.toSet) : Evaluates eng eng := by
  refine ⟨1, fun m hm => ?_⟩
  obtain ⟨m', rfl⟩ : ∃ m', m = m' + 1 := ⟨m - 1, by omega⟩
  have hround : round eng.rules (initialDelta eng.rules eng.facts) eng.facts =
      { facts := eng.facts, newDelta := [] } :=
    foldl_ruleStep_of_closed h (loopInv_initial eng.rules eng.facts).sub fun _ h => h
  simp [DatalogEngine.semiNaive, semiNaiveLoop, hround]

/-- What a caller does with an engine. -/
inductive Op where
  | fact : Fact → Op
  | rule : Rule → Op
  | run : Op

/-- One call. -/
def DatalogEngine.exec (fuel : ℕ) (eng : DatalogEngine) : Op → Option DatalogEngine
  | .fact f => some (eng.fact f.1 f.2)
  | .rule r => some (eng.addRule r)
  | .run => eng.semiNaive fuel

/-- With enough fuel, a history of calls ends in `eng'`. -/
def Executes (ops : List Op) (eng eng' : DatalogEngine) : Prop :=
  ∃ n, ∀ m ≥ n, ops.foldlM (DatalogEngine.exec m) eng = some eng'

/-- The facts a history adds. -/
def addedFacts (ops : List Op) : Set Fact := {f | Op.fact f ∈ ops}

/-- The rules a history adds, in order. -/
def addedRules (ops : List Op) : List Rule :=
  ops.filterMap fun
    | .rule r => some r
    | _ => none

/-- A history without its evaluations. -/
def additions (ops : List Op) : List Op :=
  ops.filter fun
    | .run => false
    | _ => true

theorem addedFacts_additions (ops : List Op) : addedFacts (additions ops) = addedFacts ops := by
  ext f
  simp [addedFacts, additions]

theorem addedRules_additions (ops : List Op) : addedRules (additions ops) = addedRules ops := by
  induction ops with
  | nil => rfl
  | cons op rest ih => cases op <;> simp_all [additions, addedRules]

/-- One operation, and then the others. -/
theorem Executes.cons {op : Op} {ops : List Op} {eng eng₁ eng' : DatalogEngine}
    (h₁ : ∃ n, ∀ m ≥ n, eng.exec m op = some eng₁) (h₂ : Executes ops eng₁ eng') :
    Executes (op :: ops) eng eng' := by
  obtain ⟨n₁, hop⟩ := h₁
  obtain ⟨n₂, hops⟩ := h₂
  refine ⟨max n₁ n₂, fun m hm => ?_⟩
  rw [List.foldlM_cons, hop m (le_trans (le_max_left ..) hm)]
  exact hops m (le_trans (le_max_right ..) hm)

theorem inferences_mono {rs' : List Rule} (h : ∀ r ∈ rs, r ∈ rs') :
    inferences rs ⊆ inferences rs' :=
  fun _ ⟨r, hr, hi⟩ => ⟨r, h r hr, hi⟩

/-- The facts after one was added. -/
theorem fact_toSet (eng : DatalogEngine) (f : Fact) :
    (eng.fact f.1 f.2).facts.toSet = eng.facts.toSet ∪ {f} := by
  ext g
  simp only [DatalogEngine.fact, Relations.insert, Relations.toSet]
  split
  · rename_i hold
    constructor
    · exact Or.inl
    · rintro (hg | rfl)
      · exact hg
      · exact hold
  · simp [or_comm]

/-- **A history of calls**: whatever is evaluated on the way, the engine stays a
partial evaluation of the facts it was given, under the rules it was given. -/
theorem executes_between (ops : List Op) {eng : DatalogEngine} {F : Set Fact}
    (hF : Between (inferences eng.rules) F eng.facts.toSet) :
    ∃ eng', Executes ops eng eng' ∧ eng'.rules = eng.rules ++ addedRules ops ∧
      Between (inferences eng'.rules) (F ∪ addedFacts ops) eng'.facts.toSet := by
  induction ops generalizing eng F with
  | nil =>
    refine ⟨eng, ⟨0, fun _ _ => rfl⟩, by simp [addedRules], ?_⟩
    simpa [addedFacts] using hF
  | cons op rest ih =>
    cases op with
    | fact f =>
      have hF₁ : Between (inferences (eng.fact f.1 f.2).rules) (F ∪ {f})
          (eng.fact f.1 f.2).facts.toSet := by
        rw [fact_toSet]
        exact hF.extend subset_rfl {f}
      obtain ⟨eng', hrun, hrules, hbetween⟩ := ih hF₁
      refine ⟨eng', .cons ⟨0, fun _ _ => rfl⟩ hrun, hrules, ?_⟩
      have heq : F ∪ addedFacts (.fact f :: rest) = F ∪ {f} ∪ addedFacts rest := by
        ext g
        simp [addedFacts, or_assoc, or_left_comm]
      rw [heq]
      exact hbetween
    | rule r =>
      have hF₁ : Between (inferences (eng.addRule r).rules) F (eng.addRule r).facts.toSet := by
        have hsub : inferences eng.rules ⊆ inferences (eng.rules ++ [r]) :=
          inferences_mono fun q hq => List.mem_append_left _ hq
        have hext := hF.extend hsub ∅
        simp only [Set.union_empty] at hext
        exact hext
      obtain ⟨eng', hrun, hrules, hbetween⟩ := ih hF₁
      refine ⟨eng', .cons ⟨0, fun _ _ => rfl⟩ hrun, ?_, ?_⟩
      · simp [hrules, DatalogEngine.addRule, addedRules]
      · simpa [addedFacts] using hbetween
    | run =>
      obtain ⟨eng₁, heval, hrules₁, hleast⟩ := evaluates_leastModel eng
      have hF₁ : Between (inferences eng₁.rules) F eng₁.facts.toSet := by
        rw [hrules₁]
        exact hF.trans hleast
      obtain ⟨eng', hrun, hrules, hbetween⟩ := ih hF₁
      refine ⟨eng', .cons heval hrun, ?_, ?_⟩
      · simp [hrules, hrules₁, addedRules]
      · simpa [addedFacts] using hbetween

/-- Any operations, and an evaluation at the end: the least model of all that was added. -/
theorem executes_leastModel (ops : List Op) {eng : DatalogEngine} {F : Set Fact}
    (hF : Between (inferences eng.rules) F eng.facts.toSet) :
    ∃ eng', Executes (ops ++ [.run]) eng eng' ∧
      LeastModel (inferences (eng.rules ++ addedRules ops)) (F ∪ addedFacts ops)
        eng'.facts.toSet := by
  obtain ⟨eng₁, ⟨n₁, hops⟩, hrules, hbetween⟩ := executes_between ops hF
  obtain ⟨eng', ⟨n₂, heval⟩, -, hleast⟩ := evaluates_leastModel eng₁
  refine ⟨eng', ⟨max n₁ n₂, fun m hm => ?_⟩, ?_⟩
  · rw [List.foldlM_append, hops m (le_trans (le_max_left ..) hm)]
    have hrun := heval m (le_trans (le_max_right ..) hm)
    simp [DatalogEngine.exec, hrun]
  · rw [← hrules]
    exact hbetween.leastModel hleast

/-- **Datalog evaluation computes the least model.** For every engine, evaluation
terminates; the facts afterwards are exactly the least set above the facts before
that is closed under all rules; a second evaluation changes nothing; and adding
facts or rules later, with evaluations anywhere in between, gives the same facts
as adding everything first and evaluating once. -/
theorem semiNaive_leastModel (eng : DatalogEngine) :
    ∃ eng', Evaluates eng eng' ∧ eng'.rules = eng.rules ∧
      LeastModel (inferences eng.rules) eng.facts.toSet eng'.facts.toSet ∧
      Evaluates eng' eng' ∧
      ∀ ops : List Op, ∃ later scratch, Executes (ops ++ [.run]) eng' later ∧
        Executes (additions ops ++ [.run]) eng scratch ∧
        later.facts.toSet = scratch.facts.toSet := by
  obtain ⟨eng', heval, hrules, hleast⟩ := evaluates_leastModel eng
  have hclosed : Closed (inferences eng'.rules) eng'.facts.toSet := by
    rw [hrules]
    exact hleast.1.2
  refine ⟨eng', heval, hrules, hleast, evaluates_self hclosed, fun ops => ?_⟩
  have hF : Between (inferences eng'.rules) eng.facts.toSet eng'.facts.toSet := by
    rw [hrules]
    exact (Between.refl _ _).trans hleast
  obtain ⟨later, hlater, hlaterM⟩ := executes_leastModel ops hF
  obtain ⟨scratch, hscratch, hscratchM⟩ :=
    executes_leastModel (additions ops) (Between.refl (inferences eng.rules) eng.facts.toSet)
  refine ⟨later, scratch, hlater, hscratch, ?_⟩
  rw [addedFacts_additions, addedRules_additions] at hscratchM
  rw [hrules] at hlaterM
  exact hlaterM.unique hscratchM

end Datalog

end SynapseMemory
