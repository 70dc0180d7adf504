import SynapseMemory.Closure

/-!
# The Datalog engine

The model of `synapse-graph`'s `DatalogEngine`. The fact store, a map from
predicate names to sets of tuples, is the list of its (name, tuple) pairs; it
only grows by `insert`, and a name without pairs has the empty relation, as
`unwrap_or(&empty)` and `or_default` have it. A binding is an association list.

Both join functions of the source walk the body left to right and differ only in
where a literal's tuples come from; they are `deriveWith` at two choices of that
source. `semiNaive` is fuel-indexed: the source's `loop` has no visible bound.

The second half gives one characterization for each function of the join. A
binding is read through the total substitutions that agree with it (`Agrees`), and the whole join
comes down to `mem_deriveWith`: the derived tuples are the head instances under
the substitutions that put every body literal in its relation, provided every
head variable occurs in the body.
-/

namespace SynapseMemory

namespace Datalog

/-! ## Data -/

/-- A term: a constant or a variable. -/
inductive Term where
  | const : String → Term
  | var : String → Term
  deriving DecidableEq, Repr

/-- A predicate with a name and arguments. -/
structure Predicate where
  name : String
  args : List Term
  deriving DecidableEq, Repr

/-- A row of a relation. -/
abbrev Tuple : Type := List String

/-- A variable assignment under construction. -/
abbrev Binding : Type := List (String × String)

/-- `head :- body`. -/
structure Rule where
  head : Predicate
  body : List Predicate
  deriving DecidableEq, Repr

/-- A fact: a predicate name and a row of its relation. -/
abbrev Fact : Type := String × Tuple

/-- Predicate name to relation: the finite set of all facts. -/
abbrev Relations : Type := List Fact

/-- The relation of a name. -/
def Relations.get (rels : Relations) (name : String) : List Tuple :=
  (rels.filter fun f => f.1 = name).map Prod.snd

/-- Insert a tuple into the relation of a name. -/
def Relations.insert (rels : Relations) (name : String) (t : Tuple) : Relations :=
  if (name, t) ∈ rels then rels else rels ++ [(name, t)]

/-- The engine: extensional facts and rules. -/
structure DatalogEngine where
  facts : Relations
  rules : List Rule

/-- Add a base fact. -/
def DatalogEngine.fact (eng : DatalogEngine) (pred : String) (args : Tuple) : DatalogEngine :=
  { eng with facts := eng.facts.insert pred args }

/-- Add a rule. -/
def DatalogEngine.addRule (eng : DatalogEngine) (r : Rule) : DatalogEngine :=
  { eng with rules := eng.rules ++ [r] }

/-! ## Matching -/

/-- Bind `k` to `v`, or check the binding it already has. -/
def Binding.bind (b : Binding) (k v : String) : Option Binding :=
  match b.lookup k with
  | some prev => if prev = v then some b else none
  | none => some (b ++ [(k, v)])

/-- One turn of the loop of `match_args`. -/
def matchArg (b : Binding) : Term × String → Option Binding
  | (.const c, v) => if c = v then some b else none
  | (.var x, v) => b.bind x v

/-- Match a tuple against the arguments of a literal. -/
def matchArgs (args : List Term) (tuple : Tuple) : Option Binding :=
  if args.length ≠ tuple.length then none else (args.zip tuple).foldlM matchArg []

/-- Join two bindings, if they agree. -/
def mergeBindings (a b : Binding) : Option Binding :=
  b.foldlM (fun out kv => out.bind kv.1 kv.2) a

/-- Instantiate the head; an unbound variable gives nothing. -/
def applyBinding (args : List Term) (b : Binding) : Option Tuple :=
  args.mapM fun
    | .const c => some c
    | .var x => b.lookup x

/-- Extend each binding by each matching tuple of one literal. -/
def joinLiteral (bindings : List Binding) (pred : Predicate) (tuples : List Tuple) : List Binding :=
  bindings.flatMap fun b =>
    tuples.filterMap fun t => (matchArgs pred.args t).bind (mergeBindings b)

/-- The bindings of a body whose literal number `i` reads the relation `rel i`. -/
def joinBody (rel : ℕ → Predicate → List Tuple) : ℕ → List Predicate → List Binding → List Binding
  | _, [], bindings => bindings
  | i, p :: body, bindings => joinBody rel (i + 1) body (joinLiteral bindings p (rel i p))

/-- The head instances of the bindings of a body. -/
def deriveWith (rel : ℕ → Predicate → List Tuple) (r : Rule) : List Tuple :=
  (joinBody rel 0 r.body [[]]).filterMap (applyBinding r.head.args)

/-- Derive using the delta only at `deltaPos`; the other literals use full facts. -/
def deriveRuleDeltaAt (facts : Relations) (r : Rule) (deltaPos : ℕ) (deltaSet : List Tuple) :
    List Tuple :=
  deriveWith (fun i p => if i = deltaPos then deltaSet else facts.get p.name) r

/-- Derive with the relation of one predicate replaced by a delta, if given. -/
def deriveRuleWithDelta (facts : Relations) (r : Rule) (delta : Option (String × List Tuple)) :
    List Tuple :=
  deriveWith (fun _ p =>
    match delta with
    | some (dp, dt) => if p.name = dp then dt else facts.get p.name
    | none => facts.get p.name) r

/-- Derive from full relations. -/
def deriveRule (facts : Relations) (r : Rule) : List Tuple := deriveRuleWithDelta facts r none

/-! ## Semi-naive evaluation -/

/-- Names of rule heads. -/
def idbPreds (rules : List Rule) : List String := rules.map (·.head.name)

/-- Positions of the body literals whose predicate is some rule's head. -/
def idbPositions (rules : List Rule) (r : Rule) : List ℕ :=
  (r.body.zipIdx.filter fun (p, _) => p.name ∈ idbPreds rules).map Prod.snd

/-- The tuples one rule contributes in a round. -/
def candidates (rules : List Rule) (delta facts : Relations) (r : Rule) : List Tuple :=
  if (idbPositions rules r).isEmpty then deriveRule facts r
  else
    (idbPositions rules r).flatMap fun pos =>
      match r.body[pos]? with
      | some p =>
        if (delta.get p.name).isEmpty then []
        else deriveRuleDeltaAt facts r pos (delta.get p.name)
      | none => []

/-- What a round works on: the facts so far and what is new in this round. -/
structure RoundState where
  facts : Relations
  newDelta : Relations

/-- Insert a derived head tuple; a new one also enters the new delta. -/
def RoundState.insert (s : RoundState) (name : String) (t : Tuple) : RoundState :=
  if (name, t) ∈ s.facts then s
  else { facts := s.facts.insert name t, newDelta := s.newDelta.insert name t }

/-- One rule's turn in a round. -/
def ruleStep (rules : List Rule) (delta : Relations) (s : RoundState) (r : Rule) : RoundState :=
  (candidates rules delta s.facts r).foldl (fun s t => s.insert r.head.name t) s

/-- One round over all rules. -/
def round (rules : List Rule) (delta facts : Relations) : RoundState :=
  rules.foldl (ruleStep rules delta) { facts, newDelta := [] }

/-- The loop: rounds until nothing is new. -/
def semiNaiveLoop (rules : List Rule) : ℕ → Relations → Relations → Option Relations
  | 0, _, _ => none
  | fuel + 1, delta, facts =>
    let s := round rules delta facts
    if s.newDelta.isEmpty then some s.facts
    else semiNaiveLoop rules fuel s.newDelta s.facts

/-- The delta of the first round: whatever is in the head relations already. -/
def initialDelta (rules : List Rule) (facts : Relations) : Relations :=
  facts.filter fun f => f.1 ∈ idbPreds rules

/-- Bottom-up evaluation to the fixed point. -/
def DatalogEngine.semiNaive (fuel : ℕ) (eng : DatalogEngine) : Option DatalogEngine :=
  (semiNaiveLoop eng.rules fuel (initialDelta eng.rules eng.facts) eng.facts).map fun facts =>
    { eng with facts }

/-! ## What matching means -/

/-- The value of a term under a substitution. -/
def Term.subst (σ : String → String) : Term → String
  | .const c => c
  | .var x => σ x

/-- The tuple a predicate stands for under a substitution. -/
def Predicate.ground (σ : String → String) (p : Predicate) : Tuple := p.args.map (Term.subst σ)

/-- Variables of a predicate. -/
def Predicate.HasVar (p : Predicate) (x : String) : Prop := Term.var x ∈ p.args

namespace Binding

/-- A substitution agrees with every entry of a binding. -/
def Agrees (b : Binding) (σ : String → String) : Prop := ∀ kv ∈ b, σ kv.1 = kv.2

/-- The bound variables. -/
def keys (b : Binding) : List String := b.map Prod.fst

theorem mem_of_lookup {b : Binding} {k v : String} (h : b.lookup k = some v) : (k, v) ∈ b := by
  obtain ⟨l₁, l₂, rfl, -⟩ := List.lookup_eq_some_iff.mp h
  simp

/-- A bound variable has a value. -/
theorem lookup_of_mem_keys {b : Binding} {k : String} (h : k ∈ b.keys) :
    ∃ v, b.lookup k = some v := by
  obtain ⟨⟨k', v⟩, hmem, rfl⟩ := List.mem_map.mp h
  rcases hl : b.lookup k' with _ | v'
  · have hne := List.lookup_eq_none_iff.mp hl (k', v) hmem
    simp at hne
  · exact ⟨v', rfl⟩

theorem not_mem_keys_of_lookup {b : Binding} {k : String} (h : b.lookup k = none) :
    k ∉ b.keys := by
  intro hk
  obtain ⟨v, hv⟩ := lookup_of_mem_keys hk
  rw [h] at hv
  cases hv

/-- The substitution that reads a binding. -/
def sigma (b : Binding) : String → String := fun x => (b.lookup x).getD ""

/-- A binding agrees with its own substitution. -/
theorem agrees_sigma {b : Binding} (hnd : b.keys.Nodup) : b.Agrees b.sigma := by
  rintro ⟨k, v⟩ hkv
  obtain ⟨v', hv'⟩ := lookup_of_mem_keys (List.mem_map_of_mem hkv)
  have heq : v' = v := by
    have := List.inj_on_of_nodup_map hnd (mem_of_lookup hv') hkv rfl
    simpa using this
  simp only [sigma, hv', heq, Option.getD_some]

/-- What `bind` does: nothing to a variable that already has the value, one new
entry for a fresh variable. -/
theorem bind_cases {b b' : Binding} {k v : String} (h : b.bind k v = some b') :
    ((k, v) ∈ b ∧ b' = b) ∨ (k ∉ b.keys ∧ b' = b ++ [(k, v)]) := by
  unfold bind at h
  rcases hl : b.lookup k with _ | prev
  · rw [hl] at h
    exact .inr ⟨not_mem_keys_of_lookup hl, (Option.some.inj h).symm⟩
  · rw [hl] at h
    by_cases heq : prev = v
    · simp only [heq, if_true] at h
      exact .inl ⟨mem_of_lookup (heq ▸ hl), (Option.some.inj h).symm⟩
    · simp only [heq, if_false] at h
      cases h

/-- `b'` is `b` with the constraint `C` added and the variables `V` bound. -/
structure Extends (b b' : Binding) (C : (String → String) → Prop) (V : String → Prop) : Prop where
  /-- the agreeing substitutions are those that also satisfy the constraint -/
  agrees : ∀ σ, b'.Agrees σ ↔ b.Agrees σ ∧ C σ
  /-- the bound variables -/
  keys_iff : ∀ x, x ∈ b'.keys ↔ x ∈ b.keys ∨ V x
  /-- no variable is bound twice -/
  nodup : b.keys.Nodup → b'.keys.Nodup

theorem Extends.refl (b : Binding) : b.Extends b (fun _ => True) (fun _ => False) :=
  ⟨by simp, by simp, id⟩

theorem Extends.trans {b₁ b₂ b₃ : Binding} {C₁ C₂ : (String → String) → Prop}
    {V₁ V₂ : String → Prop} (h₁ : b₁.Extends b₂ C₁ V₁) (h₂ : b₂.Extends b₃ C₂ V₂) :
    b₁.Extends b₃ (fun σ => C₁ σ ∧ C₂ σ) (fun x => V₁ x ∨ V₂ x) := by
  refine ⟨fun σ => ?_, fun x => ?_, fun hnd => h₂.nodup (h₁.nodup hnd)⟩
  · rw [h₂.agrees, h₁.agrees, and_assoc]
  · rw [h₂.keys_iff, h₁.keys_iff, or_assoc]

theorem Extends.congr {b b' : Binding} {C C' : (String → String) → Prop} {V V' : String → Prop}
    (h : b.Extends b' C V) (hC : ∀ σ, C σ ↔ C' σ) (hV : ∀ x, V x ↔ V' x) :
    b.Extends b' C' V' :=
  ⟨fun σ => by rw [h.agrees, hC], fun x => by rw [h.keys_iff, hV], h.nodup⟩

/-- Binding a variable extends a binding by one condition. -/
theorem bind_extends {b b' : Binding} {k v : String} (h : b.bind k v = some b') :
    b.Extends b' (fun σ => σ k = v) (fun x => x = k) := by
  obtain ⟨hmem, rfl⟩ | ⟨hfresh, rfl⟩ := bind_cases h
  · refine ⟨fun σ => ⟨fun hb => ⟨hb, hb _ hmem⟩, fun hb => hb.1⟩, fun x => ?_, id⟩
    constructor
    · exact Or.inl
    · rintro (hx | rfl)
      · exact hx
      · exact List.mem_map_of_mem hmem
  · refine ⟨fun σ => ?_, fun x => by simp [keys], fun hnd => ?_⟩
    · constructor
      · intro hb
        exact ⟨fun kv hkv => hb kv (List.mem_append_left _ hkv), hb (k, v) (by simp)⟩
      · rintro ⟨hb, hk⟩ kv hkv
        rcases List.mem_append.mp hkv with hkv | hkv
        · exact hb kv hkv
        · obtain rfl := List.mem_singleton.mp hkv
          exact hk
    · have hkeys : keys (b ++ [(k, v)]) = b.keys ++ [k] := by simp [keys]
      rw [hkeys, List.nodup_append]
      refine ⟨hnd, List.nodup_singleton k, fun x hx y hy heq => ?_⟩
      obtain rfl := List.mem_singleton.mp hy
      exact hfresh (heq ▸ hx)

/-- A substitution that agrees does not let a binding fail. -/
theorem bind_complete {b : Binding} {k v : String} {σ : String → String} (hb : b.Agrees σ)
    (hk : σ k = v) : ∃ b', b.bind k v = some b' := by
  unfold bind
  rcases hl : b.lookup k with _ | prev
  · exact ⟨_, rfl⟩
  · have hprev : prev = v := (hb _ (mem_of_lookup hl)).symm.trans hk
    exact ⟨b, by simp [hprev]⟩

end Binding

open Binding

/-- Matching an argument extends a binding by one condition. -/
theorem matchArg_extends {b b' : Binding} {p : Term × String} (h : matchArg b p = some b') :
    b.Extends b' (fun σ => p.1.subst σ = p.2) (fun x => p.1 = .var x) := by
  obtain ⟨t, v⟩ := p
  cases t with
  | const c =>
    simp only [matchArg] at h
    by_cases hc : c = v
    · rw [if_pos hc] at h
      obtain rfl := Option.some.inj h
      exact (Extends.refl b).congr (fun σ => by simp [Term.subst, hc]) (fun x => by simp)
    · rw [if_neg hc] at h
      cases h
  | var x => exact (bind_extends h).congr (fun σ => Iff.rfl) (fun y => by simp [eq_comm])

/-- It does not fail if a substitution agrees. -/
theorem matchArg_complete {b : Binding} {p : Term × String} {σ : String → String}
    (hb : b.Agrees σ) (hp : p.1.subst σ = p.2) : ∃ b', matchArg b p = some b' := by
  obtain ⟨t, v⟩ := p
  cases t with
  | const c =>
    have hc : c = v := hp
    exact ⟨b, by simp [matchArg, hc]⟩
  | var x => exact bind_complete hb hp

/-- A chain of binding steps, each adding its constraint, adds all of them. -/
theorem foldlM_extends {β : Type} {f : Binding → β → Option Binding}
    {C : β → (String → String) → Prop} {V : β → String → Prop}
    (hf : ∀ b b' x, f b x = some b' → b.Extends b' (C x) (V x)) {l : List β} {b b' : Binding}
    (h : l.foldlM f b = some b') :
    b.Extends b' (fun σ => ∀ x ∈ l, C x σ) (fun y => ∃ x ∈ l, V x y) := by
  induction l generalizing b with
  | nil =>
    obtain rfl := Option.some.inj h
    exact (Extends.refl b).congr (fun σ => by simp) (fun y => by simp)
  | cons x rest ih =>
    rw [List.foldlM_cons] at h
    obtain ⟨b₁, hx, hrest⟩ := Option.bind_eq_some_iff.mp h
    exact ((hf _ _ _ hx).trans (ih hrest)).congr (fun σ => by simp) (fun y => by simp)

/-- Such a chain never fails along a substitution satisfying every constraint. -/
theorem foldlM_complete {β : Type} {f : Binding → β → Option Binding}
    {C : β → (String → String) → Prop} {V : β → String → Prop}
    (hf : ∀ b b' x, f b x = some b' → b.Extends b' (C x) (V x)) {σ : String → String}
    (hc : ∀ b x, b.Agrees σ → C x σ → ∃ b', f b x = some b') {l : List β} {b : Binding}
    (hb : b.Agrees σ) (hl : ∀ x ∈ l, C x σ) : ∃ b', l.foldlM f b = some b' ∧ b'.Agrees σ := by
  induction l generalizing b with
  | nil => exact ⟨b, rfl, hb⟩
  | cons x rest ih =>
    obtain ⟨b₁, hx⟩ := hc b x hb (hl x (List.mem_cons_self ..))
    have hb₁ : b₁.Agrees σ := ((hf _ _ _ hx).agrees σ).mpr ⟨hb, hl x (List.mem_cons_self ..)⟩
    obtain ⟨b', hrest, hb'⟩ := ih hb₁ fun y hy => hl y (List.mem_cons_of_mem _ hy)
    refine ⟨b', ?_, hb'⟩
    rw [List.foldlM_cons]
    exact Option.bind_eq_some_iff.mpr ⟨b₁, hx, hrest⟩

/-- Pointwise equality along a zip is equality of the mapped list. -/
theorem zip_subst_iff {args : List Term} {t : Tuple} (hlen : args.length = t.length)
    (σ : String → String) :
    (∀ p ∈ args.zip t, p.1.subst σ = p.2) ↔ args.map (Term.subst σ) = t := by
  induction args generalizing t with
  | nil =>
    have ht : t = [] := List.eq_nil_of_length_eq_zero hlen.symm
    simp [ht]
  | cons a rest ih =>
    cases t with
    | nil => simp at hlen
    | cons v vs =>
      have hrest := ih (t := vs) (by simpa using hlen)
      simp only [List.zip_cons_cons, List.forall_mem_cons, hrest, List.map_cons, List.cons.injEq]

/-- Matching all arguments: the substitution makes them the tuple. -/
theorem matchArgs_extends {args : List Term} {t : Tuple} {b : Binding}
    (h : matchArgs args t = some b) :
    Binding.Extends [] b (fun σ => args.map (Term.subst σ) = t) (fun x => Term.var x ∈ args) := by
  unfold matchArgs at h
  by_cases hlen : args.length = t.length
  · simp only [hlen, ne_eq, not_true_eq_false, if_false] at h
    refine (foldlM_extends (C := fun p σ => p.1.subst σ = p.2) (V := fun p x => p.1 = .var x)
      (fun _ _ _ => matchArg_extends) h).congr (fun σ => zip_subst_iff hlen σ) (fun x => ?_)
    constructor
    · rintro ⟨p, hp, hpx⟩
      exact hpx ▸ (List.of_mem_zip (a := p.1) (b := p.2) hp).1
    · intro hx
      obtain ⟨i, hi, hix⟩ := List.getElem_of_mem hx
      have hit : i < t.length := hlen ▸ hi
      refine ⟨(args[i], t[i]), ?_, hix⟩
      exact List.mem_iff_getElem.mpr ⟨i, by simp; omega, by simp⟩
  · simp [hlen] at h

/-- A tuple that the arguments can become is matched. -/
theorem matchArgs_complete {args : List Term} {t : Tuple} {σ : String → String}
    (h : args.map (Term.subst σ) = t) : ∃ b, matchArgs args t = some b ∧ b.Agrees σ := by
  have hlen : args.length = t.length := by rw [← h, List.length_map]
  have hnil : Binding.Agrees [] σ := fun kv hkv => absurd hkv (List.not_mem_nil)
  obtain ⟨b, hb, hag⟩ := foldlM_complete
    (C := fun (p : Term × String) σ => p.1.subst σ = p.2) (V := fun p x => p.1 = .var x)
    (fun _ _ _ => matchArg_extends) (fun _ _ => matchArg_complete) hnil
    ((zip_subst_iff hlen σ).mpr h)
  exact ⟨b, by simp [matchArgs, hlen, hb], hag⟩

theorem mergeBindings_extends {a b c : Binding} (h : mergeBindings a b = some c) :
    a.Extends c b.Agrees (· ∈ b.keys) := by
  refine (foldlM_extends (C := fun kv σ => σ kv.1 = kv.2) (V := fun kv x => x = kv.1)
    (fun _ _ _ => bind_extends) h).congr (fun σ => Iff.rfl) (fun x => ?_)
  simp [keys, eq_comm]

theorem mergeBindings_complete {a b : Binding} {σ : String → String} (ha : a.Agrees σ)
    (hb : b.Agrees σ) : ∃ c, mergeBindings a b = some c ∧ c.Agrees σ :=
  foldlM_complete (C := fun (kv : String × String) σ => σ kv.1 = kv.2) (V := fun kv x => x = kv.1)
    (fun _ _ _ => bind_extends) (fun _ _ => bind_complete) ha hb

/-- Applying a binding to terms whose variables it binds. -/
theorem applyBinding_eq_some {args : List Term} {b : Binding} {σ : String → String}
    (hb : b.Agrees σ) {t : Tuple} :
    applyBinding args b = some t ↔
      (∀ x, Term.var x ∈ args → x ∈ b.keys) ∧ args.map (Term.subst σ) = t := by
  induction args generalizing t with
  | nil => simp [applyBinding, eq_comm]
  | cons a rest ih =>
    simp only [applyBinding, List.mapM_cons, Option.bind_eq_bind, Option.bind_eq_some_iff] at ih ⊢
    cases a with
    | const c =>
      constructor
      · rintro ⟨v, hv, vs, hvs, heq⟩
        obtain ⟨hkeys, hmap⟩ := ih.mp hvs
        obtain rfl := Option.some.inj hv
        obtain rfl := Option.some.inj heq
        exact ⟨fun x hx => hkeys x (by simpa using hx), by simp [Term.subst, hmap]⟩
      · rintro ⟨hkeys, rfl⟩
        exact ⟨c, rfl, _, ih.mpr ⟨fun x hx => hkeys x (List.mem_cons_of_mem _ hx), rfl⟩, rfl⟩
    | var y =>
      constructor
      · rintro ⟨v, hv, vs, hvs, heq⟩
        obtain ⟨hkeys, hmap⟩ := ih.mp hvs
        obtain rfl := Option.some.inj heq
        have hy : σ y = v := hb _ (mem_of_lookup hv)
        refine ⟨fun x hx => ?_, by simp [Term.subst, hmap, hy]⟩
        rcases List.mem_cons.mp hx with hxy | hx
        · obtain rfl : x = y := by simpa using hxy
          exact List.mem_map_of_mem (mem_of_lookup hv)
        · exact hkeys x hx
      · rintro ⟨hkeys, rfl⟩
        obtain ⟨v, hv⟩ := lookup_of_mem_keys (hkeys y (List.mem_cons_self ..))
        have hy : σ y = v := hb _ (mem_of_lookup hv)
        exact ⟨v, hv, _, ih.mpr ⟨fun x hx => hkeys x (List.mem_cons_of_mem _ hx), rfl⟩,
          by simp [Term.subst, hy]⟩

/-! ## The join -/

theorem Relations.mem_get {rels : Relations} {name : String} {t : Tuple} :
    t ∈ rels.get name ↔ (name, t) ∈ rels := by
  simp [Relations.get]

theorem mem_joinLiteral {bindings : List Binding} {p : Predicate} {tuples : List Tuple}
    {c : Binding} :
    c ∈ joinLiteral bindings p tuples ↔
      ∃ b ∈ bindings, ∃ t ∈ tuples, ∃ m, matchArgs p.args t = some m ∧
        mergeBindings b m = some c := by
  simp only [joinLiteral, List.mem_flatMap, List.mem_filterMap, Option.bind_eq_some_iff]

/-- A joined binding is an old one plus the literal's constraint. -/
theorem joinLiteral_extends {bindings : List Binding} {p : Predicate} {tuples : List Tuple}
    {c : Binding} (hc : c ∈ joinLiteral bindings p tuples) :
    ∃ b ∈ bindings, ∃ t ∈ tuples, b.Extends c (fun σ => p.ground σ = t) p.HasVar := by
  obtain ⟨b, hb, t, ht, m, hm, hmerge⟩ := mem_joinLiteral.mp hc
  have hmatch := matchArgs_extends hm
  refine ⟨b, hb, t, ht, (mergeBindings_extends hmerge).congr (fun σ => ?_) (fun x => ?_)⟩
  · rw [hmatch.agrees]
    exact ⟨fun h => h.2, fun h => ⟨fun kv hkv => absurd hkv (List.not_mem_nil), h⟩⟩
  · rw [hmatch.keys_iff]
    simp [keys, Predicate.HasVar]

/-- A substitution that agrees survives the join. -/
theorem joinLiteral_complete {bindings : List Binding} {p : Predicate} {tuples : List Tuple}
    {b : Binding} {σ : String → String} (hb : b ∈ bindings) (hσ : b.Agrees σ)
    (hp : p.ground σ ∈ tuples) : ∃ c ∈ joinLiteral bindings p tuples, c.Agrees σ := by
  obtain ⟨m, hm, hmσ⟩ : ∃ m, matchArgs p.args (p.ground σ) = some m ∧ m.Agrees σ :=
    matchArgs_complete rfl
  obtain ⟨c, hc, hcσ⟩ := mergeBindings_complete hσ hmσ
  exact ⟨c, mem_joinLiteral.mpr ⟨b, hb, _, hp, m, hm, hc⟩, hcσ⟩

/-- Every literal of a body numbered from `i` holds in its relation under `σ`. -/
def BodyHolds (rel : ℕ → Predicate → List Tuple) (i : ℕ) (body : List Predicate)
    (σ : String → String) : Prop :=
  ∀ j p, body[j]? = some p → p.ground σ ∈ rel (i + j) p

/-- The first literal of a body, and the rest. -/
theorem bodyHolds_cons {rel : ℕ → Predicate → List Tuple} {i : ℕ} {p : Predicate}
    {body : List Predicate} {σ : String → String} :
    BodyHolds rel i (p :: body) σ ↔ p.ground σ ∈ rel i p ∧ BodyHolds rel (i + 1) body σ := by
  constructor
  · intro h
    refine ⟨h 0 p rfl, fun j q hq => ?_⟩
    have := h (j + 1) q (by simpa using hq)
    rwa [show i + (j + 1) = i + 1 + j by omega] at this
  · rintro ⟨hp, hbody⟩ j q hq
    cases j with
    | zero =>
      obtain rfl : p = q := by simpa using hq
      exact hp
    | succ j =>
      have := hbody j q (by simpa using hq)
      rwa [show i + 1 + j = i + (j + 1) by omega] at this

/-- Soundness of the join: a resulting binding extends a starting one, binds the
variables of the body, and every agreeing substitution satisfies the body. -/
theorem joinBody_sound {rel : ℕ → Predicate → List Tuple} {body : List Predicate} {i : ℕ}
    {bindings : List Binding} {c : Binding} (hc : c ∈ joinBody rel i body bindings) :
    ∃ b ∈ bindings, (∀ σ, c.Agrees σ → b.Agrees σ ∧ BodyHolds rel i body σ) ∧
      (∀ x, x ∈ c.keys ↔ x ∈ b.keys ∨ ∃ p ∈ body, p.HasVar x) ∧
      (b.keys.Nodup → c.keys.Nodup) := by
  induction body generalizing i bindings with
  | nil =>
    refine ⟨c, hc, fun σ hσ => ⟨hσ, ?_⟩, by simp, id⟩
    intro j p hp
    simp at hp
  | cons p body ih =>
    obtain ⟨b₁, hb₁, hag₁, hkeys₁, hnd₁⟩ := ih hc
    obtain ⟨b, hb, t, ht, hext⟩ := joinLiteral_extends hb₁
    refine ⟨b, hb, fun σ hσ => ?_, fun x => ?_, fun hnd => hnd₁ (hext.nodup hnd)⟩
    · obtain ⟨hσ₁, hbody⟩ := hag₁ σ hσ
      obtain ⟨hσb, hp⟩ := (hext.agrees σ).mp hσ₁
      exact ⟨hσb, bodyHolds_cons.mpr ⟨hp ▸ ht, hbody⟩⟩
    · rw [hkeys₁, hext.keys_iff, or_assoc]
      simp

/-- Completeness of the join: a substitution satisfying the body agrees with some
resulting binding. -/
theorem joinBody_complete {rel : ℕ → Predicate → List Tuple} {body : List Predicate} {i : ℕ}
    {bindings : List Binding} {b : Binding} {σ : String → String} (hb : b ∈ bindings)
    (hσ : b.Agrees σ) (hbody : BodyHolds rel i body σ) :
    ∃ c ∈ joinBody rel i body bindings, c.Agrees σ := by
  induction body generalizing i bindings b with
  | nil => exact ⟨b, hb, hσ⟩
  | cons p body ih =>
    obtain ⟨hp, hrest⟩ := bodyHolds_cons.mp hbody
    obtain ⟨c, hc, hcσ⟩ := joinLiteral_complete hb hσ hp
    exact ih hc hcσ hrest

/-- Every head variable occurs in the body. An unsafe rule derives nothing. -/
def Rule.Safe (r : Rule) : Prop := ∀ x, r.head.HasVar x → ∃ p ∈ r.body, p.HasVar x

/-- **The join, characterized**: the derived tuples are the head instances under
the substitutions that put every body literal in its relation. -/
theorem mem_deriveWith {rel : ℕ → Predicate → List Tuple} {r : Rule} {t : Tuple} :
    t ∈ deriveWith rel r ↔
      r.Safe ∧ ∃ σ, BodyHolds rel 0 r.body σ ∧ r.head.ground σ = t := by
  rw [deriveWith, List.mem_filterMap]
  constructor
  · rintro ⟨c, hc, happ⟩
    obtain ⟨b, hb, hag, hkeys, hnd⟩ := joinBody_sound hc
    obtain rfl := List.mem_singleton.mp hb
    have hσ : c.Agrees c.sigma := agrees_sigma (hnd List.nodup_nil)
    obtain ⟨hbound, hhead⟩ := (applyBinding_eq_some hσ).mp happ
    refine ⟨fun x hx => ?_, c.sigma, (hag _ hσ).2, hhead⟩
    simpa [keys] using (hkeys x).mp (hbound x hx)
  · rintro ⟨hsafe, σ, hbody, hhead⟩
    have hnil : Binding.Agrees [] σ := fun kv hkv => absurd hkv (List.not_mem_nil)
    obtain ⟨c, hc, hcσ⟩ := joinBody_complete (List.mem_singleton.mpr rfl) hnil hbody
    obtain ⟨b, hb, -, hkeys, -⟩ := joinBody_sound hc
    refine ⟨c, hc, (applyBinding_eq_some hcσ).mpr ⟨fun x hx => ?_, hhead⟩⟩
    exact (hkeys x).mpr (.inr (hsafe x hx))

end Datalog

end SynapseMemory
