import Mathlib

/-!
# Edges that supersede

The edges of a SYNX knowledge graph, each with the time it is valid for. `resolve_current` follows
the edges of the kind `Supersedes` that are valid now, at each entity the first one of the list, and
keeps the entities it has come to. It stops where no edge leads on, and where the next one leads
back.

What it has come to are different ends of edges, so it stops (`resolveFrom_ends`). It is led back
only if the edges it follows have a cycle; without one it stops where no edge leads on
(`resolveFrom_last`).
-/

namespace SynapseMemory.KnowledgeGraph

open Relation

/-- `EdgeKind` -/
inductive EdgeKind where
  | supersedes
  | references
  | contradicts
  | summarises
  | custom (label : String)
  deriving DecidableEq, Repr

/-- `Edge` -/
structure Edge where
  from_ : String
  to_ : String
  kind : EdgeKind
  validFrom : ℤ
  /-- the first second after it, or 0 if it is open-ended -/
  validTo : ℤ
  deriving DecidableEq, Repr

/-- `EdgeSet` -/
structure EdgeSet where
  edges : List Edge

namespace EdgeSet

/-- `valid_at` -/
def validAt (s : EdgeSet) (ts : ℤ) : List Edge :=
  s.edges.filter fun e => e.validFrom ≤ ts && (e.validTo == 0 || ts < e.validTo)

/-- What the first edge that is found leads to. -/
def next (s : EdgeSet) (now : ℤ) (cur : String) : Option String :=
  (s.validAt now).findSome? fun e =>
    if e.kind = .supersedes ∧ e.from_ = cur then some e.to_ else none

/-- The loop, with the entities it has come to; none if the fuel runs out. -/
def resolveFrom (s : EdgeSet) (now : ℤ) : ℕ → List String → String → Option String
  | 0, _, _ => none
  | fuel + 1, seen, cur =>
    match s.next now cur with
    | some n => if n ∈ seen then some cur else resolveFrom s now fuel (n :: seen) n
    | none => some cur

/-- `resolve_current` -/
def resolveCurrent (s : EdgeSet) (id : String) (now : ℤ) (fuel : ℕ) : Option String :=
  s.resolveFrom now fuel [id] id

/-- An edge that supersedes is valid now. -/
def Supersedes (s : EdgeSet) (now : ℤ) (a b : String) : Prop :=
  ∃ e ∈ s.validAt now, e.kind = .supersedes ∧ e.from_ = a ∧ e.to_ = b

/-- It is the edge that is followed. -/
def Follows (s : EdgeSet) (now : ℤ) (a b : String) : Prop := s.next now a = some b

/-- The edges that are followed from an entity form no cycle. -/
def Acyclic (s : EdgeSet) (now : ℤ) (id : String) : Prop :=
  ∀ a, ReflTransGen (s.Follows now) id a → ¬TransGen (s.Follows now) a a

variable {s : EdgeSet} {now : ℤ}

/-! ## One edge -/

theorem Follows.supersedes {a b : String} (h : s.Follows now a b) : s.Supersedes now a b := by
  obtain ⟨e, he, hsome⟩ := List.exists_of_findSome?_eq_some h
  obtain ⟨⟨hkind, hfrom⟩, hto⟩ := Option.ite_none_right_eq_some.mp hsome
  exact ⟨e, he, hkind, hfrom, Option.some_inj.mp hto⟩

/-- Nothing is followed where no edge leads on, whichever of them would be the first. -/
theorem next_eq_none {a : String} : s.next now a = none ↔ ∀ b, ¬s.Supersedes now a b := by
  rw [next, List.findSome?_eq_none_iff]
  constructor
  · rintro h b ⟨e, he, hkind, hfrom, -⟩
    have hnone := h e he
    rw [if_pos ⟨hkind, hfrom⟩] at hnone
    cases hnone
  · intro h e he
    exact if_neg fun hedge => h e.to_ ⟨e, he, hedge.1, hedge.2, rfl⟩

theorem Supersedes.mem {a b : String} (h : s.Supersedes now a b) : b ∈ s.edges.map Edge.to_ := by
  obtain ⟨e, he, -, -, hto⟩ := h
  exact List.mem_map.mpr ⟨e, (List.mem_filter.mp he).1, hto⟩

/-! ## The loop -/

/-- **The loop ends.** What it has come to are different ends of edges, and the start. -/
theorem resolveFrom_ends {id : String} {fuel : ℕ} {seen : List String} (hnodup : seen.Nodup)
    (hsub : seen ⊆ id :: s.edges.map Edge.to_) (hfuel : s.edges.length + 1 < fuel + seen.length)
    (cur : String) : ∃ r, s.resolveFrom now fuel seen cur = some r := by
  induction fuel generalizing seen cur with
  | zero =>
    have hle := (hnodup.subperm hsub).length_le
    rw [List.length_cons, List.length_map] at hle
    omega
  | succ fuel ih =>
    rw [resolveFrom]
    cases hnext : s.next now cur with
    | none => exact ⟨cur, rfl⟩
    | some n =>
      by_cases hseen : n ∈ seen
      · exact ⟨cur, if_pos hseen⟩
      · dsimp only
        rw [if_neg hseen]
        refine ih (List.nodup_cons.mpr ⟨hseen, hnodup⟩) (List.cons_subset.mpr ⟨?_, hsub⟩) ?_ n
        · exact List.mem_cons_of_mem id (Follows.supersedes hnext).mem
        · rw [List.length_cons]
          omega

/-- More fuel changes nothing. -/
theorem resolveFrom_mono {fuel fuel' : ℕ} {seen : List String} {cur r : String}
    (h : s.resolveFrom now fuel seen cur = some r) (hle : fuel ≤ fuel') :
    s.resolveFrom now fuel' seen cur = some r := by
  induction fuel generalizing fuel' seen cur with
  | zero => cases h
  | succ fuel ih =>
    obtain ⟨fuel', rfl⟩ := Nat.exists_eq_add_one_of_ne_zero (Nat.ne_zero_of_lt hle)
    rw [resolveFrom] at h ⊢
    split at h
    next n hnext =>
      split at h
      next hseen => exact (if_pos hseen).trans h
      next hseen => exact (if_neg hseen).trans (ih h (Nat.le_of_succ_le_succ hle))
    next => exact h

/-- What is returned can be reached. -/
theorem resolveFrom_reaches {fuel : ℕ} {seen : List String} {cur r : String}
    (h : s.resolveFrom now fuel seen cur = some r) : ReflTransGen (s.Follows now) cur r := by
  induction fuel generalizing seen cur with
  | zero => cases h
  | succ fuel ih =>
    rw [resolveFrom] at h
    split at h
    next n hnext =>
      split at h
      next => exact Option.some_inj.mp h ▸ .refl
      next => exact .head hnext (ih h)
    next => exact Option.some_inj.mp h ▸ .refl

/-- **Without a cycle it stops where no edge leads on.** All it has come to leads to where it is, so
an edge that leads back would close a cycle. -/
theorem resolveFrom_last {id : String} (hacyclic : s.Acyclic now id) {fuel : ℕ}
    {seen : List String} {cur r : String} (hcur : ReflTransGen (s.Follows now) id cur)
    (hseen : ∀ a ∈ seen, ReflTransGen (s.Follows now) a cur)
    (h : s.resolveFrom now fuel seen cur = some r) : s.next now r = none := by
  induction fuel generalizing seen cur with
  | zero => cases h
  | succ fuel ih =>
    rw [resolveFrom] at h
    split at h
    next n hnext =>
      have hn : ReflTransGen (s.Follows now) id n := hcur.tail hnext
      split at h
      next hback => exact absurd (TransGen.tail' (hseen n hback) hnext) (hacyclic n hn)
      next =>
        refine ih hn (fun a ha => ?_) h
        rcases List.mem_cons.mp ha with rfl | ha
        · exact .refl
        · exact (hseen a ha).tail hnext
    next hnone => exact Option.some_inj.mp h ▸ hnone

/-- **What an entity is superseded by.** The search always ends, at an entity that is reached along
edges that are valid. Without a cycle no edge leads on from there, so that it resolves to itself. -/
theorem resolveCurrent_terminal (s : EdgeSet) (id : String) (now : ℤ) :
    ∃ r, (∀ fuel, s.edges.length < fuel → s.resolveCurrent id now fuel = some r) ∧
      ReflTransGen (s.Supersedes now) id r ∧
      (s.Acyclic now id → (∀ b, ¬s.Supersedes now r b) ∧
        ∀ fuel, s.edges.length < fuel → s.resolveCurrent r now fuel = some r) := by
  obtain ⟨r, hr⟩ : ∃ r, s.resolveFrom now (s.edges.length + 1) [id] id = some r :=
    resolveFrom_ends (List.nodup_singleton id) (List.cons_subset.mpr ⟨List.mem_cons_self,
      List.nil_subset _⟩) (by rw [List.length_singleton]; omega) id
  refine ⟨r, fun fuel hfuel => resolveFrom_mono hr hfuel, ?_, fun hacyclic => ?_⟩
  · exact ReflTransGen.mono (fun _ _ => Follows.supersedes) _ _ (resolveFrom_reaches hr)
  · have hlast : s.next now r = none := by
      refine resolveFrom_last hacyclic .refl (fun a ha => ?_) hr
      rw [List.mem_singleton.mp ha]
    refine ⟨next_eq_none.mp hlast, fun fuel hfuel => ?_⟩
    obtain ⟨fuel, rfl⟩ := Nat.exists_eq_add_one_of_ne_zero (Nat.ne_zero_of_lt hfuel)
    rw [resolveCurrent, resolveFrom, hlast]

/-- Two versions that replace the one before, and an edge back that is not valid any more. -/
def versions : EdgeSet where
  edges := [⟨"v3", "v1", .supersedes, 0, 5⟩, ⟨"v1", "v2", .supersedes, 0, 0⟩,
    ⟨"v2", "v3", .supersedes, 1, 0⟩]

theorem versions_follows {a b : String} (h : versions.Follows 9 a b) :
    a = "v1" ∧ b = "v2" ∨ a = "v2" ∧ b = "v3" := by
  obtain ⟨e, he, -, rfl, rfl⟩ := h.supersedes
  have hvalid : versions.validAt 9 =
      [⟨"v1", "v2", .supersedes, 0, 0⟩, ⟨"v2", "v3", .supersedes, 1, 0⟩] := by decide
  rw [hvalid] at he
  rcases List.mem_pair.mp he with rfl | rfl
  · exact .inl ⟨rfl, rfl⟩
  · exact .inr ⟨rfl, rfl⟩

theorem versions_acyclic : versions.Acyclic 9 "v1" := by
  intro a _ hcycle
  -- an edge leads to the greater name
  have hlt : ∀ b c, versions.Follows 9 b c → b < c := by
    intro b c h
    rcases versions_follows h with ⟨rfl, rfl⟩ | ⟨rfl, rfl⟩ <;> decide
  have hle : TransGen (versions.Follows 9) ≤ (· < ·) := transGen_minimal hlt
  exact lt_irrefl a (hle a a hcycle)

/-- The first version resolves to the last one. -/
theorem versions_terminal :
    versions.resolveCurrent "v1" 9 4 = some "v3" ∧ (∀ b, ¬versions.Supersedes 9 "v3" b) ∧
      ∀ fuel, 3 < fuel → versions.resolveCurrent "v3" 9 fuel = some "v3" := by
  obtain ⟨r, hends, -, hlast⟩ := resolveCurrent_terminal versions "v1" 9
  have hr : versions.resolveCurrent "v1" 9 4 = some "v3" := by decide
  obtain rfl := Option.some.inj ((hends 4 (by decide)).symm.trans hr)
  exact ⟨hr, hlast versions_acyclic⟩

end EdgeSet

end SynapseMemory.KnowledgeGraph
