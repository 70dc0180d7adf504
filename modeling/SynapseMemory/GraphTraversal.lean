import SynapseMemory.GraphHistory

/-!
# What caused a node, and what it leads to

`why` walks to the causes of a node whatever their timestamps, and `graphExpand` along all edges the
other way. Both are walks like that of `whyAt`, with a query of their own, so they find the nodes
that are less than `maxDepth` steps away (`mem_causesEver`, `mem_effects` say along what).

Where all edges were known, the queries of `why` and `whyAt` have the same rows. With the instant
the known edges become more, and a way along known edges stays one (`whyAt_mono`).
-/

namespace SynapseMemory

namespace Ultra

open Layers BreadthFirst

namespace Graph

/-- The rows of a join of edges with the nodes at one end. -/
def joined (g : Graph) (edges : List GraphEdge) (farEnd : GraphEdge → String) :
    List (String × String) :=
  let rows := edges.filterMap fun e => (g.node (farEnd e)).map fun n => (farEnd e, n.kind)
  rows.mergeSort fun a b => a.1 ≤ b.1

/-- The traversal of `why`. -/
def causesEver (g : Graph) : Traversal where
  rows uri :=
    g.joined (g.edges.filter fun e => e.toUri = uri ∧ e.rel ∈ causalRels) GraphEdge.fromUri
  arrow := " <- "

/-- The traversal of `graph_expand`. -/
def effects (g : Graph) : Traversal where
  rows uri := g.joined (g.edges.filter fun e => e.fromUri = uri) GraphEdge.toUri
  arrow := " -> "

/-- `why` -/
def why (g : Graph) (fuel : ℕ) (uri : String) (maxDepth : ℤ) : Option (List WhyStep) :=
  g.causesEver.run maxDepth fuel (g.anchor uri)

/-- `graph_expand` -/
def graphExpand (g : Graph) (fuel : ℕ) (uri : String) (maxDepth : ℤ) : Option (List WhyStep) :=
  g.effects.run maxDepth fuel (g.anchor uri)

/-! ## Along which edges -/

/-- `v` is a cause of `u`. -/
def Cause (g : Graph) (u v : String) : Prop :=
  g.HasNode v ∧ ∃ e ∈ g.edges, e.toUri = u ∧ e.rel ∈ causalRels ∧ e.fromUri = v

/-- There is an edge from `u` to `v`. -/
def LeadsTo (g : Graph) (u v : String) : Prop :=
  g.HasNode v ∧ ∃ e ∈ g.edges, e.fromUri = u ∧ e.toUri = v

/-- The far ends of some edges, as far as they are nodes. -/
theorem mem_joined {g : Graph} {edges : List GraphEdge} {farEnd : GraphEdge → String}
    {v : String} : v ∈ (g.joined edges farEnd).map Prod.fst ↔
      g.HasNode v ∧ ∃ e ∈ edges, farEnd e = v := by
  rw [joined, ((List.mergeSort_perm _ _).map Prod.fst).mem_iff, List.mem_map]
  constructor
  · rintro ⟨row, hrow, rfl⟩
    obtain ⟨e, he, heq⟩ := List.mem_filterMap.mp hrow
    obtain ⟨n, hn, rfl⟩ := Option.map_eq_some_iff.mp heq
    exact ⟨(node_eq_some hn).1, e, he, rfl⟩
  · rintro ⟨hnode, e, he, rfl⟩
    obtain ⟨n, hn⟩ := exists_node hnode
    exact ⟨(farEnd e, n.kind), List.mem_filterMap.mpr ⟨e, he, by rw [hn]; rfl⟩, rfl⟩

theorem follows_causesEver (g : Graph) : g.causesEver.Follows g.Cause := by
  intro u v
  rw [causesEver, mem_joined, Cause]
  simp [and_assoc]

theorem follows_effects (g : Graph) : g.effects.Follows g.LeadsTo := by
  intro u v
  rw [effects, mem_joined, LeadsTo]
  simp [and_assoc]

/-- What a traversal returns in the end: for a node, what is less than `maxDepth` steps away, and
nothing for what is none. -/
def Returns (g : Graph) (R : String → String → Prop) (uri : String) (maxDepth : ℤ)
    (traverse : ℕ → Option (List WhyStep)) : Prop :=
  ∃ out, (∀ fuel : ℕ, maxDepth ≤ fuel → traverse fuel = some out) ∧
    (g.HasNode uri → Exact R uri maxDepth out) ∧ (¬g.HasNode uri → out = [])

/-- A traversal returns what it reaches, from some fuel on. -/
theorem returns_run (g : Graph) {t : Traversal} {R : String → String → Prop} (ht : t.Follows R)
    (uri : String) (maxDepth : ℤ) :
    g.Returns R uri maxDepth fun fuel => t.run maxDepth fuel (g.anchor uri) := by
  rcases g.anchor_eq with ⟨hanchor, hnone⟩ | ⟨kind, hanchor, hmem⟩
  · rw [hanchor]
    exact ⟨[], fun fuel _ => t.run_none maxDepth fuel, fun hmem => absurd hmem hnone, fun _ => rfl⟩
  · rw [hanchor]
    obtain ⟨out, hrun, hexact⟩ := Traversal.run_exact ht (Int.self_le_toNat maxDepth) uri kind
    refine ⟨out, fun fuel hfuel => ?_, fun _ => hexact, fun hnone => absurd hmem hnone⟩
    exact Traversal.run_mono hrun (Int.toNat_le.mpr hfuel)

/-! ## Instants -/

/-- Where all edges were known, their timestamps do not matter. -/
theorem causes_eq {g : Graph} {at_ : ℤ} (hknown : ∀ e ∈ g.edges, e.ts ≤ at_) (uri : String) :
    g.causes at_ uri = g.causesEver.rows uri := by
  have hedges : (g.edges.filter fun e => e.toUri = uri ∧ e.rel ∈ causalRels ∧ e.ts ≤ at_) =
      g.edges.filter fun e => e.toUri = uri ∧ e.rel ∈ causalRels := by
    refine List.filter_congr fun e he => ?_
    simp [hknown e he]
  rw [causes, hedges]
  rfl

theorem causeAt_mono {g : Graph} {at_ at' : ℤ} (hle : at_ ≤ at') {u v : String}
    (h : g.CauseAt at_ u v) : g.CauseAt at' u v := by
  obtain ⟨hnode, rel, hrel, e, he, hkey, hts⟩ := h
  exact ⟨hnode, rel, hrel, e, he, hkey, hts.trans hle⟩

/-- What was known stays known. -/
theorem whyAt_mono {g : Graph} {at_ at' : ℤ} (hle : at_ ≤ at') {target u : String} {maxDepth : ℤ}
    (h : u ∈ (g.whyAt target maxDepth at_).map WhyStep.uri) :
    u ∈ (g.whyAt target maxDepth at').map WhyStep.uri := by
  rw [← map_fst_depths] at h ⊢
  obtain ⟨⟨u, d⟩, hmem, rfl⟩ := List.mem_map.mp h
  obtain ⟨hnode, j, hj, rfl, hlayer⟩ := mem_whyAt.mp hmem
  have hreach := (distance_iff_layer.mpr hlayer).1.mono fun _ _ => causeAt_mono hle
  obtain ⟨m, hm, hdist⟩ := hreach.exists_distance
  refine List.mem_map.mpr ⟨(u, (m : ℤ)), mem_whyAt.mpr ⟨hnode, m, ?_, rfl, ?_⟩, rfl⟩
  · omega
  · exact distance_iff_layer.mp hdist

/-- **Causal traversal is exact.** -/
theorem causal_traversals_exact (g : Graph) (target : String) (maxDepth : ℤ) :
    (g.Returns g.Cause target maxDepth fun fuel => g.why fuel target maxDepth) ∧
    (g.Returns g.LeadsTo target maxDepth fun fuel => g.graphExpand fuel target maxDepth) ∧
    (∀ at_, (∀ e ∈ g.edges, e.ts ≤ at_) → ∀ fuel : ℕ, maxDepth ≤ fuel →
      g.why fuel target maxDepth = some (g.whyAt target maxDepth at_)) ∧
    ∀ at_ at', at_ ≤ at' → ∀ u ∈ (g.whyAt target maxDepth at_).map WhyStep.uri,
      u ∈ (g.whyAt target maxDepth at').map WhyStep.uri := by
  refine ⟨g.returns_run g.follows_causesEver target maxDepth,
    g.returns_run g.follows_effects target maxDepth, fun at_ hknown fuel hfuel => ?_,
    fun at_ at' hle u hu => whyAt_mono hle hu⟩
  have hsame : g.causesEver = g.knownCauses at_ := by
    rw [knownCauses, funext (causes_eq hknown)]
    rfl
  rw [why, hsame, g.run_knownCauses target at_ hfuel]

end Graph

end Ultra

end SynapseMemory
