import SynapseMemory.GraphWalk
import SynapseMemory.Proto

/-!
# The history of the causal graph

The graph of `synapse-ultra` as its two tables: nodes by uri, and edges by their ends and relation.
An upsert inserts a row or rewrites the one that is there, and the row of an edge keeps one
timestamp, so the second upsert of an edge forgets when it was known first.

`whyAt` walks from a node to its causes, along edges whose timestamp is not after an instant. What
it returns is the layers around the node (`mem_whyAt`) in the relation `CauseAt`. It should be what
was known at the instant, whatever is upserted later; `why_at_stable_iff` says for which later
upserts it is.
-/

namespace SynapseMemory

namespace Ultra

open Proto Layers BreadthFirst

/-! ## Tables -/

/-- A row of `graph_nodes`. -/
structure GraphNode where
  uri : String
  kind : String
  title : Option String
  firstSeen : ℤ
  lastSeen : ℤ

/-- A row of `graph_edges`. -/
structure GraphEdge where
  fromUri : String
  toUri : String
  rel : String
  weight : F64
  ts : ℤ

/-- The columns of the unique constraint on edges. -/
def GraphEdge.key (e : GraphEdge) : String × String × String := (e.fromUri, e.toUri, e.rel)

theorem GraphEdge.ext_of_key {a b : GraphEdge} (hkey : a.key = b.key)
    (hweight : a.weight = b.weight) (hts : a.ts = b.ts) : a = b := by
  cases a
  cases b
  cases hkey
  cases hweight
  cases hts
  rfl

/-- The two tables of the graph. -/
structure Graph where
  nodes : List GraphNode
  edges : List GraphEdge
  /-- `PRAGMA foreign_keys` -/
  foreignKeys : Bool
  nodes_nodup : (nodes.map GraphNode.uri).Nodup
  edges_nodup : (edges.map GraphEdge.key).Nodup

namespace Graph

/-- The graph without nodes. -/
def empty : Graph where
  nodes := []
  edges := []
  foreignKeys := true
  nodes_nodup := List.nodup_nil
  edges_nodup := List.nodup_nil

/-- There is a node with this uri. -/
def HasNode (g : Graph) (uri : String) : Prop := uri ∈ g.nodes.map GraphNode.uri

instance (g : Graph) (uri : String) : Decidable (g.HasNode uri) :=
  inferInstanceAs (Decidable (uri ∈ g.nodes.map GraphNode.uri))

/-- The row of a uri. -/
def node (g : Graph) (uri : String) : Option GraphNode := g.nodes.find? fun n => n.uri = uri

/-! ## Upserts -/

/-- The update of a node that is there. -/
def seenAgain (title : Option String) (ts : ℤ) (n : GraphNode) : GraphNode :=
  { n with lastSeen := ts, title := title.orElse fun _ => n.title }

/-- `upsert_node` -/
def upsertNode (g : Graph) (uri kind : String) (title : Option String) (ts : ℤ) : Graph :=
  if h : g.HasNode uri then
    { g with
      nodes := g.nodes.map fun n => if n.uri = uri then seenAgain title ts n else n
      nodes_nodup := by
        have huris : (GraphNode.uri ∘ fun n => if n.uri = uri then seenAgain title ts n else n) =
            GraphNode.uri := by
          funext n
          rw [Function.comp, apply_ite GraphNode.uri]
          exact ite_self _
        rw [List.map_map, huris]
        exact g.nodes_nodup }
  else
    { g with
      nodes := g.nodes ++ [{ uri, kind, title, firstSeen := ts, lastSeen := ts }]
      nodes_nodup := by
        rw [List.map_append]
        refine g.nodes_nodup.append (List.nodup_singleton _) ?_
        intro u hu hnew
        rw [List.mem_singleton.mp hnew] at hu
        exact h hu }

end Graph

/-- `EdgeInput` -/
structure EdgeInput where
  fromUri : String
  toUri : String
  rel : String
  weight : F64
  ts : ℤ

/-- The primary key of the edge. -/
def EdgeInput.key (e : EdgeInput) : String × String × String := (e.fromUri, e.toUri, e.rel)

/-- A NaN is bound as NULL. -/
def isNan (x : F64) : Bool := x.extractLsb' 52 11 == 2047#11 && x.extractLsb' 0 52 != 0#52

namespace Graph

/-- There is an edge with these ends and this relation. -/
def HasEdge (g : Graph) (key : String × String × String) : Prop := key ∈ g.edges.map GraphEdge.key

instance (g : Graph) (key : String × String × String) : Decidable (g.HasEdge key) :=
  inferInstanceAs (Decidable (key ∈ g.edges.map GraphEdge.key))

/-- `upsert_edge`. A weight that is not a number is stored as NULL. -/
def upsertEdge (g : Graph) (e : EdgeInput) : Except String Graph :=
  if isNan e.weight then .error "NOT NULL constraint failed: graph_edges.weight"
  else if h : g.HasEdge e.key then
    .ok { g with
      edges := g.edges.map fun x =>
        if x.key = e.key then { x with weight := e.weight, ts := e.ts } else x
      edges_nodup := by
        have hkeys : (GraphEdge.key ∘ fun x =>
            if x.key = e.key then { x with weight := e.weight, ts := e.ts } else x) =
              GraphEdge.key := by
          funext x
          rw [Function.comp, apply_ite GraphEdge.key]
          exact ite_self _
        rw [List.map_map, hkeys]
        exact g.edges_nodup }
  else if g.foreignKeys ∧ ¬(g.HasNode e.fromUri ∧ g.HasNode e.toUri) then
    .error "FOREIGN KEY constraint failed"
  else
    .ok { g with
      edges := g.edges ++ [{ fromUri := e.fromUri, toUri := e.toUri, rel := e.rel,
                             weight := e.weight, ts := e.ts }]
      edges_nodup := by
        rw [List.map_append]
        refine g.edges_nodup.append (List.nodup_singleton _) ?_
        intro k hk hnew
        rw [List.mem_singleton.mp hnew] at hk
        exact h hk }

/-! ## The walk to the causes -/

end Graph

/-- One row of the causes of a step. -/
def Walk.visit (step : WhyStep) (w : Walk) (row : String × String) : Walk :=
  if row.1 ∈ w.visited then w
  else
    let new : WhyStep :=
      { uri := row.1, kind := row.2, depth := step.depth + 1, path := step.path ++ " <- " ++ row.1 }
    { visited := row.1 :: w.visited, out := w.out ++ [new], next := w.next ++ [new] }

/-- The relations that the walk follows. -/
def causalRels : List String := ["caused", "derived_from", "depends_on"]

namespace Graph

/-- The query for the causes of a uri. -/
def causes (g : Graph) (at_ : ℤ) (uri : String) : List (String × String) :=
  let edges := g.edges.filter fun e => e.toUri = uri ∧ e.rel ∈ causalRels ∧ e.ts ≤ at_
  let rows := edges.filterMap fun e => (g.node e.fromUri).map fun n => (e.fromUri, n.kind)
  rows.mergeSort fun a b => a.1 ≤ b.1

/-- The rows of one step of the frontier. -/
def expand (g : Graph) (maxDepth at_ : ℤ) (w : Walk) (step : WhyStep) : Walk :=
  if maxDepth - 1 ≤ step.depth then w else (g.causes at_ step.uri).foldl (Walk.visit step) w

/-- The loop of the walk: `fuel` bounds the number of its turns. -/
def walk (g : Graph) (maxDepth at_ : ℤ) :
    (fuel : ℕ) → (visited : List String) → (out frontier : List WhyStep) → List WhyStep
  | 0, _, out, _ => out
  | fuel + 1, visited, out, frontier =>
    if frontier.isEmpty then out
    else
      let w := frontier.foldl (g.expand maxDepth at_) { visited, out, next := [] }
      g.walk maxDepth at_ fuel w.visited w.out w.next

/-- `why_at` -/
def whyAt (g : Graph) (uri : String) (maxDepth at_ : ℤ) : List WhyStep :=
  if maxDepth ≤ 0 then []
  else
    match g.node uri with
    | none => []
    | some n =>
      let anchor : WhyStep := { uri := n.uri, kind := n.kind, depth := 0, path := n.uri }
      -- a turn goes one step deeper, and nothing is found from `maxDepth - 1` on
      (g.walk maxDepth at_ maxDepth.toNat [n.uri] [anchor] [anchor]).mergeSort WhyStep.le

/-! ## What the walk finds -/

/-- An edge that was known at an instant. -/
def Known (g : Graph) (at_ : ℤ) (key : String × String × String) : Prop :=
  ∃ e ∈ g.edges, e.key = key ∧ e.ts ≤ at_

/-- One step of the walk: `v` is a cause of `u` that was known at the instant. -/
def CauseAt (g : Graph) (at_ : ℤ) (u v : String) : Prop :=
  g.HasNode v ∧ ∃ rel ∈ causalRels, g.Known at_ (v, u, rel)

theorem node_eq_some {g : Graph} {uri : String} {n : GraphNode} (h : g.node uri = some n) :
    g.HasNode uri ∧ n.uri = uri := by
  rw [node] at h
  have huri := List.find?_some h
  rw [decide_eq_true_eq] at huri
  exact ⟨List.mem_map.mpr ⟨n, List.mem_of_find?_eq_some h, huri⟩, huri⟩

theorem exists_node {g : Graph} {uri : String} (h : g.HasNode uri) : ∃ n, g.node uri = some n := by
  obtain ⟨n, hn, huri⟩ := List.mem_map.mp h
  exact Option.isSome_iff_exists.mp (List.find?_isSome.mpr ⟨n, hn, decide_eq_true huri⟩)

/-- The causes of a node at a time. -/
theorem mem_causes {g : Graph} {at_ : ℤ} {u v : String} :
    v ∈ (g.causes at_ u).map Prod.fst ↔ g.CauseAt at_ u v := by
  rw [causes, ((List.mergeSort_perm _ _).map Prod.fst).mem_iff, List.mem_map]
  refine ⟨?_, ?_⟩
  · rintro ⟨row, hrow, rfl⟩
    obtain ⟨e, he, heq⟩ := List.mem_filterMap.mp hrow
    obtain ⟨n, hn, rfl⟩ := Option.map_eq_some_iff.mp heq
    obtain ⟨hmem, hcond⟩ := List.mem_filter.mp he
    obtain ⟨hto, hrel, hts⟩ := of_decide_eq_true hcond
    exact ⟨(node_eq_some hn).1, e.rel, hrel, e, hmem, by rw [GraphEdge.key, hto], hts⟩
  · rintro ⟨hnode, rel, hrel, e, hmem, hkey, hts⟩
    obtain ⟨hfrom, hto, rfl⟩ : e.fromUri = v ∧ e.toUri = u ∧ e.rel = rel := by
      simpa [GraphEdge.key] using hkey
    obtain ⟨n, hn⟩ := exists_node hnode
    refine ⟨(v, n.kind), List.mem_filterMap.mpr ⟨e, ?_, ?_⟩, rfl⟩
    · exact List.mem_filter.mpr ⟨hmem, decide_eq_true ⟨hto, hrel, hts⟩⟩
    · rw [hfrom, hn]
      rfl

end Graph

namespace Graph

/-- The traversal of `why_at`. -/
def knownCauses (g : Graph) (at_ : ℤ) : Traversal where
  rows := g.causes at_
  arrow := " <- "

/-- The row of the start. -/
def anchor (g : Graph) (uri : String) : Option (String × String) :=
  (g.node uri).map fun n => (n.uri, n.kind)

/-- The walk ends as the loop of the known causes does. -/
theorem walk_eq {g : Graph} {maxDepth at_ : ℤ} {fuel : ℕ} {visited : List String}
    {out frontier out' : List WhyStep}
    (h : (g.knownCauses at_).loop maxDepth fuel visited out frontier = some out') :
    g.walk maxDepth at_ fuel visited out frontier = out' := by
  induction fuel generalizing visited out frontier with
  | zero =>
    rw [Traversal.loop, Option.ite_none_right_eq_some, Option.some_inj] at h
    exact h.2
  | succ fuel ih =>
    rw [walk]
    rw [Traversal.loop] at h
    split
    next hempty =>
      rw [if_pos hempty] at h
      exact Option.some.inj h
    next hmore =>
      rw [if_neg hmore] at h
      exact ih h

theorem follows_knownCauses (g : Graph) (at_ : ℤ) :
    (g.knownCauses at_).Follows (g.CauseAt at_) :=
  fun _ _ => mem_causes

/-- The walk begins with the node, if it is there. -/
theorem anchor_eq {g : Graph} {uri : String} :
    (g.anchor uri = none ∧ ¬g.HasNode uri) ∨
      ∃ kind, g.anchor uri = some (uri, kind) ∧ g.HasNode uri := by
  cases hnode : g.node uri with
  | none =>
    refine .inl ⟨by rw [anchor, hnode, Option.map_none], fun hmem => ?_⟩
    obtain ⟨n, hn⟩ := exists_node hmem
    rw [hnode] at hn
    cases hn
  | some n =>
    obtain ⟨hmem, rfl⟩ := node_eq_some hnode
    exact .inr ⟨n.kind, by rw [anchor, hnode, Option.map_some], hmem⟩

/-- `whyAt` is the walk with a turn for each depth, and it ends. -/
theorem run_knownCauses (g : Graph) (uri : String) {maxDepth : ℤ} (at_ : ℤ) {fuel : ℕ}
    (hfuel : maxDepth ≤ fuel) :
    (g.knownCauses at_).run maxDepth fuel (g.anchor uri) = some (g.whyAt uri maxDepth at_) := by
  cases hnode : g.node uri with
  | none => simp [Traversal.run, whyAt, anchor, hnode]
  | some n =>
    rw [anchor, hnode, Option.map_some, Traversal.run, whyAt, hnode]
    by_cases hdepth : maxDepth ≤ 0
    · rw [if_pos hdepth, if_pos hdepth]
    · obtain ⟨out, hrun, -⟩ := Traversal.run_exact (g.follows_knownCauses at_)
        (Int.self_le_toNat maxDepth) n.uri n.kind
      rw [Traversal.run, if_neg hdepth] at hrun
      obtain ⟨out', hloop, -⟩ := Option.map_eq_some_iff.mp hrun
      rw [if_neg hdepth, if_neg hdepth]
      simp only [Traversal.loop_mono hloop (Int.toNat_le.mpr hfuel), walk_eq hloop,
        Option.map_some]

/-- **What `why_at` finds.** -/
theorem mem_whyAt {g : Graph} {maxDepth at_ : ℤ} {target u : String} {d : ℤ} :
    (u, d) ∈ depths (g.whyAt target maxDepth at_) ↔ g.HasNode target ∧
      ∃ j : ℕ, (j : ℤ) < maxDepth ∧ d = j ∧ Layer (g.CauseAt at_) target j u := by
  simp only [← distance_iff_layer]
  have hrun := g.run_knownCauses target at_ (Int.self_le_toNat maxDepth)
  rcases g.anchor_eq with ⟨hanchor, hnone⟩ | ⟨kind, hanchor, hmem⟩
  · have hempty : g.whyAt target maxDepth at_ = [] := by
      rw [hanchor, Traversal.run_none] at hrun
      exact (Option.some.inj hrun).symm
    rw [hempty]
    exact iff_of_false List.not_mem_nil fun h => hnone h.1
  · rw [hanchor] at hrun
    obtain ⟨out, hout, hexact⟩ := Traversal.run_exact (g.follows_knownCauses at_)
      (Int.self_le_toNat maxDepth) target kind
    rw [and_iff_right hmem, ← hexact.mem_iff, Option.some.inj (hrun.symm.trans hout)]

end Graph

/-! ## Later upserts -/

/-- A write to the graph. -/
inductive Upsert where
  | node (uri kind : String) (title : Option String) (ts : ℤ)
  | edge (e : EdgeInput)

/-- The time that the write carries. -/
def Upsert.ts : Upsert → ℤ
  | .node _ _ _ ts => ts
  | .edge e => e.ts

/-- The upsert is of a node with this uri. -/
def Upsert.IsNode (uri : String) : Upsert → Prop
  | .node uri' _ _ _ => uri' = uri
  | .edge _ => False

/-- The upsert rewrites the edge with this key, if there is one. -/
def Upsert.Rewrites (key : String × String × String) : Upsert → Prop
  | .node _ _ _ _ => False
  | .edge e => isNan e.weight = false ∧ e.key = key

namespace Graph

/-- The graph after an upsert: one that fails leaves it as it was. -/
def apply (g : Graph) : Upsert → Graph
  | .node uri kind title ts => g.upsertNode uri kind title ts
  | .edge e =>
    match g.upsertEdge e with
    | .ok g' => g'
    | .error _ => g

/-- The nodes after one was written. -/
theorem hasNode_upsertNode {g : Graph} {uri kind : String} {title : Option String} {ts : ℤ}
    {v : String} : (g.upsertNode uri kind title ts).HasNode v ↔ g.HasNode v ∨ uri = v := by
  rw [upsertNode]
  split
  next h =>
    have huris : ((g.nodes.map fun n => if n.uri = uri then seenAgain title ts n else n).map
        GraphNode.uri) = g.nodes.map GraphNode.uri := by
      rw [List.map_map]
      apply List.map_congr_left
      intro n _
      rw [Function.comp, apply_ite GraphNode.uri]
      exact ite_self _
    rw [HasNode, huris]
    refine ⟨.inl, ?_⟩
    rintro (hv | rfl)
    · exact hv
    · exact h
  next h =>
    rw [HasNode, List.map_append, List.mem_append]
    exact or_congr Iff.rfl (by rw [List.map_singleton, List.mem_singleton, eq_comm])

theorem upsertNode_edges {g : Graph} {uri kind : String} {title : Option String} {ts : ℤ} :
    (g.upsertNode uri kind title ts).edges = g.edges := by
  rw [upsertNode]
  split
  · rfl
  · rfl

/-- What an upsert that went through did: the row of its key is the one it brought. -/
theorem upsertEdge_ok {g g' : Graph} {e : EdgeInput} (h : g.upsertEdge e = .ok g') :
    g'.nodes = g.nodes ∧ isNan e.weight = false ∧ ∀ x, x ∈ g'.edges ↔
      (x ∈ g.edges ∧ x.key ≠ e.key) ∨ (x.key = e.key ∧ x.weight = e.weight ∧ x.ts = e.ts) := by
  rw [upsertEdge] at h
  split at h
  next => cases h
  next hnan =>
    split at h
    next hkey =>
      cases h
      refine ⟨rfl, eq_false_of_ne_true hnan, fun x => ?_⟩
      rw [List.mem_map]
      refine ⟨?_, ?_⟩
      · rintro ⟨y, hy, rfl⟩
        by_cases hyk : y.key = e.key
        · rw [if_pos hyk]
          exact .inr ⟨hyk, rfl, rfl⟩
        · rw [if_neg hyk]
          exact .inl ⟨hy, hyk⟩
      · rintro (⟨hx, hne⟩ | ⟨heq, hweight, hts⟩)
        · exact ⟨x, hx, if_neg hne⟩
        · obtain ⟨y, hy, hyk⟩ := List.mem_map.mp hkey
          exact ⟨y, hy, (if_pos hyk).trans (GraphEdge.ext_of_key (hyk.trans heq.symm)
            hweight.symm hts.symm)⟩
    next hkey =>
      split at h
      next => cases h
      next =>
        cases h
        refine ⟨rfl, eq_false_of_ne_true hnan, fun x => ?_⟩
        rw [List.mem_append, List.mem_singleton]
        refine or_congr ?_ ?_
        · refine (and_iff_left_of_imp fun hx heq => hkey ?_).symm
          exact heq ▸ List.mem_map_of_mem hx
        · refine ⟨?_, fun ⟨heq, hweight, hts⟩ => GraphEdge.ext_of_key heq hweight hts⟩
          rintro rfl
          exact ⟨rfl, rfl, rfl⟩

/-- An upsert that fails would have rewritten nothing. -/
theorem upsertEdge_error {g : Graph} {e : EdgeInput} {message : String}
    (h : g.upsertEdge e = .error message) : isNan e.weight = true ∨ ¬g.HasEdge e.key := by
  rw [upsertEdge] at h
  split at h
  next hnan => exact .inl hnan
  next =>
    split at h
    next => cases h
    next hkey => exact .inr hkey

/-- The nodes after a write. -/
theorem hasNode_apply {g : Graph} {up : Upsert} {v : String} :
    (g.apply up).HasNode v ↔ g.HasNode v ∨ up.IsNode v := by
  cases up with
  | node uri kind title ts => exact hasNode_upsertNode
  | edge e =>
    rw [apply]
    refine Iff.trans ?_ (or_iff_left not_false).symm
    cases h : g.upsertEdge e with
    | ok g' => rw [HasNode, HasNode, (upsertEdge_ok h).1]
    | error message => exact Iff.rfl

/-- A later upsert takes from what was known the edge that it rewrites, and nothing else. -/
theorem known_apply {g : Graph} {at_ : ℤ} {up : Upsert} (hlater : at_ < up.ts)
    {key : String × String × String} :
    (g.apply up).Known at_ key ↔ g.Known at_ key ∧ ¬up.Rewrites key := by
  cases up with
  | node uri kind title ts =>
    rw [Known, apply, upsertNode_edges]
    exact (and_iff_left not_false).symm
  | edge e =>
    change at_ < e.ts at hlater
    rw [apply]
    cases h : g.upsertEdge e with
    | ok g' =>
      obtain ⟨-, hnan, hedges⟩ := upsertEdge_ok h
      have hrewrites : (Upsert.edge e).Rewrites key ↔ e.key = key := and_iff_right hnan
      rw [hrewrites]
      refine ⟨?_, ?_⟩
      · rintro ⟨x, hx, rfl, hts⟩
        rcases (hedges x).mp hx with ⟨hold, hne⟩ | ⟨-, -, hnew⟩
        · exact ⟨⟨x, hold, rfl, hts⟩, Ne.symm hne⟩
        · omega
      · rintro ⟨⟨x, hx, rfl, hts⟩, hne⟩
        exact ⟨x, (hedges x).mpr (.inl ⟨hx, Ne.symm hne⟩), rfl, hts⟩
    | error message =>
      refine (and_iff_left_of_imp ?_).symm
      rintro ⟨x, hx, hkey, -⟩ ⟨hnan, heq⟩
      rcases upsertEdge_error h with hnan' | hnone
      · rw [hnan] at hnan'
        cases hnan'
      · exact hnone (List.mem_map.mpr ⟨x, hx, hkey.trans heq.symm⟩)

theorem hasNode_run {g : Graph} {ups : List Upsert} {v : String} :
    (ups.foldl apply g).HasNode v ↔ g.HasNode v ∨ ∃ up ∈ ups, up.IsNode v := by
  induction ups generalizing g with
  | nil => simp
  | cons up rest ih =>
    rw [List.foldl_cons, ih, hasNode_apply, or_assoc]
    simp

/-- What was known then is known after later writes, unless they rewrote it. -/
theorem known_run {g : Graph} {at_ : ℤ} {ups : List Upsert} (hlater : ∀ up ∈ ups, at_ < up.ts)
    {key : String × String × String} :
    (ups.foldl apply g).Known at_ key ↔ g.Known at_ key ∧ ∀ up ∈ ups, ¬up.Rewrites key := by
  induction ups generalizing g with
  | nil => simp
  | cons up rest ih =>
    obtain ⟨hup, hrest⟩ := List.forall_mem_cons.mp hlater
    rw [List.foldl_cons, ih hrest, known_apply hup, List.forall_mem_cons, and_assoc]

/-- The causes of each stored node stay as they were known: no node is new, and of the edges between
two nodes by which one was known as a cause of the other, one is not rewritten. -/
structure KeepsHistory (g : Graph) (at_ : ℤ) (ups : List Upsert) : Prop where
  no_new_node : ∀ up ∈ ups, ∀ uri, up.IsNode uri → g.HasNode uri
  keeps_edge : ∀ cause effect, g.HasNode cause → g.HasNode effect → cause ≠ effect →
    (∃ rel ∈ causalRels, g.Known at_ (cause, effect, rel)) →
      ∃ rel ∈ causalRels, g.Known at_ (cause, effect, rel) ∧
        ∀ up ∈ ups, ¬up.Rewrites (cause, effect, rel)

/-- What was known at an instant stays as it is under later upserts if and only if they keep the
history. -/
theorem why_at_stable_iff (g : Graph) (at_ : ℤ) (ups : List Upsert)
    (hlater : ∀ up ∈ ups, at_ < up.ts) :
    (∀ target maxDepth u d, (u, d) ∈ depths ((ups.foldl apply g).whyAt target maxDepth at_) ↔
      (u, d) ∈ depths (g.whyAt target maxDepth at_)) ↔ g.KeepsHistory at_ ups := by
  simp only [mem_whyAt]
  refine ⟨fun h => ⟨?_, ?_⟩, fun h => ?_⟩
  · intro up hup uri hnode
    have hafter : (ups.foldl apply g).HasNode uri := hasNode_run.mpr (.inr ⟨up, hup, hnode⟩)
    exact ((h uri 1 uri 0).mp ⟨hafter, 0, by decide, rfl, layer_zero.mpr rfl⟩).1
  · intro cause effect hcause heffect hne hknown
    have hlayer : Layer (g.CauseAt at_) effect 1 cause := layer_one.mpr ⟨hne, hcause, hknown⟩
    obtain ⟨-, j, -, hj, hafter⟩ :=
      (h effect 2 cause 1).mpr ⟨heffect, 1, by decide, rfl, hlayer⟩
    obtain rfl : j = 1 := by omega
    obtain ⟨-, -, rel, hrel, hstill⟩ := layer_one.mp hafter
    exact ⟨rel, hrel, (known_run hlater).mp hstill⟩
  · have hnodes : ∀ v, (ups.foldl apply g).HasNode v ↔ g.HasNode v := by
      intro v
      refine ⟨fun hv => ?_, fun hv => hasNode_run.mpr (.inl hv)⟩
      rcases hasNode_run.mp hv with hold | ⟨up, hup, hnode⟩
      · exact hold
      · exact h.no_new_node up hup v hnode
    have hcauses : ∀ u v, g.HasNode u → v ≠ u →
        (g.CauseAt at_ u v ↔ (ups.foldl apply g).CauseAt at_ u v) := by
      intro u v hu hne
      refine ⟨?_, ?_⟩
      · rintro ⟨hv, hknown⟩
        obtain ⟨rel, hrel, hstill⟩ := h.keeps_edge v u hv hu hne hknown
        exact ⟨(hnodes v).mpr hv, rel, hrel, (known_run hlater).mpr hstill⟩
      · rintro ⟨hv, rel, hrel, hknown⟩
        exact ⟨(hnodes v).mp hv, rel, hrel, ((known_run hlater).mp hknown).1⟩
    intro target maxDepth u d
    rw [hnodes]
    refine and_congr_right fun htarget => exists_congr fun j => ?_
    have hlayer : Layer (g.CauseAt at_) target j u ↔
        Layer ((ups.foldl apply g).CauseAt at_) target j u :=
      layer_congr htarget (fun _ _ _ hstep => hstep.1) hcauses
    rw [hlayer]

end Graph

/-- An edge of weight one. -/
def edgeAt (fromUri toUri rel : String) (ts : ℤ) : Upsert :=
  .edge { fromUri, toUri, rel, weight := 0x3FF0000000000000#64, ts }

/-- Two nodes, and one of them the cause of the other since the instant 1. -/
def causeAndEffect : Graph :=
  [.node "a" "decision" none 1, .node "b" "decision" none 1,
    edgeAt "a" "b" "caused" 1].foldl Graph.apply Graph.empty

/-- A later edge of another relation changes nothing about the instant. -/
theorem related_later_stable : (∀ up ∈ [edgeAt "a" "b" "related" 5], 1 < up.ts) ∧
    ∀ target maxDepth u d,
      (u, d) ∈ depths (([edgeAt "a" "b" "related" 5].foldl Graph.apply causeAndEffect).whyAt
        target maxDepth 1) ↔ (u, d) ∈ depths (causeAndEffect.whyAt target maxDepth 1) := by
  have hlater : ∀ up ∈ [edgeAt "a" "b" "related" 5], 1 < up.ts := by
    intro up hup
    rw [List.mem_singleton.mp hup]
    decide
  refine ⟨hlater, (Graph.why_at_stable_iff causeAndEffect 1 _ hlater).mpr ⟨?_, ?_⟩⟩
  · intro up hup uri hnode
    rw [List.mem_singleton.mp hup] at hnode
    exact hnode.elim
  · rintro cause effect - - - ⟨rel, hrel, hknown⟩
    refine ⟨rel, hrel, hknown, ?_⟩
    rintro up hup hrewrites
    rw [List.mem_singleton.mp hup] at hrewrites
    obtain ⟨-, hkey⟩ := hrewrites
    cases hkey
    revert hrel
    decide

/-- When the same edge comes again, later, it is no longer known that it was there at the
instant. -/
theorem edge_again_forgets : (∀ up ∈ [edgeAt "a" "b" "caused" 5], 1 < up.ts) ∧
    ("a", 1) ∈ depths (causeAndEffect.whyAt "b" 2 1) ∧
    ("a", 1) ∉ depths (([edgeAt "a" "b" "caused" 5].foldl Graph.apply causeAndEffect).whyAt
      "b" 2 1) := by
  refine ⟨?_, ?_, ?_⟩
  · intro up hup
    rw [List.mem_singleton.mp hup]
    decide
  · have hcause : causeAndEffect.CauseAt 1 "b" "a" :=
      ⟨by decide, "caused", by decide, _, List.mem_singleton.mpr rfl, rfl, le_refl 1⟩
    exact Graph.mem_whyAt.mpr ⟨by decide, 1, by decide, rfl, layer_one.mpr ⟨by decide, hcause⟩⟩
  · decide +kernel

end Ultra

end SynapseMemory
