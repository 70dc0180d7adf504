import Mathlib

/-!
# The edge table

The model of the table `edges` of `synapse-graph`, with `relate` and `neighbors`. A key is a node, a
node and a relation, so two nodes may have several edges. Weights are numbers of an ordered field.

Where a query asks for an order it gets that order, and rows of one weight come in any order
(`ByWeight`). A limit is a signed integer of 64 bits, and a negative one is no limit.
-/

namespace SynapseMemory

namespace Edges

/-- A row of the table `edges`. The weight is in a type that the caller chooses. -/
structure Edge (F : Type) where
  fromId : ℤ
  toId : ℤ
  rel : String
  weight : F
  props : Option String

/-- The primary key of `edges`. -/
def Edge.key {F : Type} (e : Edge F) : ℤ × ℤ × String := (e.fromId, e.toId, e.rel)

/-- The table `edges`, with at most one row for a key. -/
structure EdgeTable (F : Type) where
  rows : List (Edge F)
  keys_nodup : (rows.map Edge.key).Nodup

/-- A row of `neighbors`. -/
structure Neighbor (F : Type) where
  toId : ℤ
  weight : F
  rel : String

/-- `ORDER BY weight DESC` -/
structure ByWeight (F : Type) [LinearOrder F] where
  order : List (Edge F) → List (Edge F)
  perm : ∀ l, (order l).Perm l
  sorted : ∀ l, (order l).Pairwise fun a b => b.weight ≤ a.weight

namespace EdgeTable

variable {F : Type}

/-- `relate`: the row of the same key is replaced. -/
def relate (t : EdgeTable F) (fromId toId : ℤ) (rel : String) (weight : F)
    (props : Option String) : EdgeTable F where
  rows := t.rows.filter (fun e => e.key ≠ (fromId, toId, rel)) ++
    [⟨fromId, toId, rel, weight, props⟩]
  keys_nodup := by
    rw [List.map_append, List.nodup_append]
    refine ⟨t.keys_nodup.sublist (List.filter_sublist.map _), List.nodup_singleton _, ?_⟩
    rintro a ha b hb rfl
    obtain ⟨e, he, rfl⟩ := List.mem_map.mp ha
    exact of_decide_eq_true (List.mem_filter.mp he).2 (List.mem_singleton.mp hb)

/-- The edges of a node, of one relation if there is a filter. -/
def outEdges (t : EdgeTable F) (nodeId : ℤ) (rel : Option String) : List (Edge F) :=
  t.rows.filter fun e => e.fromId == nodeId && rel.all (· == e.rel)

/-- There is an edge from `u` to `v`. -/
def Leads (t : EdgeTable F) (rel : Option String) (u v : ℤ) : Prop :=
  ∃ e ∈ t.outEdges u rel, e.toId = v

/-- `LIMIT top_k as i64` -/
def limit {α : Type} (topK : ℕ) (rows : List α) : List α :=
  if topK < 2 ^ 63 then rows.take topK else rows

/-- `neighbors` -/
def neighbors [LinearOrder F] (t : EdgeTable F) (sort : ByWeight F) (nodeId : ℤ)
    (rel : Option String) (topK : ℕ) : List (Neighbor F) :=
  (limit topK (sort.order (t.outEdges nodeId rel))).map fun e => ⟨e.toId, e.weight, e.rel⟩

theorem limit_of_length_le {α : Type} {topK : ℕ} {rows : List α} (h : rows.length ≤ topK) :
    limit topK rows = rows := by
  rw [limit, List.take_of_length_le h, ite_self]

/-- Where the limit cuts nothing off, the neighbors are what a node leads to. -/
theorem mem_neighbors [LinearOrder F] {t : EdgeTable F} {sort : ByWeight F} {u v : ℤ}
    {rel : Option String} {topK : ℕ} (h : (t.outEdges u rel).length ≤ topK) :
    v ∈ (t.neighbors sort u rel topK).map Neighbor.toId ↔ t.Leads rel u v := by
  have hperm := sort.perm (t.outEdges u rel)
  rw [neighbors, limit_of_length_le (hperm.length_eq.trans_le h), List.map_map, List.mem_map]
  exact exists_congr fun e => and_congr_left fun _ => hperm.mem_iff

end EdgeTable

end Edges

end SynapseMemory
