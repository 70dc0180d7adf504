import SynapseMemory.Accumulators
import SynapseMemory.CountingSort
import SynapseMemory.EdgeTable
import SynapseMemory.Outcome

/-!
# The CSR cache

The model of `CsrGraph::rebuild` and of what reads the cache. The edges of a node are a slice of
three parallel arrays, from `indptr[i]` to `indptr[i + 1]`. Nodes are numbered with `i32`, relations
with `u8`. An index out of range, and a sum out of range, is a panic: `none`.

The arrays are filled by a counting sort, so each slice has the edges of its node (`rebuild_eq`).
The number of a relation is its place in the dictionary `as u8`, which is the place of another
relation from 256 on. Such an edge is read with the wrong relation, and nothing reports it
(`rebuild_faithful_iff`).
-/

namespace SynapseMemory.Csr

open Edges CountingSort
open Outcome (asI32)

/-! ## Machine integers -/

/-- `as usize`, of an `i32`. -/
def asUsize (i : ℤ) : ℕ := (i % 2 ^ 64).toNat

/-- Addition of `i32`, with no result if it overflows. -/
def addI32 (a b : ℤ) : Option ℤ :=
  if -2 ^ 31 ≤ a + b ∧ a + b < 2 ^ 31 then some (a + b) else none

/-- `l[i] = x` -/
def setAt {α : Type} (l : List α) (i : ℕ) (x : α) : Option (List α) :=
  if i < l.length then some (l.set i x) else none

/-- `l[i] += 1` -/
def bump (l : List ℤ) (i : ℕ) : Option (List ℤ) := do
  setAt l i (← addI32 (← l[i]?) 1)

/-- `&l[s..e]` -/
def sliceAt {α : Type} (l : List α) (s e : ℕ) : Option (List α) :=
  if s ≤ e ∧ e ≤ l.length then some ((l.drop s).take (e - s)) else none

theorem asI32_of_lt {n : ℕ} (h : n < 2 ^ 31) : asI32 n = n := by
  rw [asI32, BitVec.toInt_ofNat']
  exact Int.bmod_eq_of_le (by omega) (by omega)

theorem asUsize_natCast {n : ℕ} (h : n < 2 ^ 31) : asUsize n = n := by
  rw [asUsize]
  omega

theorem addI32_natCast {a b : ℕ} (h : a + b < 2 ^ 31) : addI32 a b = some ((a + b : ℕ) : ℤ) := by
  rw [addI32, if_pos (by omega), Nat.cast_add]

/-- Counters in range are counted up. -/
theorem bump_tab {n i : ℕ} {f : ℕ → ℕ} (hi : i < n) (hf : f i + 1 < 2 ^ 31) :
    bump (tab n fun j => (f j : ℤ)) i =
      some (tab n fun j => (Function.update f i (f i + 1) j : ℤ)) := by
  have hadd : addI32 (f i) 1 = some ((f i + 1 : ℕ) : ℤ) := addI32_natCast (b := 1) hf
  rw [bump, getElem?_tab hi, Option.bind_eq_bind, Option.bind_some, hadd, Option.bind_some, setAt,
    if_pos (by simpa using hi), set_tab]
  exact congrArg some (tab_congr fun j _ =>
    (Function.apply_update (fun _ (k : ℕ) => (k : ℤ)) f i (f i + 1) j).symm)

/-! ## The dictionary of relations -/

/-- `rel_dict` and `rel_idx`. -/
structure RelDict where
  names : List String
  index : String → Option UInt8

namespace RelDict

/-- No relations. -/
def empty : RelDict := ⟨[], fun _ => none⟩

/-- A new relation gets the next number, which is a byte. -/
def add (d : RelDict) (rel : String) : RelDict :=
  if (d.index rel).isSome then d
  else ⟨d.names ++ [rel], Function.update d.index rel (some (UInt8.ofNat d.names.length))⟩

/-- The relations of a list, in the order of their first places. -/
def ofRels (rels : List String) : RelDict := rels.foldl add empty

end RelDict

/-! ## The cache -/

variable {F W : Type}

/-- `ORDER BY from_id` -/
structure ByFrom (F : Type) where
  order : List (Edge F) → List (Edge F)
  perm : ∀ l, (order l).Perm l
  sorted : ∀ l, (order l).Pairwise fun a b => a.fromId ≤ b.fromId

/-- A row of the query. -/
structure EdgeRow (F : Type) where
  fromId : ℤ
  toId : ℤ
  rel : String
  weight : F

/-- The graph as it is kept: the edges of a node are a slice of the arrays. -/
structure CsrGraph (W : Type) where
  indptr : List ℤ
  indices : List ℤ
  weights : List W
  rels : List UInt8
  relDict : List String
  nodeIndex : ℤ → Option ℤ
  nodeReverse : List ℤ
  edgeCount : ℕ

/-- `COALESCE(weight, 1.0)` -/
def rowOf [One F] (e : Edge (Option F)) : EdgeRow F := ⟨e.fromId, e.toId, e.rel, e.weight.getD 1⟩

/-- `node_set`, in ascending order. -/
def nodeSet (edges : List (EdgeRow F)) : List ℤ :=
  (edges.flatMap fun e => [e.fromId, e.toId]).dedup.insertionSort (· ≤ ·)

/-- `node_index` -/
def indexOf (nodeReverse : List ℤ) (id : ℤ) : Option ℤ :=
  if id ∈ nodeReverse then some (asI32 (nodeReverse.idxOf id)) else none

/-- The number of edges of each node, one place ahead. -/
def countEdge (nodeIndex : ℤ → Option ℤ) (indptr : List ℤ) (e : EdgeRow F) : Option (List ℤ) := do
  bump indptr (asUsize (← nodeIndex e.fromId) + 1)

/-- `indptr[i] += indptr[i - 1]` -/
def sumAt (indptr : List ℤ) (i : ℕ) : Option (List ℤ) := do
  setAt indptr i (← addI32 (← indptr[i]?) (← indptr[i - 1]?))

/-- The cursors and the arrays that are filled. -/
structure Arrays (W : Type) where
  cur : List ℤ
  indices : List ℤ
  weights : List W
  rels : List UInt8

/-- The second pass: an edge is written to the next free place of its node. -/
def fillEdge (nodeIndex : ℤ → Option ℤ) (relIdx : String → Option UInt8) (toF32 : F → W)
    (s : Arrays W) (e : EdgeRow F) : Option (Arrays W) := do
  let fIdx := asUsize (← nodeIndex e.fromId)
  let pos := asUsize (← s.cur[fIdx]?)
  let indices ← setAt s.indices pos (← nodeIndex e.toId)
  let weights ← setAt s.weights pos (toF32 e.weight)
  let rels ← setAt s.rels pos (← relIdx e.rel)
  let cur ← bump s.cur fIdx
  some ⟨cur, indices, weights, rels⟩

/-- `rebuild`: the edges are counted by their nodes, and then written. -/
def rebuild [One F] [Zero W] (toF32 : F → W) (sort : ByFrom (Option F))
    (t : EdgeTable (Option F)) : Option (CsrGraph W) := do
  let edges := (sort.order t.rows).map rowOf
  let nodeReverse := nodeSet edges
  let nodeIndex := indexOf nodeReverse
  let dict := RelDict.ofRels (edges.map EdgeRow.rel)
  let nNodes := nodeReverse.length
  let nEdges := edges.length
  let counted ← edges.foldlM (countEdge nodeIndex) (List.replicate (nNodes + 1) 0)
  let indptr ← (List.range' 1 nNodes).foldlM sumAt counted
  let s ← edges.foldlM (fillEdge nodeIndex dict.index toF32)
    ⟨indptr, List.replicate nEdges 0, List.replicate nEdges 0, List.replicate nEdges 0⟩
  some ⟨indptr, s.indices, s.weights, s.rels, dict.names, nodeIndex, nodeReverse, nEdges⟩

namespace CsrGraph

/-- `neighbors`: the nodes in the slice of a node. -/
def neighbors (g : CsrGraph W) (csrIdx : ℤ) : Option (List ℤ) :=
  let i := asUsize csrIdx
  if g.indptr.length - 1 ≤ i then some []
  else do sliceAt g.indices (asUsize (← g.indptr[i]?)) (asUsize (← g.indptr[i + 1]?))

/-- `weight`, at a place of the arrays. -/
def weight (g : CsrGraph W) (edgeOffset : ℕ) : Option W := g.weights[edgeOffset]?

/-- The relation at a place of the arrays. -/
def rel (g : CsrGraph W) (edgeOffset : ℕ) : Option String := do
  g.relDict[(← g.rels[edgeOffset]?).toNat]?

/-- `brain_to_csr` -/
def brainToCsr (g : CsrGraph W) (brainId : ℤ) : Option ℤ := g.nodeIndex brainId

/-- `csr_to_brain` -/
def csrToBrain (g : CsrGraph W) (csrIdx : ℤ) : Option ℤ := g.nodeReverse[asUsize csrIdx]?

/-- An edge as it is read. -/
def edgeAt (g : CsrGraph W) (neighbor : ℤ) (edgeOffset : ℕ) : Option (ℤ × W × String) := do
  some (← g.csrToBrain neighbor, ← g.weight edgeOffset, ← g.rel edgeOffset)

/-- The edges in the slice of a node. -/
def edgesAt (g : CsrGraph W) (csrIdx : ℤ) : Option (List (ℤ × W × String)) := do
  let s := asUsize (← g.indptr[asUsize csrIdx]?)
  ((← g.neighbors csrIdx).zipIdx s).mapM fun p => g.edgeAt p.1 p.2

end CsrGraph

/-! ## The dictionary -/

/-- What the dictionary holds after some rows. -/
structure RelDict.Holds (d : RelDict) (rels : List String) : Prop where
  nodup : d.names.Nodup
  mem : ∀ rel, rel ∈ d.names ↔ rel ∈ rels
  index : ∀ rel ∈ d.names, d.index rel = some (UInt8.ofNat (d.names.idxOf rel))
  absent : ∀ rel, rel ∉ d.names → d.index rel = none

/-- A relation that is added is held, and the others stay. -/
theorem RelDict.Holds.add {d : RelDict} {rels : List String} (h : d.Holds rels) (rel : String) :
    (d.add rel).Holds (rels ++ [rel]) := by
  by_cases hrel : rel ∈ d.names
  · rw [RelDict.add, if_pos (by rw [h.index rel hrel, Option.isSome_some])]
    refine ⟨h.nodup, fun r => ?_, h.index, h.absent⟩
    have hin := (h.mem rel).mp hrel
    grind [h.mem r]
  · rw [RelDict.add, if_neg (by rw [h.absent rel hrel]; exact Bool.false_ne_true)]
    refine ⟨?_, fun r => ?_, fun r hr => ?_, fun r hr => ?_⟩
    · rw [← List.concat_eq_append]
      exact h.nodup.concat hrel
    · simp [h.mem r]
    · rcases List.mem_append.mp hr with hold | hnew
      · have hne : r ≠ rel := fun heq => hrel (heq ▸ hold)
        dsimp only
        rw [Function.update_of_ne hne, List.idxOf_append_of_mem hold]
        exact h.index r hold
      · obtain rfl := List.mem_singleton.mp hnew
        dsimp only
        rw [Function.update_self, List.idxOf_append_of_notMem hrel, List.idxOf_cons_self, add_zero]
    · obtain ⟨hold, hnew⟩ := not_or.mp (List.mem_append.not.mp hr)
      exact (Function.update_of_ne (List.mem_singleton.not.mp hnew) _ _).trans (h.absent r hold)

/-- The dictionary of some relations holds them. -/
theorem RelDict.ofRels_holds (rels : List String) : (RelDict.ofRels rels).Holds rels := by
  induction rels using List.reverseRecOn with
  | nil =>
    exact ⟨List.nodup_nil, fun _ => Iff.rfl, fun _ h => absurd h List.not_mem_nil, fun _ _ => rfl⟩
  | append_singleton rels rel ih =>
    rw [RelDict.ofRels, List.foldl_append]
    exact ih.add rel

/-- The relation that the number of a relation stands for. -/
def RelDict.readAs (d : RelDict) (rel : String) : String :=
  d.names.getD (d.names.idxOf rel % 256) rel

/-- A code is read as the relation that is at its place. -/
theorem RelDict.getElem?_readAs {d : RelDict} {rel : String} (h : rel ∈ d.names) :
    d.names[(UInt8.ofNat (d.names.idxOf rel)).toNat]? = some (d.readAs rel) := by
  have hlt := (Nat.mod_le _ 256).trans_lt (List.idxOf_lt_length_of_mem h)
  rw [UInt8.toNat_ofNat', RelDict.readAs, List.getD_eq_getElem _ _ hlt]
  exact List.getElem?_eq_getElem hlt

/-- The dictionary has each relation once. -/
theorem RelDict.Holds.length_eq {d : RelDict} {rels : List String} (h : d.Holds rels) :
    d.names.length = rels.toFinset.card := by
  rw [← List.toFinset_card_of_nodup h.nodup]
  congr 1
  ext rel
  simp [h.mem rel]

/-- **Up to 256 relations** keep their numbers. -/
theorem RelDict.Holds.readAs_eq {d : RelDict} {rels : List String} (h : d.Holds rels)
    (hlen : d.names.length ≤ 256) {rel : String} (hrel : rel ∈ rels) : d.readAs rel = rel := by
  have hlt := List.idxOf_lt_length_of_mem ((h.mem rel).mpr hrel)
  rw [RelDict.readAs, Nat.mod_eq_of_lt (hlt.trans_le hlen), List.getD_eq_getElem _ _ hlt]
  exact List.getElem_idxOf hlt

/-- Of more relations there is one that no number stands for. -/
theorem RelDict.Holds.exists_lost {d : RelDict} {rels : List String} (h : d.Holds rels)
    (hlen : 256 < d.names.length) : ∃ lost ∈ rels, ∀ rel ∈ rels, d.readAs rel ≠ lost := by
  refine ⟨d.names[256], (h.mem _).mp (List.getElem_mem hlen), fun rel hrel heq => ?_⟩
  have hlt := (Nat.mod_le _ 256).trans_lt (List.idxOf_lt_length_of_mem ((h.mem rel).mpr hrel))
  rw [RelDict.readAs, List.getD_eq_getElem _ _ hlt] at heq
  have hsame := h.nodup.getElem_inj_iff.mp heq
  omega

/-! ## Counting and filling -/

/-- What the sort goes by: the number of the node that an edge comes from. -/
def keyOf (nodes : List ℤ) (e : EdgeRow F) : ℕ := nodes.idxOf e.fromId

/-- Nodes and edges whose numbers are in range. -/
structure Small (nodes : List ℤ) (edges : List (EdgeRow F)) : Prop where
  nodes_lt : nodes.length < 2 ^ 31
  edges_lt : edges.length < 2 ^ 31
  ends : ∀ e ∈ edges, e.fromId ∈ nodes ∧ e.toId ∈ nodes

variable {nodes : List ℤ} {edges : List (EdgeRow F)}

theorem indexOf_of_mem (hlen : nodes.length < 2 ^ 31) {id : ℤ} (h : id ∈ nodes) :
    indexOf nodes id = some ((nodes.idxOf id : ℕ) : ℤ) := by
  rw [indexOf, if_pos h, asI32_of_lt ((List.idxOf_lt_length_of_mem h).trans hlen)]

/-- The numbers and the nodes belong together. -/
theorem indexOf_eq_some (hlen : nodes.length < 2 ^ 31) (hnodup : nodes.Nodup) {id i : ℤ}
    (hlo : -2 ^ 31 ≤ i) (hhi : i < 2 ^ 31) :
    indexOf nodes id = some i ↔ nodes[asUsize i]? = some id := by
  constructor
  · intro hi
    have hid : id ∈ nodes := by
      by_contra hid
      rw [indexOf, if_neg hid] at hi
      cases hi
    rw [indexOf_of_mem hlen hid] at hi
    obtain rfl := Option.some_inj.mp hi
    rw [asUsize_natCast ((List.idxOf_lt_length_of_mem hid).trans hlen)]
    exact List.getElem?_idxOf hid
  · intro hi
    obtain ⟨hlt, hget⟩ := List.getElem?_eq_some_iff.mp hi
    -- a negative number is far out of range
    have hnonneg : i = (asUsize i : ℤ) := by
      have hbound := hlt.trans hlen
      rw [asUsize] at hbound ⊢
      omega
    have hid : id ∈ nodes := hget ▸ List.getElem_mem hlt
    rw [indexOf_of_mem hlen hid, ← hget, hnodup.idxOf_getElem, ← hnonneg]

theorem Small.key_lt (h : Small nodes edges) {e : EdgeRow F} (he : e ∈ edges) :
    keyOf nodes e < nodes.length :=
  List.idxOf_lt_length_of_mem (h.ends e he).1

theorem Small.index_fromId (h : Small nodes edges) {e : EdgeRow F} (he : e ∈ edges) :
    indexOf nodes e.fromId = some (keyOf nodes e : ℤ) :=
  indexOf_of_mem h.nodes_lt (h.ends e he).1

theorem Small.asUsize_key (h : Small nodes edges) {e : EdgeRow F} (he : e ∈ edges) :
    asUsize (keyOf nodes e) = keyOf nodes e :=
  asUsize_natCast ((h.key_lt he).trans h.nodes_lt)

/-- A table one place ahead. -/
def ahead (f : ℕ → ℕ) : ℕ → ℕ
  | 0 => 0
  | i + 1 => f i

/-- Updates of the shifted counts. -/
theorem update_ahead (f : ℕ → ℕ) (i x : ℕ) :
    Function.update (ahead f) (i + 1) x = ahead (Function.update f i x) := by
  funext j
  cases j with
  | zero => rfl
  | succ j => simp [ahead, Function.update_apply]

/-- An edge that comes next is an edge, and its place is small. -/
theorem Small.rest_lt (h : Small nodes edges) {done rest : List (EdgeRow F)} {e : EdgeRow F}
    (hall : edges = done ++ e :: rest) : e ∈ edges ∧ done.length + 1 < 2 ^ 31 := by
  refine ⟨hall ▸ List.mem_append_right _ List.mem_cons_self, ?_⟩
  have hlt := h.edges_lt
  rw [hall, List.length_append, List.length_cons] at hlt
  omega

/-- **An edge is counted** at its node. -/
theorem countEdge_filled (h : Small nodes edges) {done rest : List (EdgeRow F)} {e : EdgeRow F}
    (hall : edges = done ++ e :: rest) :
    countEdge (indexOf nodes)
        (tab (nodes.length + 1) fun i => (ahead (filled (keyOf nodes) done) i : ℤ)) e =
      some (tab (nodes.length + 1) fun i =>
        (ahead (filled (keyOf nodes) (done ++ [e])) i : ℤ)) := by
  obtain ⟨he, hlen⟩ := h.rest_lt hall
  have hcount : filled (keyOf nodes) done (keyOf nodes e) ≤ done.length := filled_le_length _ _
  have hbump := bump_tab (f := ahead (filled (keyOf nodes) done))
    (Nat.succ_lt_succ (h.key_lt he)) (by rw [ahead]; omega)
  rw [update_ahead, ahead, filled_update] at hbump
  rw [countEdge, h.index_fromId he, Option.bind_eq_bind, Option.bind_some, h.asUsize_key he]
  exact hbump

/-- The first loop counts the edges of each node. -/
theorem countEdges_eq (h : Small nodes edges) {done rest : List (EdgeRow F)}
    (hall : edges = done ++ rest) :
    rest.foldlM (countEdge (indexOf nodes))
        (tab (nodes.length + 1) fun i => (ahead (filled (keyOf nodes) done) i : ℤ)) =
      some (tab (nodes.length + 1) fun i => (ahead (filled (keyOf nodes) edges) i : ℤ)) := by
  induction rest generalizing done with
  | nil =>
    rw [hall, List.append_nil]
    rfl
  | cons e rest ih =>
    rw [List.foldlM_cons, countEdge_filled h hall]
    exact ih (by rw [hall, List.append_assoc, List.singleton_append])

/-- The table while the sums are made: what is summed up is done up to `i`. -/
def summed (keys : List ℕ) (i j : ℕ) : ℕ := if j ≤ i then below keys j else ahead (keys.count ·) j

/-- A turn of the second loop adds the count before. -/
theorem sumAt_summed {keys : List ℕ} (hlen : keys.length < 2 ^ 31) {n i : ℕ} (hi : i < n) :
    sumAt (tab (n + 1) fun j => (summed keys i j : ℤ)) (i + 1) =
      some (tab (n + 1) fun j => (summed keys (i + 1) j : ℤ)) := by
  have hcount : summed keys i (i + 1) = keys.count i := if_neg (by omega)
  have hbelow : summed keys i i = below keys i := if_pos le_rfl
  have hnext : keys.count i + below keys i = below keys (i + 1) := by rw [below_succ, add_comm]
  have hsmall := below_le_length keys (i + 1)
  have hadd : addI32 (keys.count i) (below keys i) = some (below keys (i + 1) : ℤ) := by
    rw [addI32_natCast (by omega), hnext]
  rw [sumAt, getElem?_tab (by omega), Option.bind_eq_bind, Option.bind_some, Nat.add_sub_cancel,
    getElem?_tab (by omega), Option.bind_some, hcount, hbelow, hadd, Option.bind_some, setAt,
    if_pos (by simpa using hi), set_tab]
  refine congrArg some (tab_congr fun j _ => ?_)
  by_cases hj : j = i + 1
  · subst hj
    rw [Function.update_self, summed, if_pos le_rfl]
  · rw [Function.update_of_ne hj, summed, summed]
    simp only [Nat.le_succ_iff, hj, or_false]

/-- **The prefix sums** of the counts are where the segments start. -/
theorem cumsum_eq {keys : List ℕ} (hlen : keys.length < 2 ^ 31) {n i : ℕ} (hi : i ≤ n) :
    (List.range' 1 i).foldlM sumAt (tab (n + 1) fun j => (ahead (keys.count ·) j : ℤ)) =
      some (tab (n + 1) fun j => (summed keys i j : ℤ)) := by
  induction i with
  | zero =>
    refine congrArg some (tab_congr fun j _ => ?_)
    cases j with
    | zero => simp [ahead, summed]
    | succ j => simp [summed]
  | succ i ih =>
    rw [List.range'_1_concat, List.foldlM_append, ih (by omega), Option.bind_eq_bind,
      Option.bind_some, List.foldlM_cons, add_comm 1 i, sumAt_summed hlen hi]
    rfl

/-- The starts of the segments, and their end. -/
theorem indptr_eq (h : Small nodes edges) :
    (edges.foldlM (countEdge (indexOf nodes)) (List.replicate (nodes.length + 1) 0) >>=
        fun counted => (List.range' 1 nodes.length).foldlM sumAt counted) =
      some (tab (nodes.length + 1) fun i => (below (edges.map (keyOf nodes)) i : ℤ)) := by
  have hstart : List.replicate (nodes.length + 1) (0 : ℤ) =
      tab (nodes.length + 1) fun i => (ahead (filled (keyOf (F := F) nodes) []) i : ℤ) := by
    rw [replicate_eq_tab]
    refine tab_congr fun i _ => ?_
    cases i <;> simp [ahead, filled]
  have hlen : (edges.map (keyOf nodes)).length < 2 ^ 31 := by
    rw [List.length_map]
    exact h.edges_lt
  rw [hstart, countEdges_eq h rfl, Option.bind_eq_bind, Option.bind_some]
  refine (cumsum_eq hlen le_rfl).trans (congrArg some (tab_congr fun i hi => ?_))
  rw [summed, if_pos (Nat.lt_succ_iff.mp hi)]

/-- What is written for an edge. -/
def entryOf {W : Type} (nodes : List ℤ) (dict : RelDict) (toF32 : F → W) (e : EdgeRow F) :
    ℤ × W × UInt8 :=
  ((nodes.idxOf e.toId : ℕ), toF32 e.weight, UInt8.ofNat (dict.names.idxOf e.rel))

/-- The three arrays are one array of entries. -/
structure Entries {W : Type} (n : ℕ) (g : ℕ → ℤ × W × UInt8) (indices : List ℤ) (weights : List W)
    (rels : List UInt8) : Prop where
  indices_eq : indices = tab n fun k => (g k).1
  weights_eq : weights = tab n fun k => (g k).2.1
  rels_eq : rels = tab n fun k => (g k).2.2

/-- The arrays and the cursors after some of the edges. -/
structure Filling {W : Type} (nodes : List ℤ) (dict : RelDict) (toF32 : F → W)
    (edges done : List (EdgeRow F)) (s : Arrays W) : Prop where
  cur_eq : s.cur = tab (nodes.length + 1) fun i => (place (keyOf nodes) edges done i : ℤ)
  placed : ∃ g, Entries edges.length g s.indices s.weights s.rels ∧
    Placed (keyOf nodes) (entryOf nodes dict toF32) edges done g

/-- **An edge is written** at the cursor of its node. -/
theorem Filling.step {W : Type} {dict : RelDict} {toF32 : F → W} (h : Small nodes edges)
    (hdict : dict.Holds (edges.map EdgeRow.rel)) {done rest : List (EdgeRow F)} {e : EdgeRow F}
    (hall : edges = done ++ e :: rest) {s : Arrays W}
    (hs : Filling nodes dict toF32 edges done s) :
    ∃ s', fillEdge (indexOf nodes) dict.index toF32 s e = some s' ∧
      Filling nodes dict toF32 edges (done ++ [e]) s' := by
  obtain ⟨cur, indices, weights, rels⟩ := s
  obtain ⟨hcur, g, ⟨hindices, hweights, hrels⟩, hplaced⟩ := hs
  obtain ⟨he, -⟩ := h.rest_lt hall
  have hsmall := h.edges_lt
  have hkey : keyOf nodes e < nodes.length + 1 := Nat.lt_succ_of_lt (h.key_lt he)
  have hplace : place (keyOf nodes) edges done (keyOf nodes e) < edges.length :=
    place_lt_length hall
  have hrel : e.rel ∈ dict.names := (hdict.mem _).mpr (List.mem_map_of_mem he)
  have hbump := bump_tab (f := place (keyOf nodes) edges done) hkey (by omega)
  rw [place_update] at hbump
  have hpos : asUsize (place (keyOf nodes) edges done (keyOf nodes e)) =
      place (keyOf nodes) edges done (keyOf nodes e) := asUsize_natCast (hplace.trans hsmall)
  have hwrite : ∀ {α : Type} (c : ℤ × W × UInt8 → α), setAt (tab edges.length fun k => c (g k))
      (place (keyOf nodes) edges done (keyOf nodes e)) (c (entryOf nodes dict toF32 e)) =
        some (tab edges.length fun k => c (Function.update g
          (place (keyOf nodes) edges done (keyOf nodes e)) (entryOf nodes dict toF32 e) k)) := by
    intro α c
    rw [setAt, if_pos (by simpa using hplace), set_tab_component]
  have hindex : setAt (tab edges.length fun k => (g k).1) _ ((nodes.idxOf e.toId : ℕ) : ℤ) =
      some _ := hwrite Prod.fst
  have hweight : setAt (tab edges.length fun k => (g k).2.1) _ (toF32 e.weight) = some _ :=
    hwrite fun x => x.2.1
  have hnumber : setAt (tab edges.length fun k => (g k).2.2) _
      (UInt8.ofNat (dict.names.idxOf e.rel)) = some _ := hwrite fun x => x.2.2
  refine ⟨⟨_, _, _, _⟩, ?_, rfl, _, ⟨rfl, rfl, rfl⟩, hplaced.step hall⟩
  dsimp only at hcur hindices hweights hrels
  subst hcur hindices hweights hrels
  simp only [fillEdge, h.index_fromId he, h.asUsize_key he, getElem?_tab hkey, hpos,
    indexOf_of_mem h.nodes_lt (h.ends e he).2, hindex, hweight, hdict.index _ hrel, hnumber, hbump,
    Option.bind_eq_bind, Option.bind_some]
  rfl

/-- The third loop fills the arrays. -/
theorem Filling.run {W : Type} {dict : RelDict} {toF32 : F → W} (h : Small nodes edges)
    (hdict : dict.Holds (edges.map EdgeRow.rel)) {done rest : List (EdgeRow F)}
    (hall : edges = done ++ rest) {s : Arrays W}
    (hs : Filling nodes dict toF32 edges done s) :
    ∃ s', rest.foldlM (fillEdge (indexOf nodes) dict.index toF32) s = some s' ∧
      Filling nodes dict toF32 edges edges s' := by
  induction rest generalizing done s with
  | nil =>
    rw [List.append_nil] at hall
    exact ⟨s, rfl, hall.symm ▸ hs⟩
  | cons e rest ih =>
    obtain ⟨s', hs', hstep⟩ := hs.step h hdict hall
    obtain ⟨s'', hs'', hrun⟩ := ih (by rw [hall, List.append_assoc, List.singleton_append]) hstep
    exact ⟨s'', by rw [List.foldlM_cons, hs']; exact hs'', hrun⟩

/-- At first nothing is filled. -/
theorem Filling.initial {W : Type} [Zero W] (nodes : List ℤ) (dict : RelDict) (toF32 : F → W)
    (edges : List (EdgeRow F)) :
    Filling nodes dict toF32 edges []
      ⟨tab (nodes.length + 1) fun i => (below (edges.map (keyOf nodes)) i : ℤ),
        List.replicate edges.length 0, List.replicate edges.length 0,
        List.replicate edges.length 0⟩ where
  cur_eq := tab_congr fun i _ => by simp [place, filled]
  placed := ⟨fun _ => (0, 0, 0),
    ⟨replicate_eq_tab _ _, replicate_eq_tab _ _, replicate_eq_tab _ _⟩, Placed.nil _ _⟩

/-! ## The rebuilt cache -/

theorem mem_nodeSet {id : ℤ} : id ∈ nodeSet edges ↔ ∃ e ∈ edges, id = e.fromId ∨ id = e.toId := by
  simp [nodeSet, (List.perm_insertionSort _ _).mem_iff]

theorem nodeSet_nodup (edges : List (EdgeRow F)) : (nodeSet edges).Nodup :=
  (List.perm_insertionSort _ _).nodup_iff.mpr (List.nodup_dedup _)

theorem length_nodeSet (edges : List (EdgeRow F)) :
    (nodeSet edges).length = (edges.flatMap fun e => [e.fromId, e.toId]).toFinset.card := by
  rw [nodeSet, List.length_insertionSort, List.card_toFinset]

section Rebuild

variable {W : Type} [One F] [Zero W]

/-- The rows of the query. -/
def rowsOf (sort : ByFrom (Option F)) (t : EdgeTable (Option F)) : List (EdgeRow F) :=
  (sort.order t.rows).map rowOf

/-- Nodes and edges of a table whose numbers are in range. -/
structure InRange (t : EdgeTable (Option F)) : Prop where
  nodes_lt : (t.rows.flatMap fun e => [e.fromId, e.toId]).toFinset.card < 2 ^ 31
  edges_lt : t.rows.length < 2 ^ 31

theorem rowsOf_perm (sort : ByFrom (Option F)) (t : EdgeTable (Option F)) :
    (rowsOf sort t).Perm (t.rows.map rowOf) :=
  (sort.perm t.rows).map rowOf

/-- A table in range is small, in whatever order it is read. -/
theorem InRange.small {t : EdgeTable (Option F)} (h : InRange t) (sort : ByFrom (Option F)) :
    Small (nodeSet (rowsOf sort t)) (rowsOf sort t) where
  nodes_lt := by
    have hends : ((rowsOf sort t).flatMap fun e => [e.fromId, e.toId]).toFinset =
        (t.rows.flatMap fun e => [e.fromId, e.toId]).toFinset := by
      refine List.toFinset_eq_of_perm _ _ (((rowsOf_perm sort t).flatMap_right _).trans ?_)
      rw [List.flatMap_map]
      rfl
    rw [length_nodeSet, hends]
    exact h.nodes_lt
  edges_lt := by
    rw [(rowsOf_perm sort t).length_eq, List.length_map]
    exact h.edges_lt
  ends := fun e he => ⟨mem_nodeSet.mpr ⟨e, he, .inl rfl⟩, mem_nodeSet.mpr ⟨e, he, .inr rfl⟩⟩

/-- The cache of some entries. -/
def cacheOf (edges : List (EdgeRow F)) (g : ℕ → ℤ × W × UInt8) : CsrGraph W where
  indptr := tab ((nodeSet edges).length + 1) fun i =>
    (below (edges.map (keyOf (nodeSet edges))) i : ℤ)
  indices := tab edges.length fun k => (g k).1
  weights := tab edges.length fun k => (g k).2.1
  rels := tab edges.length fun k => (g k).2.2
  relDict := (RelDict.ofRels (edges.map EdgeRow.rel)).names
  nodeIndex := indexOf (nodeSet edges)
  nodeReverse := nodeSet edges
  edgeCount := edges.length

/-- **The cache is built**, and each edge is in the segment of its node. -/
theorem rebuild_eq (toF32 : F → W) (sort : ByFrom (Option F)) {t : EdgeTable (Option F)}
    (h : InRange t) :
    ∃ g, rebuild toF32 sort t = some (cacheOf (rowsOf sort t) g) ∧
      Placed (keyOf (nodeSet (rowsOf sort t)))
        (entryOf (nodeSet (rowsOf sort t)) (RelDict.ofRels ((rowsOf sort t).map EdgeRow.rel)) toF32)
        (rowsOf sort t) (rowsOf sort t) g := by
  have hsmall := h.small sort
  obtain ⟨⟨cur, indices, weights, rels⟩, hfill, -, g, ⟨hindices, hweights, hrels⟩, hplaced⟩ :=
    (Filling.initial (nodeSet (rowsOf sort t))
      (RelDict.ofRels ((rowsOf sort t).map EdgeRow.rel)) toF32 (rowsOf sort t)).run hsmall
      (RelDict.ofRels_holds _) (List.nil_append _).symm
  obtain ⟨counted, hcounted, hindptr⟩ := Option.bind_eq_some_iff.mp (indptr_eq hsmall)
  refine ⟨g, ?_, hplaced⟩
  dsimp only at hindices hweights hrels
  rw [rebuild, ← rowsOf, hcounted, Option.bind_eq_bind, Option.bind_some, hindptr,
    Option.bind_eq_bind,
    Option.bind_some, hfill, Option.bind_some, hindices, hweights, hrels]
  rfl

/-! ## Reading the cache -/

omit [One F] [Zero W] in
theorem getElem?_indptr (edges : List (EdgeRow F)) (g : ℕ → ℤ × W × UInt8) {i : ℕ}
    (hi : i < (nodeSet edges).length + 1) :
    (cacheOf edges g).indptr[i]? = some (below (edges.map (keyOf (nodeSet edges))) i : ℤ) :=
  getElem?_tab hi _

omit [One F] [Zero W] in
/-- The neighbors of a node are the entries of its bucket. -/
theorem neighbors_cacheOf (h : Small (nodeSet edges) edges) (g : ℕ → ℤ × W × UInt8) {i : ℕ}
    (hi : i < (nodeSet edges).length) :
    (cacheOf edges g).neighbors i =
      some ((List.range' (below (edges.map (keyOf (nodeSet edges))) i)
        (filled (keyOf (nodeSet edges)) edges i)).map fun k => (g k).1) := by
  have hlen : (cacheOf edges g).indptr.length = (nodeSet edges).length + 1 := length_tab _ _
  have hin := below_le_length (edges.map (keyOf (nodeSet edges))) (i + 1)
  have hlt := h.edges_lt
  rw [List.length_map, below_succ] at hin
  rw [CsrGraph.neighbors, asUsize_natCast (hi.trans h.nodes_lt), hlen, if_neg (by omega),
    getElem?_indptr edges g (by omega), getElem?_indptr edges g (by omega), Option.bind_eq_bind,
    Option.bind_some, Option.bind_some, asUsize_natCast (by omega), below_succ,
    asUsize_natCast (by omega), sliceAt, if_pos ⟨by omega, hin.trans_eq (length_tab _ _).symm⟩,
    Nat.add_sub_cancel_left]
  exact congrArg some (take_drop_tab hin _)

/-- What an entry stands for. -/
def decode (edges : List (EdgeRow F)) (x : ℤ × W × UInt8) : Option (ℤ × W × String) := do
  some (← (nodeSet edges)[asUsize x.1]?, x.2.1,
    ← (RelDict.ofRels (edges.map EdgeRow.rel)).names[x.2.2.toNat]?)

omit [One F] [Zero W] in
/-- An entry is decoded from the arrays. -/
theorem edgeAt_cacheOf (edges : List (EdgeRow F)) (g : ℕ → ℤ × W × UInt8) {k : ℕ}
    (hk : k < edges.length) : (cacheOf edges g).edgeAt (g k).1 k = decode edges (g k) := by
  have hweight : (cacheOf edges g).weights[k]? = some (g k).2.1 := getElem?_tab hk _
  have hrel : (cacheOf edges g).rels[k]? = some (g k).2.2 := getElem?_tab hk _
  rw [CsrGraph.edgeAt, CsrGraph.weight, CsrGraph.rel, hweight, hrel]
  rfl

omit [One F] [Zero W] in
/-- An edge that was encoded is decoded, but for its relation. -/
theorem decode_entryOf {toF32 : F → W} (h : Small (nodeSet edges) edges) {e : EdgeRow F}
    (he : e ∈ edges) :
    decode edges (entryOf (nodeSet edges) (RelDict.ofRels (edges.map EdgeRow.rel)) toF32 e) =
      some (e.toId, toF32 e.weight, (RelDict.ofRels (edges.map EdgeRow.rel)).readAs e.rel) := by
  have hto := (h.ends e he).2
  have hlt := List.idxOf_lt_length_of_mem hto
  have hrel := ((RelDict.ofRels_holds (edges.map EdgeRow.rel)).mem e.rel).mpr
    (List.mem_map_of_mem he)
  rw [decode, entryOf, asUsize_natCast (hlt.trans h.nodes_lt), List.getElem?_idxOf hto,
    RelDict.getElem?_readAs hrel]
  rfl

omit [One F] [Zero W] in
/-- **The slice of a node** has its edges, each with the relation that its number stands for. -/
theorem edgesAt_cacheOf {toF32 : F → W} {g : ℕ → ℤ × W × UInt8}
    (h : Small (nodeSet edges) edges)
    (hplaced : Placed (keyOf (nodeSet edges))
      (entryOf (nodeSet edges) (RelDict.ofRels (edges.map EdgeRow.rel)) toF32) edges edges g)
    {id : ℤ} (hid : id ∈ nodeSet edges) :
    (cacheOf edges g).edgesAt ((nodeSet edges).idxOf id : ℕ) =
      some ((edges.filter (·.fromId = id)).map fun e =>
        (e.toId, toF32 e.weight, (RelDict.ofRels (edges.map EdgeRow.rel)).readAs e.rel)) := by
  have hi := List.idxOf_lt_length_of_mem hid
  have hin := below_le_length (edges.map (keyOf (nodeSet edges))) ((nodeSet edges).idxOf id + 1)
  have hlt := h.edges_lt
  rw [List.length_map, below_succ] at hin
  have hfilter : edges.filter (keyOf (nodeSet edges) · = (nodeSet edges).idxOf id) =
      edges.filter (·.fromId = id) :=
    List.filter_congr fun e he => decide_eq_decide.mpr (List.idxOf_inj (h.ends e he).1)
  -- the offsets of the slice, beside the neighbors that they are those of
  have hoffsets : ∀ s n, ((List.range' s n).map fun k => (g k).1).zipIdx s =
      (List.range' s n).map fun k => ((g k).1, k) := by
    intro s n
    induction n generalizing s with
    | zero => rfl
    | succ n ih => rw [List.range'_succ, List.map_cons, List.zipIdx_cons, ih, List.map_cons]
  have hread : ∀ k ∈ List.range'
      (below (edges.map (keyOf (nodeSet edges))) ((nodeSet edges).idxOf id))
      (filled (keyOf (nodeSet edges)) edges ((nodeSet edges).idxOf id)),
      (cacheOf edges g).edgeAt (g k).1 k = decode edges (g k) := fun k hk =>
    edgeAt_cacheOf edges g ((List.mem_range'_1.mp hk).2.trans_le hin)
  rw [CsrGraph.edgesAt, neighbors_cacheOf h g hi, asUsize_natCast (hi.trans h.nodes_lt),
    getElem?_indptr edges g (by omega), Option.bind_eq_bind, Option.bind_some, Option.bind_eq_bind,
    Option.bind_some, asUsize_natCast (by omega), hoffsets, List.mapM_map]
  refine (Option.mapM_congr hread).trans ?_
  -- what was placed there are the entries of the edges
  have hentries : ∀ l : List ℕ, l.mapM (fun k => decode edges (g k)) =
      (l.map g).mapM (decode edges) := fun _ =>
    (List.mapM_map (f := g) (g := decode edges)).symm
  rw [hentries, hplaced, hfilter, List.mapM_map]
  exact Option.mapM_eq_some fun e he => decode_entryOf h (List.mem_filter.mp he).1

/-! ## What the cache is for -/

/-- The numbers of the nodes, and the bounds of their slices. -/
structure Indexes (t : EdgeTable (Option F)) (g : CsrGraph W) : Prop where
  length_eq : g.indptr.length = g.nodeReverse.length + 1
  first : g.indptr.head? = some 0
  last : g.indptr.getLast? = some (t.rows.length : ℤ)
  mono : g.indptr.Pairwise (· ≤ ·)
  nodes : ∀ id, (g.brainToCsr id).isSome ↔ ∃ e ∈ t.rows, id = e.fromId ∨ id = e.toId
  inverse : ∀ id i, -2 ^ 31 ≤ i → i < 2 ^ 31 → (g.brainToCsr id = some i ↔ g.csrToBrain i = some id)

/-- The slice of a node has the edges of the table. -/
def Reads (toF32 : F → W) (t : EdgeTable (Option F)) (g : CsrGraph W) : Prop :=
  ∀ id i, g.brainToCsr id = some i → ∃ l, g.edgesAt i = some l ∧
    l.Perm ((t.rows.filter (·.fromId = id)).map fun e =>
      (e.toId, toF32 (e.weight.getD 1), e.rel))

omit [Zero W] in
/-- The cache indexes the table. -/
theorem indexes_cacheOf {t : EdgeTable (Option F)} (h : InRange t) (sort : ByFrom (Option F))
    (g : ℕ → ℤ × W × UInt8) : Indexes t (cacheOf (rowsOf sort t) g) := by
  have hsmall := h.small sort
  have hlen : (rowsOf sort t).length = t.rows.length := by
    rw [(rowsOf_perm sort t).length_eq, List.length_map]
  refine ⟨length_tab _ _, ?_, ?_, ?_, fun id => ?_, fun id i hlo hhi => ?_⟩
  · simp [cacheOf, tab, List.range_succ_eq_map]
  · have hend : below ((rowsOf sort t).map (keyOf (nodeSet (rowsOf sort t))))
        (nodeSet (rowsOf sort t)).length = t.rows.length := by
      rw [below_eq_length, List.length_map, hlen]
      intro k hk
      obtain ⟨e, he, rfl⟩ := List.mem_map.mp hk
      exact hsmall.key_lt he
    simp [cacheOf, tab, List.range_succ, hend]
  · rw [cacheOf, tab, List.pairwise_map]
    exact List.pairwise_lt_range.imp fun hlt => Nat.cast_le.mpr (below_mono _ hlt.le)
  · have hmem : id ∈ nodeSet (rowsOf sort t) ↔ ∃ e ∈ t.rows, id = e.fromId ∨ id = e.toId := by
      rw [mem_nodeSet]
      constructor
      · rintro ⟨e, he, hid⟩
        obtain ⟨row, hrow, rfl⟩ := List.mem_map.mp ((rowsOf_perm sort t).mem_iff.mp he)
        exact ⟨row, hrow, hid⟩
      · rintro ⟨row, hrow, hid⟩
        exact ⟨_, (rowsOf_perm sort t).mem_iff.mpr (List.mem_map_of_mem hrow), hid⟩
    rw [← hmem]
    exact Option.isSome_ite
  · exact indexOf_eq_some hsmall.nodes_lt (nodeSet_nodup _) hlo hhi

omit [Zero W] in
/-- **What is read**: the edges of the table, with the relations that their numbers stand for. -/
theorem edgesAt_perm {toF32 : F → W} {t : EdgeTable (Option F)} (h : InRange t)
    (sort : ByFrom (Option F)) {g : ℕ → ℤ × W × UInt8}
    (hplaced : Placed (keyOf (nodeSet (rowsOf sort t)))
      (entryOf (nodeSet (rowsOf sort t)) (RelDict.ofRels ((rowsOf sort t).map EdgeRow.rel)) toF32)
      (rowsOf sort t) (rowsOf sort t) g) {id i : ℤ}
    (hi : (cacheOf (rowsOf sort t) g).brainToCsr id = some i) :
    ∃ l, (cacheOf (rowsOf sort t) g).edgesAt i = some l ∧
      l.Perm ((t.rows.filter (·.fromId = id)).map fun e => (e.toId, toF32 (e.weight.getD 1),
        (RelDict.ofRels ((rowsOf sort t).map EdgeRow.rel)).readAs e.rel)) := by
  have hsmall := h.small sort
  have hid : id ∈ nodeSet (rowsOf sort t) := by
    by_contra hid
    rw [CsrGraph.brainToCsr, show (cacheOf (rowsOf sort t) g).nodeIndex id = none from if_neg hid]
      at hi
    cases hi
  have hindex : (cacheOf (rowsOf sort t) g).brainToCsr id = _ := indexOf_of_mem hsmall.nodes_lt hid
  obtain rfl := Option.some_inj.mp (hindex.symm.trans hi)
  refine ⟨_, edgesAt_cacheOf hsmall hplaced hid, ?_⟩
  have hperm := ((rowsOf_perm sort t).filter (·.fromId = id)).map fun e =>
    (e.toId, toF32 e.weight, (RelDict.ofRels ((rowsOf sort t).map EdgeRow.rel)).readAs e.rel)
  rw [List.filter_map, List.map_map] at hperm
  exact hperm

/-- The relations that are read are those of the table. -/
theorem rels_perm (sort : ByFrom (Option F)) (t : EdgeTable (Option F)) :
    ((rowsOf sort t).map EdgeRow.rel).Perm (t.rows.map Edge.rel) := by
  have hperm := (rowsOf_perm sort t).map EdgeRow.rel
  rw [List.map_map] at hperm
  exact hperm

theorem length_relDict (sort : ByFrom (Option F)) (t : EdgeTable (Option F)) :
    (RelDict.ofRels ((rowsOf sort t).map EdgeRow.rel)).names.length =
      (t.rows.map Edge.rel).toFinset.card := by
  rw [(RelDict.ofRels_holds _).length_eq, List.toFinset_eq_of_perm _ _ (rels_perm sort t)]

omit [Zero W] in
/-- **The cache reads what the table has** just if the numbers of the relations are enough. -/
theorem reads_iff {toF32 : F → W} {t : EdgeTable (Option F)} (h : InRange t)
    (sort : ByFrom (Option F)) {g : ℕ → ℤ × W × UInt8}
    (hplaced : Placed (keyOf (nodeSet (rowsOf sort t)))
      (entryOf (nodeSet (rowsOf sort t)) (RelDict.ofRels ((rowsOf sort t).map EdgeRow.rel)) toF32)
      (rowsOf sort t) (rowsOf sort t) g) :
    Reads toF32 t (cacheOf (rowsOf sort t) g) ↔ (t.rows.map Edge.rel).toFinset.card ≤ 256 := by
  have hholds := RelDict.ofRels_holds ((rowsOf sort t).map EdgeRow.rel)
  rw [← length_relDict sort t]
  constructor
  · intro hreads
    by_contra hlen
    obtain ⟨lost, hlost, hnever⟩ := hholds.exists_lost (not_le.mp hlen)
    obtain ⟨e, he, rfl⟩ := List.mem_map.mp ((rels_perm sort t).mem_iff.mp hlost)
    -- an edge with the lost relation is in a slice, and no edge is read with it
    obtain ⟨i, hi⟩ := Option.isSome_iff_exists.mp
      (((indexes_cacheOf h sort g).nodes e.fromId).mpr ⟨e, he, .inl rfl⟩)
    obtain ⟨l, hl, hperm⟩ := hreads e.fromId i hi
    obtain ⟨l', hl', hperm'⟩ := edgesAt_perm h sort hplaced hi
    obtain rfl := Option.some_inj.mp (hl.symm.trans hl')
    have hmem : (e.toId, toF32 (e.weight.getD 1), e.rel) ∈ l :=
      hperm.mem_iff.mpr (List.mem_map.mpr
        ⟨e, List.mem_filter.mpr ⟨he, decide_eq_true rfl⟩, rfl⟩)
    obtain ⟨e', he', heq⟩ := List.mem_map.mp (hperm'.mem_iff.mp hmem)
    have hrel := (rels_perm sort t).mem_iff.mpr (List.mem_map_of_mem (List.mem_filter.mp he').1)
    exact hnever e'.rel hrel (Prod.mk.inj (Prod.mk.inj heq).2).2
  · intro hlen id i hi
    obtain ⟨l, hl, hperm⟩ := edgesAt_perm h sort hplaced hi
    refine ⟨l, hl, hperm.trans (List.Perm.of_eq (List.map_congr_left fun e he => ?_))⟩
    have hrel := (rels_perm sort t).mem_iff.mpr (List.mem_map_of_mem (List.mem_filter.mp he).1)
    rw [hholds.readAs_eq hlen hrel]

/-- **The cache is faithful** but for the relations, and those just if there are at most 256. -/
theorem rebuild_faithful_iff (toF32 : F → W) (sort : ByFrom (Option F)) {t : EdgeTable (Option F)}
    (hnodes : (t.rows.flatMap fun e => [e.fromId, e.toId]).toFinset.card < 2 ^ 31)
    (hedges : t.rows.length < 2 ^ 31) :
    ∃ g, rebuild toF32 sort t = some g ∧ Indexes t g ∧
      (Reads toF32 t g ↔ (t.rows.map Edge.rel).toFinset.card ≤ 256) := by
  obtain ⟨g, hg, hplaced⟩ := rebuild_eq toF32 sort ⟨hnodes, hedges⟩
  exact ⟨_, hg, indexes_cacheOf ⟨hnodes, hedges⟩ sort g, reads_iff ⟨hnodes, hedges⟩ sort hplaced⟩

end Rebuild

/-- The rows of one node in their order. -/
def ByFrom.stable (F : Type) : ByFrom F where
  order := fun l => l.mergeSort fun a b => a.fromId ≤ b.fromId
  perm := fun l => List.mergeSort_perm l _
  sorted := fun l => (List.pairwise_mergeSort
    (fun _ _ _ hab hbc => decide_eq_true ((of_decide_eq_true hab).trans (of_decide_eq_true hbc)))
    (fun a b => by simpa using le_total a.fromId b.fromId) l).imp of_decide_eq_true

/-- Two nodes with an edge each way. -/
def smallTable : EdgeTable (Option ℕ) where
  rows := [⟨7, 5, "k", none, none⟩, ⟨5, 7, "j", some 3, none⟩]
  keys_nodup := by decide

theorem rebuild_faithful_smallTable :
    ∃ g, rebuild id (.stable _) smallTable = some g ∧ Indexes smallTable g ∧
      (Reads id smallTable g ↔ (smallTable.rows.map Edge.rel).toFinset.card ≤ 256) :=
  rebuild_faithful_iff id (.stable _) (by decide) (by decide)

/-- 257 relations of one node to another. -/
def manyRels : EdgeTable (Option ℕ) where
  rows := (List.range 257).map fun i => ⟨1, 2, String.ofList (List.replicate i 'r'), none, none⟩
  keys_nodup := by
    rw [List.map_map]
    refine List.nodup_range.map fun i j hij => ?_
    have hrel := String.ofList_injective (Prod.mk.inj (Prod.mk.inj hij).2).2
    simpa using congrArg List.length hrel

/-- One relation more than a byte can name. -/
theorem card_manyRels : (manyRels.rows.map Edge.rel).toFinset.card = 257 := by
  rw [List.toFinset_card_of_nodup]
  · simp [manyRels]
  · rw [manyRels, List.map_map]
    refine List.nodup_range.map fun i j hij => ?_
    simpa using congrArg List.length (String.ofList_injective hij)

/-- With so many relations an edge is read with another one's name. -/
theorem reads_manyRels :
    ¬∀ (t : EdgeTable (Option ℕ)) (sort : ByFrom (Option ℕ)),
      (t.rows.flatMap fun e => [e.fromId, e.toId]).toFinset.card < 2 ^ 31 →
      t.rows.length < 2 ^ 31 →
      ∃ g, rebuild id sort t = some g ∧ Indexes t g ∧ Reads id t g := by
  intro h
  have hrange : InRange manyRels := by
    refine ⟨?_, by simp [manyRels]⟩
    have hends : (manyRels.rows.flatMap fun e => [e.fromId, e.toId]).toFinset ⊆ {1, 2} := by
      intro id hid
      simp only [manyRels, List.mem_toFinset, List.mem_flatMap, List.mem_map] at hid
      obtain ⟨e, ⟨i, -, rfl⟩, hid⟩ := hid
      simpa using hid
    exact (Finset.card_le_card hends).trans_lt (by decide)
  obtain ⟨g, hg, -, hreads⟩ := h manyRels (.stable _) hrange.nodes_lt hrange.edges_lt
  obtain ⟨entries, hbuilt, hplaced⟩ := rebuild_eq id (.stable _) hrange
  obtain rfl := Option.some_inj.mp (hg.symm.trans hbuilt)
  have hcard := (reads_iff hrange (.stable _) hplaced).mp hreads
  rw [card_manyRels] at hcard
  omega

end SynapseMemory.Csr
