import SynapseMemory.BreadthFirst
import SynapseMemory.Space

/-!
# The neighbours of memories over several hops

`multiHopNeighbors` goes out from some memories along the rows of `memory_edges`. It keeps a queue
of nodes with their hops and a map of the hops of all nodes it has seen, and asks the table for the
edges of a node when the node leaves the queue.

The nodes of one hop stand in the queue together, before those of the next. Working them off is one
turn of a breadth-first search (`loop_level`), so the map holds the distances (`loop_exact`) if no
node has more edges than the cap lets through.

The hops are natural numbers here. The code has bytes, and adds to a hop only below `max_hops`.
-/

namespace SynapseMemory.MultiHop

open BreadthFirst Space

/-! ## The function -/

/-- The key of a row of `memory_edges`. -/
structure MemoryEdge where
  srcId : ℤ
  dstId : ℤ
  edgeType : Text

/-- Orders that are left open: of rows that are selected without one, and of the entries of a
`HashMap`. -/
class ReadOrder where
  rows : List MemoryEdge → List MemoryEdge
  rows_perm : ∀ es, (rows es).Perm es
  entries : List (ℤ × ℕ) → List (ℤ × ℕ)
  entries_perm : ∀ es, (entries es).Perm es

/-- Both as they are stored. -/
@[reducible] def ReadOrder.asStored : ReadOrder where
  rows es := es
  rows_perm _ := .refl _
  entries es := es
  entries_perm _ := .refl _

/-- `HashMap::insert` -/
def insert (dist : List (ℤ × ℕ)) (node : ℤ) (hop : ℕ) : List (ℤ × ℕ) :=
  (node, hop) :: dist.filter fun e => e.1 ≠ node

/-- What the loop works with. -/
structure Search where
  dist : List (ℤ × ℕ)
  q : List (ℤ × ℕ)

/-- One row of the edges of a node. -/
def visit (hop : ℕ) (w : Search) (dst : ℤ) : Search :=
  if dst ∈ w.dist.map Prod.fst then w
  else { dist := w.dist ++ [(dst, hop + 1)], q := w.q ++ [(dst, hop + 1)] }

section Code

variable [ReadOrder]

/-- `SELECT dst_id FROM memory_edges WHERE src_id = ?1 LIMIT ?2` -/
def selectDst (edges : List MemoryEdge) (cap : UInt64) (node : ℤ) : List ℤ :=
  (sqlLimit cap (ReadOrder.rows (edges.filter fun e => e.srcId = node))).map MemoryEdge.dstId

/-- The loop over the queue, if it ends in so many turns. -/
def loop (edges : List MemoryEdge) (maxHops : UInt8) (cap : UInt64) :
    (fuel : ℕ) → (dist q : List (ℤ × ℕ)) → Option (List (ℤ × ℕ))
  | _, dist, [] => some dist
  | 0, _, _ :: _ => none
  | fuel + 1, dist, (node, hop) :: q =>
    if maxHops.toNat ≤ hop then loop edges maxHops cap fuel dist q
    else
      let w := (selectDst edges cap node).foldl (visit hop) { dist, q }
      loop edges maxHops cap fuel w.dist w.q

/-- The entries of the map without the seeds, sorted by their hops. -/
def collect (seeds : List ℤ) (dist : List (ℤ × ℕ)) : List (ℤ × ℕ) :=
  ((ReadOrder.entries dist).filter fun e => e.1 ∉ seeds).mergeSort fun a b => a.2 ≤ b.2

/-- `multi_hop_neighbors` -/
def multiHopNeighbors (fuel : ℕ) (edges : List MemoryEdge) (seeds : List ℤ) (maxHops : UInt8)
    (perHopCap : UInt64) : Option (List (ℤ × ℕ)) :=
  if seeds.isEmpty || maxHops == 0 then some []
  else
    let dist := seeds.foldl (fun dist s => insert dist s 0) []
    let q := seeds.map fun s => (s, 0)
    (loop edges maxHops perHopCap fuel dist q).map (collect seeds)

end Code

/-! ## The seeds -/

theorem mem_insert {dist : List (ℤ × ℕ)} {node u : ℤ} {hop d : ℕ} :
    (u, d) ∈ insert dist node hop ↔ (u = node ∧ d = hop) ∨ ((u, d) ∈ dist ∧ u ≠ node) := by
  simp [insert]

theorem nodup_insert {dist : List (ℤ × ℕ)} (h : (dist.map Prod.fst).Nodup) (node : ℤ) (hop : ℕ) :
    ((insert dist node hop).map Prod.fst).Nodup := by
  rw [insert, List.map_cons, List.nodup_cons]
  refine ⟨by simp, h.sublist (List.filter_sublist.map _)⟩

/-- The seeds are at distance 0. -/
theorem mem_seeds {seeds : List ℤ} {dist : List (ℤ × ℕ)} (hdist : ∀ e ∈ dist, e.2 = 0) {u : ℤ}
    {d : ℕ} : (u, d) ∈ seeds.foldl (fun dist s => insert dist s 0) dist ↔
      d = 0 ∧ (u ∈ seeds ∨ (u, 0) ∈ dist) := by
  induction seeds generalizing dist with
  | nil =>
    simp only [List.foldl_nil, List.not_mem_nil, false_or]
    constructor
    · intro h
      obtain rfl := hdist _ h
      exact ⟨rfl, h⟩
    · rintro ⟨rfl, h⟩
      exact h
  | cons s seeds ih =>
    have hinsert : ∀ e ∈ insert dist s 0, e.2 = 0 := by
      rintro ⟨v, d⟩ he
      exact (mem_insert.mp he).elim And.right fun h => hdist _ h.1
    rw [List.foldl_cons, ih hinsert, mem_insert, List.mem_cons]
    tauto

theorem nodup_seeds (seeds : List ℤ) {dist : List (ℤ × ℕ)} (h : (dist.map Prod.fst).Nodup) :
    ((seeds.foldl (fun dist s => insert dist s 0) dist).map Prod.fst).Nodup := by
  induction seeds generalizing dist with
  | nil => exact h
  | cons s seeds ih => exact ih (nodup_insert h s 0)

/-! ## One hop -/

/-- There is an edge from one node to the other. -/
def Linked (edges : List MemoryEdge) (u v : ℤ) : Prop := ∃ e ∈ edges, e.srcId = u ∧ e.dstId = v

/-- The limit is no limit. -/
def Capped (edges : List MemoryEdge) (cap : UInt64) : Prop :=
  ∀ u, (edges.filter fun e => e.srcId = u).length ≤ cap.toNat

/-- What is offered is seen and queued if it is new. -/
def Extends (w w' : Search) (hop : ℕ) (offered : ℤ → Prop) : Prop :=
  ∃ taken, Takes (· ∈ w.dist.map Prod.fst) offered taken ∧
    w'.dist = w.dist ++ taken.map (fun u => (u, hop + 1)) ∧
    w'.q = w.q ++ taken.map fun u => (u, hop + 1)

namespace Extends

variable {w w' w'' : Search} {hop : ℕ} {p q : ℤ → Prop}

theorem refl (w : Search) (hop : ℕ) : Extends w w hop fun _ => False :=
  ⟨[], Takes.nil nofun, by simp, by simp⟩

theorem congr (h : Extends w w' hop p) (hpq : ∀ u, p u ↔ q u) : Extends w w' hop q :=
  (funext fun u => propext (hpq u)) ▸ h

/-- Extending twice is extending by both. -/
theorem trans (h : Extends w w' hop p) (h' : Extends w' w'' hop q) :
    Extends w w'' hop fun u => p u ∨ q u := by
  obtain ⟨xs, hxs, hdist, hq⟩ := h
  obtain ⟨ys, hys, hdist', hq'⟩ := h'
  have hseen (u : ℤ) : u ∈ w'.dist.map Prod.fst ↔ u ∈ w.dist.map Prod.fst ∨ u ∈ xs := by
    rw [hdist, List.map_append, List.mem_append]
    simp
  simp only [hseen] at hys
  exact ⟨xs ++ ys, hxs.append hys, by simp [hdist', hdist], by simp [hq', hq]⟩

end Extends

/-- A visit adds a node, unless it was found. -/
theorem extends_visit (hop : ℕ) (w : Search) (dst : ℤ) :
    Extends w (visit hop w dst) hop (· = dst) := by
  rw [visit]
  split
  next hseen => exact ⟨[], Takes.nil fun u hu => hu ▸ hseen, by simp, by simp⟩
  next hnew => exact ⟨[dst], Takes.singleton hnew, rfl, rfl⟩

/-- All visits add the nodes of the rows. -/
theorem extends_foldl (hop : ℕ) (rows : List ℤ) (w : Search) :
    Extends w (rows.foldl (visit hop) w) hop (· ∈ rows) := by
  induction rows generalizing w with
  | nil => exact (Extends.refl w hop).congr (by simp)
  | cons dst rows ih =>
    refine ((extends_visit hop w dst).trans (ih _)).congr fun u => ?_
    rw [List.mem_cons]

section Correctness

variable [ReadOrder] {edges : List MemoryEdge} {seeds : List ℤ} {maxHops : UInt8} {cap : UInt64}

/-- Where nothing is cut off, the rows are the neighbors. -/
theorem mem_selectDst (hcap : Capped edges cap) {u v : ℤ} :
    v ∈ selectDst edges cap u ↔ Linked edges u v := by
  have hperm := ReadOrder.rows_perm (edges.filter fun e => e.srcId = u)
  have hall : sqlLimit cap (ReadOrder.rows (edges.filter fun e => e.srcId = u)) =
      ReadOrder.rows (edges.filter fun e => e.srcId = u) := by
    rw [sqlLimit, List.take_of_length_le (hperm.length_eq ▸ hcap u), ite_self]
  rw [selectDst, hall, (hperm.map _).mem_iff]
  simp [Linked, and_assoc]

/-- **The nodes of one hop are worked off.** -/
theorem loop_level (hcap : Capped edges cap) {hop : ℕ} (hlt : hop < maxHops.toNat)
    (frontier : List ℤ) (dist q : List (ℤ × ℕ)) :
    ∃ w, Extends { dist, q } w hop (fun v => ∃ u ∈ frontier, Linked edges u v) ∧
      ∀ fuel, loop edges maxHops cap (fuel + frontier.length) dist
        ((frontier.map fun u => (u, hop)) ++ q) = loop edges maxHops cap fuel w.dist w.q := by
  induction frontier generalizing dist q with
  | nil => exact ⟨{ dist, q }, (Extends.refl _ hop).congr (by simp), fun fuel => rfl⟩
  | cons u frontier ih =>
    obtain ⟨taken, htakes, hdist, hq⟩ := extends_foldl hop (selectDst edges cap u)
      { dist, q := (frontier.map fun u => (u, hop)) ++ q }
    have hfirst : Extends { dist, q }
        ⟨dist ++ taken.map fun u => (u, hop + 1), q ++ taken.map fun u => (u, hop + 1)⟩ hop
        (Linked edges u) :=
      ⟨taken, htakes.congr fun v => mem_selectDst hcap, rfl, rfl⟩
    obtain ⟨w, hw, hloop⟩ := ih (dist ++ taken.map fun u => (u, hop + 1))
      (q ++ taken.map fun u => (u, hop + 1))
    refine ⟨w, (hfirst.trans hw).congr fun v => by simp, fun fuel => ?_⟩
    rw [← hloop fuel, List.length_cons, ← Nat.add_assoc, List.map_cons, List.cons_append, loop,
      if_neg (not_le.mpr hlt)]
    simp only [hdist, hq, List.append_assoc]

/-- At the last hop the edges are not looked at. -/
theorem loop_last {hop : ℕ} (hle : maxHops.toNat ≤ hop) (frontier : List ℤ)
    (dist : List (ℤ × ℕ)) (fuel : ℕ) :
    loop edges maxHops cap (fuel + frontier.length) dist (frontier.map fun u => (u, hop)) =
      some dist := by
  induction frontier with
  | nil => simp [loop]
  | cons u frontier ih =>
    rw [List.length_cons, ← Nat.add_assoc, List.map_cons, loop, if_pos hle]
    exact ih

/-! ## All hops -/

/-- The loop finds every distance up to the bound. -/
theorem loop_exact (hcap : Capped edges cap) {S : ℤ → Prop} {k : ℕ} {dist : List (ℤ × ℕ)}
    {frontier : List ℤ} (h : AtDistance (Linked edges) S k dist frontier)
    (hk : k ≤ maxHops.toNat) :
    ∃ turns dist', (∀ fuel, loop edges maxHops cap (fuel + turns) dist
        (frontier.map fun u => (u, k)) = some dist') ∧
      (∀ u d, (u, d) ∈ dist' ↔ d ≤ maxHops.toNat ∧ Distance (Linked edges) S d u) ∧
      (dist'.map Prod.fst).Nodup := by
  obtain ⟨n, hn⟩ := Nat.exists_eq_add_of_le hk
  induction n generalizing k dist frontier with
  | zero =>
    refine ⟨frontier.length, dist, loop_last hn.le frontier dist, ?_, h.nodup⟩
    rw [hn]
    exact h.found_iff
  | succ n ih =>
    have hlt : k < maxHops.toNat := by omega
    obtain ⟨w, ⟨taken, htakes, hdist, hq⟩, hlevel⟩ := loop_level hcap hlt frontier dist []
    obtain ⟨turns, dist', hloop, hexact⟩ := ih (h.turn htakes) (by omega) (by omega)
    refine ⟨turns + frontier.length, dist', fun fuel => ?_, hexact⟩
    rw [List.append_nil] at hlevel
    rw [← Nat.add_assoc, hlevel, hdist, hq, List.nil_append, hloop]

/-- What is collected: everything but the seeds. -/
theorem mem_collect {dist : List (ℤ × ℕ)} {v : ℤ} {d : ℕ} :
    (v, d) ∈ collect seeds dist ↔ (v, d) ∈ dist ∧ v ∉ seeds := by
  rw [collect, (List.mergeSort_perm _ _).mem_iff, List.mem_filter,
    (ReadOrder.entries_perm dist).mem_iff, decide_eq_true_eq]

theorem nodup_collect {dist : List (ℤ × ℕ)} (h : (dist.map Prod.fst).Nodup) :
    ((collect seeds dist).map Prod.fst).Nodup := by
  rw [collect, ((List.mergeSort_perm _ _).map Prod.fst).nodup_iff]
  refine List.Nodup.sublist (List.filter_sublist.map _) ?_
  exact ((ReadOrder.entries_perm dist).map Prod.fst).nodup_iff.mpr h

/-- What is collected is in the order of the distances. -/
theorem pairwise_collect (dist : List (ℤ × ℕ)) :
    (collect seeds dist).Pairwise fun a b => a.2 ≤ b.2 := by
  have hle : (collect seeds dist).Pairwise fun a b => decide (a.2 ≤ b.2) = true := by
    apply List.pairwise_mergeSort
    · intro a b c hab hbc
      exact decide_eq_true ((of_decide_eq_true hab).trans (of_decide_eq_true hbc))
    · intro a b
      simpa using le_total a.2 b.2
  exact hle.imp of_decide_eq_true

omit [ReadOrder] in
/-- A node that is no seed is at least one hop away. -/
theorem pos_iff_not_mem {d : ℕ} {v : ℤ} (h : Distance (Linked edges) (· ∈ seeds) d v) :
    1 ≤ d ↔ v ∉ seeds := by
  constructor
  · intro hpos hv
    have hzero := h.unique (distance_zero.mpr hv)
    omega
  · intro hv
    rw [Nat.one_le_iff_ne_zero]
    rintro rfl
    exact hv (distance_zero.mp h)

/-- **Multi-hop expansion is breadth-first exact.** -/
theorem multiHopNeighbors_exact (hcap : Capped edges cap) (seeds : List ℤ) (maxHops : UInt8) :
    ∃ turns out, (∀ fuel, turns ≤ fuel →
        multiHopNeighbors fuel edges seeds maxHops cap = some out) ∧
      (∀ v d, (v, d) ∈ out ↔
        1 ≤ d ∧ d ≤ maxHops.toNat ∧ Distance (Linked edges) (· ∈ seeds) d v) ∧
      (out.map Prod.fst).Nodup ∧ out.Pairwise fun a b => a.2 ≤ b.2 := by
  by_cases htrivial : seeds.isEmpty || maxHops == 0
  · refine ⟨0, [], fun fuel _ => by rw [multiHopNeighbors, if_pos htrivial], fun v d => ?_,
      List.nodup_nil, List.Pairwise.nil⟩
    refine iff_of_false List.not_mem_nil ?_
    rintro ⟨hpos, hle, hdist⟩
    rcases (Bool.or_eq_true _ _).mp htrivial with hseeds | hmax
    · obtain rfl := List.isEmpty_iff.mp hseeds
      refine not_distance_of_empty (Nat.zero_le d) (fun u hu => ?_) v hdist
      exact List.not_mem_nil (distance_zero.mp hu)
    · rw [beq_iff_eq.mp hmax] at hle
      exact absurd (hpos.trans hle) (by decide)
  · have hstart : AtDistance (Linked edges) (· ∈ seeds) 0
        (seeds.foldl (fun dist s => insert dist s 0) []) seeds :=
      .start (fun u d => by simp [mem_seeds]) (nodup_seeds seeds List.nodup_nil)
        fun u => Iff.rfl
    obtain ⟨turns, dist, hloop, hmem, hnodup⟩ := loop_exact hcap hstart maxHops.toNat.zero_le
    refine ⟨turns, collect seeds dist, fun fuel hfuel => ?_, fun v d => ?_,
      nodup_collect hnodup, pairwise_collect dist⟩
    · obtain ⟨n, rfl⟩ := Nat.exists_eq_add_of_le' hfuel
      rw [multiHopNeighbors, if_neg htrivial]
      simp only [hloop n, Option.map_some]
    · rw [mem_collect, hmem, and_assoc]
      constructor
      · rintro ⟨hle, hdist, hv⟩
        exact ⟨(pos_iff_not_mem hdist).mpr hv, hle, hdist⟩
      · rintro ⟨hpos, hle, hdist⟩
        exact ⟨hle, hdist, (pos_iff_not_mem hdist).mp hpos⟩

end Correctness

/-- A cycle with two edges between its nodes, from a seed that is given twice. -/
def cycle : List MemoryEdge :=
  [⟨1, 2, ['a']⟩, ⟨1, 2, ['b']⟩, ⟨2, 3, ['a']⟩, ⟨3, 1, ['a']⟩]

/-- A cycle, from one of its nodes. -/
theorem cycle_exact : Capped cycle 2 ∧ ∃ turns out, (∀ fuel, turns ≤ fuel →
      @multiHopNeighbors .asStored fuel cycle [1, 1] 255 2 = some out) ∧
    (∀ v d, (v, d) ∈ out ↔
      1 ≤ d ∧ d ≤ (255 : UInt8).toNat ∧ Distance (Linked cycle) (· ∈ [1, 1]) d v) ∧
    (out.map Prod.fst).Nodup ∧ out.Pairwise fun a b => a.2 ≤ b.2 := by
  have hcap : Capped cycle 2 := by
    intro u
    by_cases hone : 1 = u
    · rw [← hone]
      decide
    · -- the other two edges are enough for every other node
      have hfirst : cycle.filter (fun e => e.srcId = u) =
          (cycle.drop 2).filter fun e => e.srcId = u := by
        simp [cycle, hone]
      rw [hfirst]
      exact List.length_filter_le _ _
  exact ⟨hcap, @multiHopNeighbors_exact .asStored cycle 2 hcap [1, 1] 255⟩

example : @loop .asStored cycle 255 2 4 [(1, 0)] [(1, 0), (1, 0)] =
    some [(1, 0), (2, 1), (3, 2)] := by
  decide

end SynapseMemory.MultiHop
