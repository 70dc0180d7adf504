import SynapseMemory.EdgeTable
import SynapseMemory.WeightedWalks

/-!
# Shortest paths with a hop limit

The model of `shortest_path`, Dijkstra's algorithm over the edge table with a largest number of
hops. Of a binary heap it is only used that an entry of least cost is popped (`MinHeap`), and the
rows of a node come in any order (`RowOrder`).

A node is settled by the first entry that is popped for it with hops to spare, however many these
are, and later entries for it are dropped. What is returned is always a path of the table with its
cost, and the search ends (`shortestPath_ends`). It is a cheapest one within the limit if some
cheapest route is open (`shortestPath_best`). Else a cheap walk of many hops can cut off a dearer
one of few.
-/

namespace SynapseMemory

namespace Edges

open WeightedWalks

/-- An entry of the heap. -/
structure DjState (F : Type) where
  cost : F
  node : ℤ
  path : List ℤ

/-- `BinaryHeap::pop`, as the entries are ordered: one of least cost. -/
structure MinHeap (F : Type) [LinearOrder F] where
  pop : List (DjState F) → Option (DjState F × List (DjState F))
  pop_none : ∀ l, pop l = none → l = []
  pop_some : ∀ l x rest, pop l = some (x, rest) → l.Perm (x :: rest) ∧ ∀ y ∈ l, x.cost ≤ y.cost

/-- The rows of a query without `ORDER BY`. -/
structure RowOrder (F : Type) where
  order : List (Edge F) → List (Edge F)
  perm : ∀ l, (order l).Perm l

/-- What the loop has so far: the costs at which nodes are settled, and the entries of the heap. -/
structure Dijkstra (F : Type) where
  visited : List (ℤ × F)
  heap : List (DjState F)

/-- What one turn of the loop leads to. -/
inductive Turn (F : Type) where
  | done (result : Option (F × List ℤ))
  | next (s : Dijkstra F)

namespace EdgeTable

variable {F : Type} [Field F] [LinearOrder F]

/-- `(1.0 - w).max(0.0)` -/
def edgeCost (weight : F) : F := max (1 - weight) 0

section Loop

variable (t : EdgeTable F) (queue : MinHeap F) (scan : RowOrder F) (toId : ℤ) (maxDepth : ℕ)

/-- The entries for the neighbors that are not settled. -/
def pushed (visited : List (ℤ × F)) (x : DjState F) : List (DjState F) :=
  (scan.order (t.outEdges x.node none)).filterMap fun e =>
    if (visited.lookup e.toId).isSome then none
    else some ⟨x.cost + edgeCost e.weight, e.toId, x.path ++ [x.node]⟩

/-- A turn of the loop. -/
def turn (s : Dijkstra F) : Turn F :=
  match queue.pop s.heap with
  | none => .done none
  | some (x, rest) =>
    if x.node = toId then .done (some (x.cost, x.path ++ [x.node]))
    else if (s.visited.lookup x.node).any (· ≤ x.cost) then .next { s with heap := rest }
    else if maxDepth ≤ x.path.length then .next { s with heap := rest }
    else
      let visited := (x.node, x.cost) :: s.visited
      .next { visited, heap := rest ++ t.pushed scan visited x }

/-- The loop, if it ends in so many turns. -/
def loop : ℕ → Dijkstra F → Option (Option (F × List ℤ))
  | 0, _ => none
  | fuel + 1, s =>
    match t.turn queue scan toId maxDepth s with
    | .done result => some result
    | .next s' => loop fuel s'

/-- `shortest_path`. It is `none` if the fuel does not last. -/
def shortestPath (fromId : ℤ) (fuel : ℕ) : Option (Option (F × List ℤ)) :=
  t.loop queue scan toId maxDepth fuel { visited := [], heap := [⟨0, fromId, []⟩] }

end Loop

/-- There is an edge from `u` to `v` of this cost. -/
def Costs (t : EdgeTable F) (u v : ℤ) (cost : F) : Prop :=
  ∃ e ∈ t.outEdges u none, e.toId = v ∧ edgeCost e.weight = cost

end EdgeTable

namespace Dijkstra

variable {F : Type} [Field F] [LinearOrder F] {t : EdgeTable F} {queue : MinHeap F}
  {scan : RowOrder F} {toId fromId : ℤ} {maxDepth : ℕ} {s : Dijkstra F}

/-- The nodes that are settled. -/
def settled (s : Dijkstra F) : List ℤ := s.visited.map Prod.fst

omit [Field F] [LinearOrder F] in
theorem isSome_lookup {visited : List (ℤ × F)} {v : ℤ} :
    (visited.lookup v).isSome ↔ v ∈ visited.map Prod.fst := by
  induction visited with
  | nil => simp
  | cons p visited ih =>
    rw [List.lookup_cons, List.map_cons, List.mem_cons]
    by_cases heq : v = p.1
    · simp [heq]
    · rw [beq_false_of_ne heq]
      exact ih.trans (or_iff_right heq).symm

theorem mem_pushed {visited : List (ℤ × F)} {x y : DjState F} :
    y ∈ t.pushed scan visited x ↔ y.node ∉ visited.map Prod.fst ∧ y.path = x.path ++ [x.node] ∧
      ∃ d, t.Costs x.node y.node d ∧ y.cost = x.cost + d := by
  rw [EdgeTable.pushed, List.mem_filterMap]
  constructor
  · rintro ⟨e, he, hy⟩
    split at hy
    · cases hy
    · rename_i hnew
      cases hy
      rw [isSome_lookup] at hnew
      exact ⟨hnew, rfl, _, ⟨e, (scan.perm _).mem_iff.mp he, rfl, rfl⟩, rfl⟩
  · rintro ⟨hnew, hpath, d, ⟨e, he, hto, rfl⟩, hcost⟩
    refine ⟨e, (scan.perm _).mem_iff.mpr he, ?_⟩
    rw [if_neg (by rwa [hto, isSome_lookup]), hto, ← hcost, ← hpath]

/-- **What a turn does.** The heap is empty, the target is reached, an entry is dropped, or its node
is settled. -/
theorem turn_cases (t : EdgeTable F) (queue : MinHeap F) (scan : RowOrder F) (toId : ℤ)
    (maxDepth : ℕ) (s : Dijkstra F) :
    (s.heap = [] ∧ t.turn queue scan toId maxDepth s = .done none) ∨
    ∃ x rest, s.heap.Perm (x :: rest) ∧ (∀ y ∈ s.heap, x.cost ≤ y.cost) ∧
      ((x.node = toId ∧
        t.turn queue scan toId maxDepth s = .done (some (x.cost, x.path ++ [x.node]))) ∨
      (x.node ≠ toId ∧ ((∃ c ≤ x.cost, s.visited.lookup x.node = some c) ∨
          maxDepth ≤ x.path.length) ∧
        t.turn queue scan toId maxDepth s = .next { s with heap := rest }) ∨
      (x.node ≠ toId ∧ (∀ c, s.visited.lookup x.node = some c → x.cost < c) ∧
        x.path.length < maxDepth ∧
        t.turn queue scan toId maxDepth s = .next
          { visited := (x.node, x.cost) :: s.visited
            heap := rest ++ t.pushed scan ((x.node, x.cost) :: s.visited) x })) := by
  cases hpop : queue.pop s.heap with
  | none => exact .inl ⟨queue.pop_none _ hpop, by rw [EdgeTable.turn, hpop]⟩
  | some popped =>
    obtain ⟨x, rest⟩ := popped
    obtain ⟨hperm, hleast⟩ := queue.pop_some _ _ _ hpop
    refine .inr ⟨x, rest, hperm, hleast, ?_⟩
    rw [EdgeTable.turn, hpop]
    by_cases hreached : x.node = toId
    · exact .inl ⟨hreached, by simp only [hreached, if_true]⟩
    by_cases hknown : (s.visited.lookup x.node).any (· ≤ x.cost) = true
    · have hex : ∃ c ≤ x.cost, s.visited.lookup x.node = some c := by
        cases hc : s.visited.lookup x.node with
        | none => simp [hc] at hknown
        | some c => exact ⟨c, by simpa [hc] using hknown, rfl⟩
      exact .inr (.inl ⟨hreached, .inl hex, by simp only [hreached, hknown, if_false, if_true]⟩)
    by_cases hlong : maxDepth ≤ x.path.length
    · exact .inr (.inl ⟨hreached, .inr hlong, by simp only [hreached, hknown, hlong, if_true]; rfl⟩)
    · refine .inr (.inr ⟨hreached, fun c hc => ?_, not_le.mp hlong, ?_⟩)
      · rw [hc] at hknown
        simpa using hknown
      · simp only [hreached, hknown, hlong, if_false]
        rfl

/-! ## The invariant -/

/-- An entry of the heap: a walk through settled nodes, each once, within the limit. -/
structure Entry (t : EdgeTable F) (fromId toId : ℤ) (maxDepth : ℕ) (settled : List ℤ)
    (x : DjState F) : Prop where
  walk : Walk t.Costs fromId x.path x.node x.cost
  nodup : x.path.Nodup
  settled : ∀ v ∈ x.path, v ∈ settled
  target : toId ∉ x.path
  short : x.path.length ≤ maxDepth

/-- The entries, and no settled node is dearer than any of them. -/
structure Inv (t : EdgeTable F) (fromId toId : ℤ) (maxDepth : ℕ) (s : Dijkstra F) : Prop where
  entry : ∀ x ∈ s.heap, Entry t fromId toId maxDepth s.settled x
  below : ∀ v c, s.visited.lookup v = some c → ∀ x ∈ s.heap, c ≤ x.cost

theorem Inv.start : Inv t fromId toId maxDepth { visited := [], heap := [⟨0, fromId, []⟩] } where
  entry x hx := by
    obtain rfl := List.mem_singleton.mp hx
    exact ⟨Walk.nil, List.nodup_nil, nofun, List.not_mem_nil, Nat.zero_le _⟩
  below v c hc := by cases hc

/-- Fewer entries. -/
theorem Inv.drop {x : DjState F} {rest : List (DjState F)} (h : Inv t fromId toId maxDepth s)
    (hperm : s.heap.Perm (x :: rest)) : Inv t fromId toId maxDepth { s with heap := rest } where
  entry y hy := h.entry y (hperm.mem_iff.mpr (List.mem_cons_of_mem x hy))
  below v c hc y hy := h.below v c hc y (hperm.mem_iff.mpr (List.mem_cons_of_mem x hy))

theorem Entry.mono {settled settled' : List ℤ} (hsub : ∀ v ∈ settled, v ∈ settled')
    {x : DjState F} (h : Entry t fromId toId maxDepth settled x) :
    Entry t fromId toId maxDepth settled' x :=
  ⟨h.walk, h.nodup, fun v hv => hsub v (h.settled v hv), h.target, h.short⟩

theorem notMem_settled (h : Inv t fromId toId maxDepth s) {x : DjState F} (hx : x ∈ s.heap)
    (hnew : ∀ c, s.visited.lookup x.node = some c → x.cost < c) : x.node ∉ s.settled := by
  rw [settled, ← isSome_lookup, Bool.not_eq_true, Option.isSome_eq_false_iff]
  cases hc : s.visited.lookup x.node with
  | none => rfl
  | some c => exact absurd (h.below _ c hc x hx) (not_le.mpr (hnew c hc))

theorem costs_nonneg {u v : ℤ} {d : F} (h : t.Costs u v d) : 0 ≤ d := by
  obtain ⟨e, -, -, rfl⟩ := h
  exact le_max_right _ _

variable [IsStrictOrderedRing F]

/-- A node is settled. -/
theorem Inv.settle {x : DjState F} {rest : List (DjState F)} (h : Inv t fromId toId maxDepth s)
    (hperm : s.heap.Perm (x :: rest)) (hleast : ∀ y ∈ s.heap, x.cost ≤ y.cost)
    (hreached : x.node ≠ toId)
    (hnew : ∀ c, s.visited.lookup x.node = some c → x.cost < c)
    (hshort : x.path.length < maxDepth) : Inv t fromId toId maxDepth
      { visited := (x.node, x.cost) :: s.visited
        heap := rest ++ t.pushed scan ((x.node, x.cost) :: s.visited) x } := by
  have hx : x ∈ s.heap := hperm.mem_iff.mpr List.mem_cons_self
  have hentry := h.entry x hx
  have hfresh := notMem_settled h hx hnew
  constructor
  · intro y hy
    rcases List.mem_append.mp hy with hy | hy
    · exact (h.entry y (hperm.mem_iff.mpr (List.mem_cons_of_mem x hy))).mono
        fun v hv => List.mem_cons_of_mem _ hv
    · obtain ⟨-, hpath, d, hstep, hcost⟩ := mem_pushed.mp hy
      refine ⟨?_, ?_, ?_, ?_, ?_⟩
      · rw [hpath, hcost]
        exact hentry.walk.snoc hstep
      · rw [hpath]
        exact List.nodup_append.mpr ⟨hentry.nodup, List.nodup_singleton _, fun a ha b hb heq =>
          hfresh (hentry.settled _ (by rwa [← List.mem_singleton.mp hb, ← heq]))⟩
      · intro v hv
        rw [hpath] at hv
        rcases List.mem_append.mp hv with hv | hv
        · exact List.mem_cons_of_mem _ (hentry.settled v hv)
        · exact List.mem_cons.mpr (.inl (List.mem_singleton.mp hv))
      · rw [hpath]
        intro htarget
        rcases List.mem_append.mp htarget with hv | hv
        · exact hentry.target hv
        · exact hreached (List.mem_singleton.mp hv).symm
      · rw [hpath, List.length_append, List.length_singleton]
        exact hshort
  · intro v c hc y hy
    have hxy : x.cost ≤ y.cost := by
      rcases List.mem_append.mp hy with hy | hy
      · exact hleast y (hperm.mem_iff.mpr (List.mem_cons_of_mem x hy))
      · obtain ⟨-, -, d, hstep, hcost⟩ := mem_pushed.mp hy
        rw [hcost]
        exact le_add_of_nonneg_right (costs_nonneg hstep)
    rw [List.lookup_cons] at hc
    split at hc
    · exact (Option.some.inj hc).symm.le.trans hxy
    · exact (h.below v c hc x hx).trans hxy

/-- **One turn keeps the invariant.** -/
theorem Inv.next {s' : Dijkstra F} (h : Inv t fromId toId maxDepth s)
    (hturn : t.turn queue scan toId maxDepth s = .next s') : Inv t fromId toId maxDepth s' := by
  obtain ⟨-, hdone⟩ | ⟨x, rest, hperm, hleast, ⟨-, hdone⟩ | ⟨-, -, hnext⟩ |
    ⟨hreached, hnew, hshort, hnext⟩⟩ := turn_cases t queue scan toId maxDepth s
  · rw [hdone] at hturn
    cases hturn
  · rw [hdone] at hturn
    cases hturn
  · rw [hnext] at hturn
    cases hturn
    exact h.drop hperm
  · rw [hnext] at hturn
    cases hturn
    exact h.settle hperm hleast hreached hnew hshort

/-! ## The end of the loop -/

/-- Entries, and rows of nodes that are not settled. -/
def potential (t : EdgeTable F) (s : Dijkstra F) : ℕ :=
  s.heap.length + (t.rows.filter fun e => e.fromId ∉ s.settled).length

omit [Field F] [LinearOrder F] [IsStrictOrderedRing F] in
theorem length_filter_settle (rows : List (Edge F)) {settled : List ℤ} {v : ℤ}
    (hv : v ∉ settled) :
    (rows.filter fun e => e.fromId ∉ v :: settled).length +
      (rows.filter fun e => e.fromId == v).length =
        (rows.filter fun e => e.fromId ∉ settled).length := by
  induction rows with
  | nil => rfl
  | cons e rows ih =>
    by_cases heq : e.fromId = v
    · simp [heq, hv] at ih ⊢
      omega
    · by_cases hmem : e.fromId ∈ settled
      · simpa [heq, hmem] using ih
      · simp [heq, hmem] at ih ⊢
        omega

omit [IsStrictOrderedRing F] in
theorem length_pushed_le (visited : List (ℤ × F)) (x : DjState F) :
    (t.pushed scan visited x).length ≤ (t.rows.filter fun e => e.fromId == x.node).length := by
  have hout : t.outEdges x.node none = t.rows.filter fun e => e.fromId == x.node := by
    simp [EdgeTable.outEdges]
  rw [EdgeTable.pushed, ← hout, ← (scan.perm (t.outEdges x.node none)).length_eq]
  exact List.length_filterMap_le _ _

omit [IsStrictOrderedRing F] in
theorem potential_next {s' : Dijkstra F} (h : Inv t fromId toId maxDepth s)
    (hturn : t.turn queue scan toId maxDepth s = .next s') : potential t s' < potential t s := by
  obtain ⟨-, hdone⟩ | ⟨x, rest, hperm, -, ⟨-, hdone⟩ | ⟨-, -, hnext⟩ | ⟨-, hnew, -, hnext⟩⟩ :=
    turn_cases t queue scan toId maxDepth s
  · rw [hdone] at hturn
    cases hturn
  · rw [hdone] at hturn
    cases hturn
  · rw [hnext] at hturn
    cases hturn
    rw [potential, potential, hperm.length_eq, List.length_cons]
    exact Nat.add_lt_add_right (Nat.lt_succ_self _) _
  · rw [hnext] at hturn
    cases hturn
    have hfresh := notMem_settled h (hperm.mem_iff.mpr List.mem_cons_self) hnew
    have hrows := length_filter_settle t.rows hfresh
    have hpushed : (t.pushed scan ((x.node, x.cost) :: s.visited) x).length ≤
        (t.rows.filter fun e => e.fromId == x.node).length := length_pushed_le _ x
    have hsettled : settled
        { visited := (x.node, x.cost) :: s.visited
          heap := rest ++ t.pushed scan ((x.node, x.cost) :: s.visited) x } =
            x.node :: s.settled := rfl
    rw [potential, potential, hperm.length_eq, hsettled, List.length_cons, List.length_append]
    omega

/-- **The loop ends.** -/
theorem exists_loop {fuel : ℕ} (h : Inv t fromId toId maxDepth s) (hfuel : potential t s < fuel) :
    ∃ result, t.loop queue scan toId maxDepth fuel s = some result := by
  induction fuel generalizing s with
  | zero => exact absurd hfuel (Nat.not_lt_zero _)
  | succ fuel ih =>
    rw [EdgeTable.loop]
    cases hturn : t.turn queue scan toId maxDepth s with
    | done result => exact ⟨result, rfl⟩
    | next s' => exact ih (h.next hturn) (by have hless := potential_next h hturn; omega)

omit [IsStrictOrderedRing F] in
/-- A loop that ended does not need more turns. -/
theorem loop_mono {fuel fuel' : ℕ} {result : Option (F × List ℤ)} (hle : fuel ≤ fuel')
    (hloop : t.loop queue scan toId maxDepth fuel s = some result) :
    t.loop queue scan toId maxDepth fuel' s = some result := by
  induction fuel generalizing s fuel' with
  | zero => cases hloop
  | succ fuel ih =>
    obtain ⟨fuel', rfl⟩ : ∃ n, fuel' = n + 1 := ⟨fuel' - 1, by omega⟩
    rw [EdgeTable.loop] at hloop ⊢
    cases hturn : t.turn queue scan toId maxDepth s with
    | done _ => rwa [hturn] at hloop
    | next s' =>
      rw [hturn] at hloop
      exact ih (Nat.le_of_succ_le_succ hle) hloop

/-! ## What is returned -/

/-- A result is a path of the table within the limit, with its cost. -/
def Valid (t : EdgeTable F) (fromId toId : ℤ) (maxDepth : ℕ) (result : Option (F × List ℤ)) :
    Prop :=
  ∀ c p, result = some (c, p) →
    ∃ path, p = path ++ [toId] ∧ path.length ≤ maxDepth ∧ Walk t.Costs fromId path toId c

theorem valid_loop {fuel : ℕ} {result : Option (F × List ℤ)} (h : Inv t fromId toId maxDepth s)
    (hloop : t.loop queue scan toId maxDepth fuel s = some result) :
    Valid t fromId toId maxDepth result := by
  induction fuel generalizing s with
  | zero => cases hloop
  | succ fuel ih =>
    rw [EdgeTable.loop] at hloop
    cases hturn : t.turn queue scan toId maxDepth s with
    | next s' =>
      rw [hturn] at hloop
      exact ih (h.next hturn) hloop
    | done r =>
      rw [hturn] at hloop
      obtain rfl := Option.some.inj hloop
      rintro c p rfl
      obtain ⟨-, hdone⟩ | ⟨x, rest, hperm, -, ⟨rfl, hdone⟩ | ⟨-, -, hnext⟩ | ⟨-, -, -, hnext⟩⟩ :=
        turn_cases t queue scan toId maxDepth s
      · rw [hdone] at hturn
        cases hturn
      · rw [hdone] at hturn
        cases hturn
        have hentry := h.entry x (hperm.mem_iff.mpr List.mem_cons_self)
        exact ⟨x.path, rfl, hentry.short, hentry.walk⟩
      · rw [hnext] at hturn
        cases hturn
      · rw [hnext] at hturn
        cases hturn

/-! ## A route that is not cut off -/

section Route

variable {m : ℕ}

/-- From some node on a route is not settled, and the heap has an entry for this node that is not
dearer and leaves enough hops for the rest. -/
def Ahead (P : Route t.Costs fromId toId m) (maxDepth : ℕ) (s : Dijkstra F) : Prop :=
  ∃ k ≤ m, (∀ j, k ≤ j → j ≤ m → P.node j ∉ s.settled) ∧
    ∃ e ∈ s.heap, e.node = P.node k ∧ e.cost ≤ P.cost k ∧ e.path.length + (m - k) ≤ maxDepth

omit [IsStrictOrderedRing F] in
theorem Ahead.start (P : Route t.Costs fromId toId m) (hm : m ≤ maxDepth) :
    Ahead P maxDepth { visited := [], heap := [⟨0, fromId, []⟩] } :=
  ⟨0, Nat.zero_le m, fun _ _ _ => List.not_mem_nil, ⟨0, fromId, []⟩, List.mem_singleton_self _,
    P.node_zero.symm, P.cost_zero.ge, by simpa using hm⟩

/-- The last node of a route from `k` on with a property. -/
theorem exists_last {P : ℕ → Prop} {k m i : ℕ} (hki : k ≤ i) (him : i ≤ m) (hi : P i) :
    ∃ l, k ≤ l ∧ l ≤ m ∧ P l ∧ ∀ j, l < j → j ≤ m → ¬P j := by
  classical
  have hle := Nat.findGreatest_le (P := P) m
  refine ⟨Nat.findGreatest P m, hki.trans (Nat.le_findGreatest him hi), hle,
    Nat.findGreatest_spec him hi, fun j hj hjm => Nat.findGreatest_is_greatest hj hjm⟩

variable {P : Route t.Costs fromId toId m}

omit [IsStrictOrderedRing F] in
/-- An entry is dropped that the route does not need. -/
theorem Ahead.drop (h : Ahead P maxDepth s) {x : DjState F} {rest : List (DjState F)}
    (hperm : s.heap.Perm (x :: rest)) (hreached : x.node ≠ toId)
    (hdropped : x.node ∈ s.settled ∨ maxDepth ≤ x.path.length) :
    Ahead P maxDepth { s with heap := rest } := by
  obtain ⟨k, hk, hnew, e, he, hnode, hcost, hfit⟩ := h
  refine ⟨k, hk, hnew, e, ?_, hnode, hcost, hfit⟩
  refine (List.mem_cons.mp (hperm.mem_iff.mp he)).resolve_left ?_
  rintro rfl
  rcases hdropped with hsettled | hlong
  · exact hnew k le_rfl hk (hnode ▸ hsettled)
  · have hend : k = m := by omega
    exact hreached (hnode.trans (hend ▸ P.node_length))

/-- **A node is settled.** Where it is one of the route, the rest of the route fits, since the route
is open. -/
theorem Ahead.settle (hopen : P.Open maxDepth) (hinv : Inv t fromId toId maxDepth s)
    (h : Ahead P maxDepth s) {x : DjState F} {rest : List (DjState F)}
    (hperm : s.heap.Perm (x :: rest)) (hleast : ∀ y ∈ s.heap, x.cost ≤ y.cost)
    (hreached : x.node ≠ toId)
    (hnew : ∀ c, s.visited.lookup x.node = some c → x.cost < c)
    (hshort : x.path.length < maxDepth) : Ahead P maxDepth
      { visited := (x.node, x.cost) :: s.visited
        heap := rest ++ t.pushed scan ((x.node, x.cost) :: s.visited) x } := by
  obtain ⟨k, hk, hahead, e, he, hnode, hcost, hfit⟩ := h
  by_cases hroute : ∃ i, k ≤ i ∧ i ≤ m ∧ P.node i = x.node
  · obtain ⟨i, hki, him, hi⟩ := hroute
    obtain ⟨l, hkl, hlm, hl, hlast⟩ := exists_last (P := fun j => P.node j = x.node) hki him hi
    have hless : l < m := by
      refine lt_of_le_of_ne hlm fun heq => hreached ?_
      rw [← hl, heq, P.node_length]
    have hx : x ∈ s.heap := hperm.mem_iff.mpr List.mem_cons_self
    have hentry := hinv.entry x hx
    have hle : x.cost ≤ P.cost l :=
      (hleast e he).trans (hcost.trans (P.cost_mono (fun _ _ _ => costs_nonneg) hkl hlm))
    have hlater : ∀ j, l < j → j ≤ m → P.node j ∉ x.path := fun j hj hjm hmem =>
      hahead j (hkl.trans hj.le) hjm (hentry.settled _ hmem)
    have hsimple : (x.path ++ [P.node l]).Nodup := by
      rw [List.nodup_append]
      refine ⟨hentry.nodup, List.nodup_singleton _, fun a ha b hb heq => ?_⟩
      rw [List.mem_singleton] at hb
      exact hahead l hkl hlm (hentry.settled _ (by rwa [← hb, ← heq]))
    have hrest := hopen l hless x.path x.cost (hl ▸ hentry.walk) hsimple hentry.target hlater
      hshort hle
    obtain ⟨d, hstep, hnext⟩ := P.step l hless
    have hunsettled : ∀ j, l + 1 ≤ j → j ≤ m → P.node j ∉ x.node :: s.settled := by
      intro j hj hjm hmem
      rcases List.mem_cons.mp hmem with heq | hmem
      · exact hlast j hj hjm heq
      · exact hahead j (hkl.trans (Nat.le_of_succ_le hj)) hjm hmem
    refine ⟨l + 1, hless, hunsettled, ⟨x.cost + d, P.node (l + 1), x.path ++ [x.node]⟩,
      List.mem_append_right _ (mem_pushed.mpr ?_), rfl, ?_, ?_⟩
    · exact ⟨hunsettled (l + 1) le_rfl hless, rfl, d, hl ▸ hstep, rfl⟩
    · rw [hnext]
      exact add_le_add_left hle d
    · rw [List.length_append, List.length_singleton]
      omega
  · refine ⟨k, hk, fun j hj hjm hmem => ?_, e, List.mem_append_left _ ?_, hnode, hcost, hfit⟩
    · rcases List.mem_cons.mp hmem with heq | hmem
      · exact hroute ⟨j, hj, hjm, heq⟩
      · exact hahead j hj hjm hmem
    · refine (List.mem_cons.mp (hperm.mem_iff.mp he)).resolve_left ?_
      rintro rfl
      exact hroute ⟨k, le_rfl, hk, hnode.symm⟩

theorem Ahead.next (hopen : P.Open maxDepth) (hinv : Inv t fromId toId maxDepth s)
    (h : Ahead P maxDepth s) {s' : Dijkstra F}
    (hturn : t.turn queue scan toId maxDepth s = .next s') : Ahead P maxDepth s' := by
  obtain ⟨-, hdone⟩ | ⟨x, rest, hperm, hleast, ⟨-, hdone⟩ | ⟨hreached, hdropped, hnext⟩ |
    ⟨hreached, hnew, hshort, hnext⟩⟩ := turn_cases t queue scan toId maxDepth s
  · rw [hdone] at hturn
    cases hturn
  · rw [hdone] at hturn
    cases hturn
  · rw [hnext] at hturn
    cases hturn
    refine h.drop hperm hreached (hdropped.imp ?_ id)
    rintro ⟨c, -, hc⟩
    exact isSome_lookup.mp (by rw [hc]; rfl)
  · rw [hnext] at hturn
    cases hturn
    exact h.settle hopen hinv hperm hleast hreached hnew hshort

/-- The target is found at no greater cost. -/
theorem Ahead.best_loop (hopen : P.Open maxDepth) {fuel : ℕ} {result : Option (F × List ℤ)}
    (hinv : Inv t fromId toId maxDepth s) (h : Ahead P maxDepth s)
    (hloop : t.loop queue scan toId maxDepth fuel s = some result) :
    ∃ c p, result = some (c, p) ∧ c ≤ P.cost m := by
  induction fuel generalizing s with
  | zero => cases hloop
  | succ fuel ih =>
    rw [EdgeTable.loop] at hloop
    cases hturn : t.turn queue scan toId maxDepth s with
    | next s' =>
      rw [hturn] at hloop
      exact ih (hinv.next hturn) (h.next hopen hinv hturn) hloop
    | done r =>
      rw [hturn] at hloop
      obtain rfl := Option.some.inj hloop
      obtain ⟨k, hk, -, e, he, -, hcost, -⟩ := h
      obtain ⟨hempty, -⟩ | ⟨x, rest, -, hleast, ⟨-, hdone⟩ | ⟨-, -, hnext⟩ | ⟨-, -, -, hnext⟩⟩ :=
        turn_cases t queue scan toId maxDepth s
      · rw [hempty] at he
        cases he
      · rw [hdone] at hturn
        cases hturn
        have hmono := P.cost_mono (fun _ _ _ => costs_nonneg) hk le_rfl
        exact ⟨_, _, rfl, (hleast e he).trans (hcost.trans hmono)⟩
      · rw [hnext] at hturn
        cases hturn
      · rw [hnext] at hturn
        cases hturn

end Route

/-! ## When the path is a cheapest one -/

/-- What is returned is a path of least cost within the limit, and nothing only if there is none. -/
structure Correct (t : EdgeTable F) (fromId toId : ℤ) (maxDepth : ℕ)
    (result : Option (F × List ℤ)) : Prop where
  valid : Valid t fromId toId maxDepth result
  cheapest : ∀ c p, result = some (c, p) → ∀ path c', Walk t.Costs fromId path toId c' →
    path.length ≤ maxDepth → c ≤ c'
  nothing : result = none → ∀ path c, Walk t.Costs fromId path toId c → maxDepth < path.length

/-- There is no path within the limit, or some cheapest one is not cut off. -/
def NotCutOff (t : EdgeTable F) (fromId toId : ℤ) (maxDepth : ℕ) : Prop :=
  (∀ path c, Walk t.Costs fromId path toId c → maxDepth < path.length) ∨
    ∃ m ≤ maxDepth, ∃ P : Route t.Costs fromId toId m, P.Cheapest maxDepth ∧ P.Open maxDepth

/-- Nothing is cut off if the limit allows for the start and all nodes that edges lead to. -/
theorem notCutOff_of_card (t : EdgeTable F) (fromId toId : ℤ) {maxDepth : ℕ}
    (hcard : (fromId :: t.rows.map Edge.toId).toFinset.card ≤ maxDepth + 1) :
    NotCutOff t fromId toId maxDepth := by
  by_cases hnone : ∀ path c, Walk t.Costs fromId path toId c → maxDepth < path.length
  · exact .inl hnone
  · push Not at hnone
    obtain ⟨path, c, hwalk, hlimit⟩ := hnone
    have hnodes : ∀ u v d, t.Costs u v d → v ∈ (fromId :: t.rows.map Edge.toId).toFinset := by
      rintro u v d ⟨e, he, rfl, -⟩
      rw [List.mem_toFinset]
      exact List.mem_cons_of_mem _ (List.mem_map_of_mem (List.mem_filter.mp he).1)
    have hfinite : {e : ℤ × ℤ × F | t.Costs e.1 e.2.1 e.2.2}.Finite := by
      refine (List.finite_toSet (t.rows.map fun e =>
        (e.fromId, e.toId, EdgeTable.edgeCost e.weight))).subset ?_
      rintro ⟨u, v, d⟩ ⟨e, he, rfl, rfl⟩
      obtain ⟨hrow, hfrom⟩ := List.mem_filter.mp he
      have hu : e.fromId = u := by simpa using hfrom
      exact List.mem_map.mpr ⟨e, hrow, by rw [hu]⟩
    exact .inr (exists_open_route (by simp) hnodes hfinite (fun _ _ _ => costs_nonneg) hcard hwalk
      hlimit)

/-- **The search ends with a path of the table, and with a cheapest one within the limit if that is
not cut off.** -/
theorem shortestPath_correct (t : EdgeTable F) (queue : MinHeap F) (scan : RowOrder F)
    (fromId toId : ℤ) (maxDepth : ℕ) : ∃ result,
      (∀ fuel, t.rows.length + 2 ≤ fuel →
        t.shortestPath queue scan toId maxDepth fromId fuel = some result) ∧
      Valid t fromId toId maxDepth result ∧
      (NotCutOff t fromId toId maxDepth → Correct t fromId toId maxDepth result) := by
  have hstart : Inv t fromId toId maxDepth { visited := [], heap := [⟨0, fromId, []⟩] } := Inv.start
  have hpotential : potential t { visited := [], heap := [⟨0, fromId, []⟩] } <
      t.rows.length + 2 := by
    have hrows := List.length_filter_le
      (fun e => decide (e.fromId ∉ settled ⟨[], [⟨(0 : F), fromId, []⟩]⟩)) t.rows
    rw [potential, List.length_singleton]
    omega
  obtain ⟨result, hresult⟩ : ∃ result, t.loop queue scan toId maxDepth (t.rows.length + 2)
      { visited := [], heap := [⟨0, fromId, []⟩] } = some result := exists_loop hstart hpotential
  have hvalid := valid_loop hstart hresult
  refine ⟨result, fun fuel hfuel => loop_mono hfuel hresult, hvalid, ?_⟩
  rintro (hnone | ⟨m, hm, P, hcheapest, hopen⟩)
  · have hempty : result = none := by
      cases hr : result with
      | none => rfl
      | some r =>
        obtain ⟨path, -, hlength, hwalk⟩ := hvalid r.1 r.2 hr
        exact absurd (hnone path r.1 hwalk) (not_lt.mpr hlength)
    refine ⟨hvalid, fun c p hr => ?_, fun _ => hnone⟩
    rw [hempty] at hr
    cases hr
  · obtain ⟨c, p, rfl, hle⟩ := (Ahead.start P hm).best_loop hopen hstart hresult
    refine ⟨hvalid, fun c' p' hr path d hwalk hlength => ?_, fun hr => by cases hr⟩
    obtain ⟨rfl, rfl⟩ : c = c' ∧ p = p' := Prod.mk.inj (Option.some.inj hr)
    exact hle.trans (hcheapest path d hwalk hlength)

end Dijkstra

/-- A heap as a sorted list. -/
def sortedHeap : MinHeap ℚ where
  pop l :=
    match l.insertionSort fun x y => x.cost ≤ y.cost with
    | [] => none
    | x :: rest => some (x, rest)
  pop_none l hl := by
    have hperm := List.perm_insertionSort (fun x y : DjState ℚ => x.cost ≤ y.cost) l
    cases hsort : l.insertionSort fun x y => x.cost ≤ y.cost with
    | nil => exact (hsort ▸ hperm).symm.eq_nil
    | cons x rest => rw [hsort] at hl; cases hl
  pop_some l x rest hl := by
    have htotal : Std.Total fun x y : DjState ℚ => x.cost ≤ y.cost :=
      ⟨fun x y => le_total x.cost y.cost⟩
    have htrans : IsTrans (DjState ℚ) fun x y => x.cost ≤ y.cost :=
      ⟨fun _ _ _ => le_trans⟩
    have hperm := List.perm_insertionSort (fun x y : DjState ℚ => x.cost ≤ y.cost) l
    have hsorted := List.pairwise_insertionSort (fun x y : DjState ℚ => x.cost ≤ y.cost) l
    cases hsort : l.insertionSort fun x y => x.cost ≤ y.cost with
    | nil => rw [hsort] at hl; cases hl
    | cons y tail =>
      rw [hsort] at hl hperm hsorted
      cases hl
      refine ⟨hperm.symm, fun z hz => ?_⟩
      rcases List.mem_cons.mp (hperm.mem_iff.mpr hz) with rfl | hz
      · exact le_rfl
      · exact (List.pairwise_cons.mp hsorted).1 z hz

/-- The rows stay in the order of the table. -/
def sameOrder : RowOrder ℚ := ⟨id, fun _ => .refl _⟩

/-- From `1` to `3` two steps are cheaper than one, and `5` is two more steps away. -/
def detourTable : EdgeTable ℚ where
  rows := [⟨1, 2, "k", 1, none⟩, ⟨2, 3, "k", 1, none⟩, ⟨1, 3, "k", 1 / 2, none⟩,
    ⟨3, 4, "k", 1, none⟩, ⟨4, 5, "k", 1, none⟩]
  keys_nodup := by decide

/-- With four hops there are enough. -/
theorem shortestPath_correct_detourTable : ∃ result,
    (∀ fuel, detourTable.rows.length + 2 ≤ fuel →
      detourTable.shortestPath sortedHeap sameOrder 5 4 1 fuel = some result) ∧
    Dijkstra.Correct detourTable 1 5 4 result := by
  obtain ⟨result, hresult, -, hcorrect⟩ :=
    Dijkstra.shortestPath_correct detourTable sortedHeap sameOrder 1 5 4
  exact ⟨result, hresult, hcorrect (Dijkstra.notCutOff_of_card detourTable 1 5 (by decide))⟩

/-- The path of three hops is not found. -/
theorem shortestPath_detourTable : ¬∃ result,
    (∀ fuel, detourTable.rows.length + 2 ≤ fuel →
      detourTable.shortestPath sortedHeap sameOrder 5 3 1 fuel = some result) ∧
    Dijkstra.Correct detourTable 1 5 3 result := by
  rintro ⟨result, hresult, hcorrect⟩
  have hnone : detourTable.shortestPath sortedHeap sameOrder 5 3 1 7 =
      some none := by decide +kernel
  obtain rfl : result = none := Option.some.inj ((hresult 7 le_rfl).symm.trans hnone)
  have hwalk : Walk detourTable.Costs 1 [1, 3, 4] 5 (0 + 1 / 2 + 0 + 0) := by
    have hfirst : Walk detourTable.Costs 1 [1] 3 (0 + 1 / 2) :=
      Walk.nil.snoc ⟨⟨1, 3, "k", 1 / 2, none⟩, by simp [EdgeTable.outEdges, detourTable], rfl,
        by norm_num [EdgeTable.edgeCost]⟩
    have hsecond : Walk detourTable.Costs 1 [1, 3] 4 (0 + 1 / 2 + 0) :=
      hfirst.snoc ⟨⟨3, 4, "k", 1, none⟩, by simp [EdgeTable.outEdges, detourTable], rfl,
        by norm_num [EdgeTable.edgeCost]⟩
    exact hsecond.snoc ⟨⟨4, 5, "k", 1, none⟩, by simp [EdgeTable.outEdges, detourTable], rfl,
        by norm_num [EdgeTable.edgeCost]⟩
  exact absurd (hcorrect.nothing rfl _ _ hwalk) (by decide)

end Edges

end SynapseMemory
