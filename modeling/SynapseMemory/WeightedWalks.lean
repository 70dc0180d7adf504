import Mathlib

/-!
# Walks with costs

A graph is given by its steps and their costs; two nodes may have several steps. A walk is told by
the nodes that it leaves, in order (`Walk`), and a route by the nodes and costs along the way
(`Route`).

A search that settles each node once, along a walk of least cost, can miss what it looks for if the
number of steps is limited: the walk that settles a node can be the longer one. It cannot where some
cheapest route has no such detour (`Route.Open`): what a node of the route may be settled along
leaves enough steps for the rest of the route.
-/

namespace WeightedWalks

variable {α F : Type*} [AddCommMonoid F]

/-- A walk from `s`, by the nodes that it leaves, where it ends, and its cost. -/
inductive Walk (E : α → α → F → Prop) (s : α) : List α → α → F → Prop
  | nil : Walk E s [] s 0
  | snoc {path : List α} {u v : α} {c d : F} :
    Walk E s path u c → E u v d → Walk E s (path ++ [u]) v (c + d)

variable {E : α → α → F → Prop} {s t : α}

/-- A walk of `length` steps, with the nodes and the costs up to them. -/
structure Route (E : α → α → F → Prop) (s t : α) (length : ℕ) where
  node : ℕ → α
  cost : ℕ → F
  node_zero : node 0 = s
  node_length : node length = t
  cost_zero : cost 0 = 0
  step : ∀ i < length, ∃ d, E (node i) (node (i + 1)) d ∧ cost (i + 1) = cost i + d

namespace Route

variable {m : ℕ}

/-- The walk up to a node of the route. -/
theorem walk (P : Route E s t m) {i : ℕ} (hi : i ≤ m) :
    Walk E s ((List.range i).map P.node) (P.node i) (P.cost i) := by
  induction i with
  | zero =>
    rw [P.node_zero, P.cost_zero]
    exact Walk.nil
  | succ i ih =>
    obtain ⟨d, hstep, hcost⟩ := P.step i hi
    rw [List.range_succ, List.map_append, List.map_singleton, hcost]
    exact (ih (Nat.le_of_succ_le hi)).snoc hstep

variable [PartialOrder F]

theorem cost_mono [IsOrderedAddMonoid F] (hE : ∀ u v d, E u v d → 0 ≤ d) (P : Route E s t m)
    {i j : ℕ} (hij : i ≤ j) (hj : j ≤ m) : P.cost i ≤ P.cost j := by
  induction hij with
  | refl => exact le_rfl
  | step _ ih =>
    obtain ⟨d, hstep, hcost⟩ := P.step _ hj
    rw [hcost]
    exact (ih (Nat.le_of_succ_le hj)).trans (le_add_of_nonneg_right (hE _ _ _ hstep))

/-- No walk of at most `limit` steps is cheaper. -/
def Cheapest (P : Route E s t m) (limit : ℕ) : Prop :=
  ∀ path c, Walk E s path t c → path.length ≤ limit → P.cost m ≤ c

/-- A node of the route may be settled along any walk of less than `limit` steps that is not dearer
and does not come through the target or a later node. The rest of the route then fits. -/
def Open (P : Route E s t m) (limit : ℕ) : Prop :=
  ∀ i < m, ∀ path c, Walk E s path (P.node i) c → (path ++ [P.node i]).Nodup → t ∉ path →
    (∀ j, i < j → j ≤ m → P.node j ∉ path) → path.length < limit → c ≤ P.cost i →
      path.length + (m - i) ≤ limit

end Route

/-! ## Enough steps for all nodes -/

section Detour

variable [PartialOrder F] [IsOrderedAddMonoid F] {path : List α} {v : α} {c : F}

/-- The way up to a node that a walk leaves. -/
theorem Walk.exists_upto (hE : ∀ u v d, E u v d → 0 ≤ d) (h : Walk E s path v c) {u : α}
    (hu : u ∈ path) : ∃ path' c', Walk E s path' u c' ∧ path'.length < path.length ∧ c' ≤ c := by
  induction h with
  | nil => cases hu
  | @snoc path w v c d hwalk hstep ih =>
    have hle : c ≤ c + d := le_add_of_nonneg_right (hE _ _ _ hstep)
    rcases List.mem_append.mp hu with hu | hu
    · obtain ⟨path', c', hwalk', hlength, hcost⟩ := ih hu
      exact ⟨path', c', hwalk', by simp; omega, hcost.trans hle⟩
    · obtain rfl := List.mem_singleton.mp hu
      exact ⟨path, c, hwalk, by simp, hle⟩

/-- A walk that comes to a node twice has a detour. -/
theorem Walk.exists_shorter (hE : ∀ u v d, E u v d → 0 ≤ d) (h : Walk E s path v c)
    (htwice : ¬(path ++ [v]).Nodup) :
    ∃ path' c', Walk E s path' v c' ∧ path'.length < path.length ∧ c' ≤ c := by
  induction h with
  | nil => simp at htwice
  | @snoc path u v c d hwalk hstep ih =>
    by_cases hmem : v ∈ path ++ [u]
    · exact (hwalk.snoc hstep).exists_upto hE hmem
    · have hbefore : ¬(path ++ [u]).Nodup := by
        intro hnodup
        refine htwice (List.nodup_append.mpr ⟨hnodup, List.nodup_singleton v, ?_⟩)
        rintro a ha b hb rfl
        exact hmem (List.mem_singleton.mp hb ▸ ha)
      obtain ⟨path', c', hwalk', hlength, hcost⟩ := ih hbefore
      exact ⟨path' ++ [u], c' + d, hwalk'.snoc hstep, by simpa using hlength,
        add_le_add_left hcost d⟩

end Detour

section Nodes

variable {nodes : Finset α} {path : List α} {v : α} {c : F}

theorem Walk.mem_nodes (hs : s ∈ nodes) (hE : ∀ u v d, E u v d → v ∈ nodes)
    (h : Walk E s path v c) : ∀ u ∈ path ++ [v], u ∈ nodes := by
  induction h with
  | nil => simpa using hs
  | @snoc path u v c d hwalk hstep ih =>
    intro w hw
    rcases List.mem_append.mp hw with hw | hw
    · exact ih w hw
    · exact List.mem_singleton.mp hw ▸ hE _ _ _ hstep

/-- A walk as a route. -/
theorem Walk.exists_route (h : Walk E s path v c) : ∃ m, ∃ P : Route E s v m, m = path.length ∧
    P.cost m = c ∧ (List.range (m + 1)).map P.node = path ++ [v] := by
  induction h with
  | nil => exact ⟨0, ⟨fun _ => s, fun _ => 0, rfl, rfl, rfl, nofun⟩, rfl, rfl, rfl⟩
  | @snoc path u v c d hwalk hstep ih =>
    obtain ⟨m, P, rfl, rfl, hnodes⟩ := ih
    let node (i : ℕ) : α := if i ≤ path.length then P.node i else v
    let cost (i : ℕ) : F := if i ≤ path.length then P.cost i else P.cost path.length + d
    refine ⟨path.length + 1, ⟨node, cost, ?_, ?_, ?_, fun i hi => ?_⟩, by simp, by simp [cost], ?_⟩
    · simp [node, P.node_zero]
    · simp [node]
    · simp [cost, P.cost_zero]
    · rcases (Nat.le_of_lt_succ hi).lt_or_eq with hlt | rfl
      · obtain ⟨x, hx, hcost⟩ := P.step i hlt
        have hle : i + 1 ≤ path.length := hlt
        exact ⟨x, by simpa [node, hlt.le, hle] using hx, by simpa [cost, hlt.le, hle] using hcost⟩
      · exact ⟨d, by simpa [node, P.node_length] using hstep, by simp [cost]⟩
    · rw [List.range_succ, List.map_append, ← hnodes]
      congr 1
      · refine List.map_congr_left fun i hi => ?_
        simp [node, Nat.le_of_lt_succ (List.mem_range.mp hi)]
      · simp [node]

variable [PartialOrder F]

/-- A route that comes to no node twice is open if the limit allows for all nodes. -/
theorem Route.open_of_card (hs : s ∈ nodes) (hE : ∀ u v d, E u v d → v ∈ nodes) {m limit : ℕ}
    {P : Route E s t m} (hsimple : ((List.range (m + 1)).map P.node).Nodup)
    (hcard : nodes.card ≤ limit + 1) : P.Open limit := by
  classical
  intro i hi path c hwalk hpath _ hlater _ _
  let rest := (List.range (m + 1 - i)).map fun j => P.node (i + j)
  have hrest : rest.Nodup := by
    have hsub : rest = ((List.range (m + 1)).map P.node).drop i := by
      refine List.ext_getElem (by simp [rest]) fun j _ _ => ?_
      simp [rest]
    rw [hsub]
    exact hsimple.sublist (List.drop_sublist i _)
  have hall : (path ++ rest).Nodup := by
    refine List.nodup_append.mpr ⟨(List.nodup_append.mp hpath).1, hrest, ?_⟩
    rintro a ha b hb rfl
    obtain ⟨j, hj, rfl⟩ := List.mem_map.mp hb
    have hle := List.mem_range.mp hj
    rcases Nat.eq_zero_or_pos j with rfl | hpos
    · exact (List.nodup_append.mp hpath).2.2 _ ha _ (List.mem_singleton_self _) rfl
    · exact hlater (i + j) (by omega) (by omega) ha
  have hmem : (path ++ rest).toFinset ⊆ nodes := by
    intro a ha
    rcases List.mem_append.mp (List.mem_toFinset.mp ha) with ha | ha
    · exact hwalk.mem_nodes hs hE a (List.mem_append_left _ ha)
    · obtain ⟨j, hj, rfl⟩ := List.mem_map.mp ha
      have hle := List.mem_range.mp hj
      have hend : i + j ≤ m := by omega
      exact (P.walk hend).mem_nodes hs hE _ (List.mem_append_right _ (List.mem_singleton_self _))
  have hlength := Finset.card_le_card hmem
  rw [List.toFinset_card_of_nodup hall, List.length_append, List.length_map, List.length_range]
    at hlength
  omega

end Nodes

/-! ## The cheapest walk -/

section Cheapest

variable {path : List α}

/-- There are only so many walks. -/
theorem finite_walks (hE : {e : α × α × F | E e.1 e.2.1 e.2.2}.Finite) (n : ℕ) :
    {x : α × F | ∃ path, path.length = n ∧ Walk E s path x.1 x.2}.Finite := by
  induction n with
  | zero =>
    refine (Set.finite_singleton (s, (0 : F))).subset ?_
    rintro ⟨v, c⟩ ⟨path, hlength, hwalk⟩
    cases hwalk with
    | nil => rfl
    | snoc _ _ => simp at hlength
  | succ n ih =>
    refine (ih.image2 (fun x e => (e.2.1, x.2 + e.2.2)) hE).subset ?_
    rintro ⟨v, c⟩ ⟨path, hlength, hwalk⟩
    cases hwalk with
    | nil => simp at hlength
    | @snoc path u _ c d hwalk hstep =>
      exact ⟨(u, c), ⟨path, by simpa using hlength, hwalk⟩, (u, v, d), hstep, rfl⟩

/-- Of the walks within a limit there is a cheapest one that comes to no node twice. -/
theorem exists_cheapest [LinearOrder F] [IsOrderedAddMonoid F]
    (hfinite : {e : α × α × F | E e.1 e.2.1 e.2.2}.Finite) (hE : ∀ u v d, E u v d → 0 ≤ d)
    {limit : ℕ} {c : F} (hwalk : Walk E s path t c) (hlimit : path.length ≤ limit) :
    ∃ path c, Walk E s path t c ∧ path.length ≤ limit ∧ (path ++ [t]).Nodup ∧
      ∀ path' c', Walk E s path' t c' → path'.length ≤ limit → c ≤ c' := by
  let found : Set (F ×ₗ ℕ) :=
    {x | ∃ path, Walk E s path t (ofLex x).1 ∧ path.length = (ofLex x).2 ∧ (ofLex x).2 ≤ limit}
  have hfound : found.Finite := by
    have hall : (⋃ n ∈ Set.Iic limit, (fun x : α × F => toLex (x.2, n)) ''
        {x : α × F | ∃ path, path.length = n ∧ Walk E s path x.1 x.2}).Finite :=
      (Set.finite_Iic limit).biUnion fun n _ => (finite_walks hfinite n).image _
    refine hall.subset ?_
    rintro x ⟨path, hwalk, hlength, hle⟩
    exact Set.mem_biUnion hle ⟨(t, (ofLex x).1), ⟨path, hlength, hwalk⟩, rfl⟩
  have hsome : found.Nonempty := ⟨toLex (c, path.length), path, hwalk, rfl, hlimit⟩
  obtain ⟨x, ⟨best, hbest, hlength, hle⟩, hleast⟩ := Set.exists_min_image found id hfound hsome
  have hleast' : ∀ path' c', Walk E s path' t c' → path'.length ≤ limit →
      x ≤ toLex (c', path'.length) := fun path' c' h hle => hleast _ ⟨path', h, rfl, hle⟩
  refine ⟨best, (ofLex x).1, hbest, hlength.trans_le hle, ?_, fun path' c' h hle => ?_⟩
  · by_contra htwice
    obtain ⟨path', c', hwalk', hshorter, hcost⟩ := hbest.exists_shorter hE htwice
    have hmin := Prod.Lex.le_iff.mp (hleast' path' c' hwalk' (by omega))
    rcases hmin with hlt | ⟨-, hge⟩
    · exact absurd hlt (not_lt.mpr hcost)
    · exact absurd hge (not_le.mpr (hlength ▸ hshorter))
  · exact Prod.Lex.monotone_fst _ _ (hleast' path' c' h hle)

/-- **Where the limit allows for all nodes, some cheapest route is open.** -/
theorem exists_open_route [LinearOrder F] [IsOrderedAddMonoid F] {nodes : Finset α}
    (hs : s ∈ nodes) (hnodes : ∀ u v d, E u v d → v ∈ nodes)
    (hfinite : {e : α × α × F | E e.1 e.2.1 e.2.2}.Finite) (hE : ∀ u v d, E u v d → 0 ≤ d)
    {limit : ℕ} (hcard : nodes.card ≤ limit + 1) {c : F} (hwalk : Walk E s path t c)
    (hlimit : path.length ≤ limit) :
    ∃ m ≤ limit, ∃ P : Route E s t m, P.Cheapest limit ∧ P.Open limit := by
  obtain ⟨best, c', hbest, hle, hsimple, hleast⟩ := exists_cheapest hfinite hE hwalk hlimit
  obtain ⟨m, P, rfl, rfl, hroute⟩ := hbest.exists_route
  exact ⟨best.length, hle, P, hleast, P.open_of_card hs hnodes (hroute ▸ hsimple) hcard⟩

end Cheapest

end WeightedWalks
