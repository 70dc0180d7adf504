import SynapseMemory.BreadthFirst

/-!
# Walks through the causal graph

`why`, `why_at` and `graph_expand` are one loop, written three times. Each has a query of its own
for the rows of a uri and an arrow for the paths (`Traversal`). The loop exchanges the frontier for
what it leads to, and stops where the frontier is empty.

Whatever the query, the walk is a breadth-first search along the relation of its rows: it ends, and
returns each uri of a distance below the depth bound once, with that distance
(`Traversal.run_exact`).
-/

namespace SynapseMemory

namespace Ultra

open BreadthFirst

/-- `WhyStep`, a row of the recursive query. -/
structure WhyStep where
  uri : String
  kind : String
  depth : ℤ
  path : String

/-- What the loop of the walk has so far. -/
structure Walk where
  visited : List String
  out : List WhyStep
  next : List WhyStep

/-- The order of the result. -/
def WhyStep.le (a b : WhyStep) : Bool := a.depth < b.depth || (a.depth = b.depth && a.uri ≤ b.uri)

/-- The uris of steps with their depths. -/
def depths (steps : List WhyStep) : List (String × ℤ) := steps.map fun x => (x.uri, x.depth)

/-- What the traversals differ in: the rows for a uri, and what stands between two uris of a
path. -/
structure Traversal where
  rows : String → List (String × String)
  arrow : String

namespace Traversal

/-- One row of the query for a step. -/
def visit (t : Traversal) (step : WhyStep) (w : Walk) (row : String × String) : Walk :=
  if row.1 ∈ w.visited then w
  else
    let new : WhyStep :=
      { uri := row.1, kind := row.2, depth := step.depth + 1,
        path := step.path ++ t.arrow ++ row.1 }
    { visited := row.1 :: w.visited, out := w.out ++ [new], next := w.next ++ [new] }

/-- The rows of one step of the frontier. -/
def expand (t : Traversal) (maxDepth : ℤ) (w : Walk) (step : WhyStep) : Walk :=
  if maxDepth - 1 ≤ step.depth then w else (t.rows step.uri).foldl (t.visit step) w

/-- The loop, if it ends in so many turns. -/
def loop (t : Traversal) (maxDepth : ℤ) :
    (fuel : ℕ) → (visited : List String) → (out frontier : List WhyStep) → Option (List WhyStep)
  | 0, _, out, frontier => if frontier.isEmpty then some out else none
  | fuel + 1, visited, out, frontier =>
    if frontier.isEmpty then some out
    else
      let w := frontier.foldl (t.expand maxDepth) { visited, out, next := [] }
      t.loop maxDepth fuel w.visited w.out w.next

/-- The function around the loop, from the row of the start. -/
def run (t : Traversal) (maxDepth : ℤ) (fuel : ℕ) (anchor : Option (String × String)) :
    Option (List WhyStep) :=
  if maxDepth ≤ 0 then some []
  else
    match anchor with
    | none => some []
    | some (uri, kind) =>
      let anchor : WhyStep := { uri, kind, depth := 0, path := uri }
      (t.loop maxDepth fuel [uri] [anchor] [anchor]).map fun out => out.mergeSort WhyStep.le

end Traversal

/-- A start that is no node has no row. -/
theorem Traversal.run_none (t : Traversal) (maxDepth : ℤ) (fuel : ℕ) :
    t.run maxDepth fuel none = some [] := by
  simp only [run, ite_self]

/-- A walk that ended does not need more turns. -/
theorem Traversal.loop_mono {t : Traversal} {maxDepth : ℤ} {fuel fuel' : ℕ}
    {visited : List String} {out frontier out' : List WhyStep}
    (h : t.loop maxDepth fuel visited out frontier = some out') (hle : fuel ≤ fuel') :
    t.loop maxDepth fuel' visited out frontier = some out' := by
  induction fuel generalizing fuel' visited out frontier with
  | zero =>
    rw [loop, Option.ite_none_right_eq_some] at h
    cases fuel' with
    | zero => rw [loop, if_pos h.1, h.2]
    | succ fuel' => rw [loop, if_pos h.1, h.2]
  | succ fuel ih =>
    obtain ⟨fuel', rfl⟩ : ∃ n, fuel' = n + 1 := ⟨fuel' - 1, by omega⟩
    rw [loop] at h ⊢
    split
    next hempty => rwa [if_pos hempty] at h
    next hmore =>
      rw [if_neg hmore] at h
      exact ih h (by omega)

/-- More fuel gives the same. -/
theorem Traversal.run_mono {t : Traversal} {maxDepth : ℤ} {fuel fuel' : ℕ} {uri kind : String}
    {out : List WhyStep} (h : t.run maxDepth fuel (some (uri, kind)) = some out)
    (hle : fuel ≤ fuel') : t.run maxDepth fuel' (some (uri, kind)) = some out := by
  rw [run] at h ⊢
  split
  next hdepth => rwa [if_pos hdepth] at h
  next hdepth =>
    rw [if_neg hdepth] at h
    obtain ⟨out', hloop, rfl⟩ := Option.map_eq_some_iff.mp h
    simp only [loop_mono hloop hle, Option.map_some]

/-! ## One turn -/

/-- What a part of the loop does: of the uris it is offered it takes up those that are new, as steps
of one depth. -/
def Walk.Grows (w w' : Walk) (depth : ℤ) (offered : String → Prop) : Prop :=
  ∃ steps : List WhyStep, Takes (· ∈ w.visited) offered (steps.map WhyStep.uri) ∧
    (∀ u, u ∈ w'.visited ↔ u ∈ w.visited ∨ u ∈ steps.map WhyStep.uri) ∧
    w'.out = w.out ++ steps ∧ w'.next = w.next ++ steps ∧ ∀ x ∈ steps, x.depth = depth

namespace Walk.Grows

variable {w w' w'' : Walk} {depth : ℤ} {p q : String → Prop}

theorem refl (w : Walk) (depth : ℤ) : w.Grows w depth fun _ => False :=
  ⟨[], Takes.nil nofun, by simp⟩

theorem congr (h : w.Grows w' depth p) (hpq : ∀ u, p u ↔ q u) : w.Grows w' depth q :=
  (funext fun u => propext (hpq u)) ▸ h

/-- Growing twice is growing by both. -/
theorem trans (h : w.Grows w' depth p) (h' : w'.Grows w'' depth q) :
    w.Grows w'' depth fun u => p u ∨ q u := by
  obtain ⟨steps, htakes, hvisited, hout, hnext, hdepth⟩ := h
  obtain ⟨steps', htakes', hvisited', hout', hnext', hdepth'⟩ := h'
  simp only [hvisited] at htakes'
  refine ⟨steps ++ steps', ?_, fun u => ?_, ?_, ?_, ?_⟩
  · rw [List.map_append]
    exact htakes.append htakes'
  · rw [hvisited', hvisited, or_assoc, List.map_append, List.mem_append]
  · rw [hout', hout, List.append_assoc]
  · rw [hnext', hnext, List.append_assoc]
  · exact List.forall_mem_append.mpr ⟨hdepth, hdepth'⟩

end Walk.Grows

namespace Traversal

variable {t : Traversal} {maxDepth : ℤ}

theorem grows_visit (step : WhyStep) (w : Walk) (row : String × String) :
    w.Grows (t.visit step w row) (step.depth + 1) (· = row.1) := by
  rw [visit]
  split
  next hseen => exact ⟨[], Takes.nil fun u hu => hu ▸ hseen, by simp⟩
  next hnew =>
    refine ⟨[⟨row.1, row.2, step.depth + 1, step.path ++ t.arrow ++ row.1⟩],
      Takes.singleton hnew, fun u => ?_, rfl, rfl, by simp⟩
    rw [List.mem_cons, List.map_singleton, List.mem_singleton, or_comm]

theorem grows_foldl (step : WhyStep) (rows : List (String × String)) (w : Walk) :
    w.Grows (rows.foldl (t.visit step) w) (step.depth + 1) (· ∈ rows.map Prod.fst) := by
  induction rows generalizing w with
  | nil => exact (Walk.Grows.refl w _).congr (by simp)
  | cons row rest ih =>
    refine ((grows_visit step w row).trans (ih _)).congr fun u => ?_
    rw [List.map_cons, List.mem_cons]

/-- The rows of the query are the steps of a relation. -/
def Follows (t : Traversal) (R : String → String → Prop) : Prop :=
  ∀ u v, v ∈ (t.rows u).map Prod.fst ↔ R u v

variable {R : String → String → Prop}

/-- One turn of the loop, above the largest depth. -/
theorem grows_turn (ht : t.Follows R) {depth : ℤ} (hlt : depth < maxDepth - 1)
    (frontier : List WhyStep) (hdepth : ∀ x ∈ frontier, x.depth = depth) (w : Walk) :
    w.Grows (frontier.foldl (t.expand maxDepth) w) (depth + 1)
      fun v => ∃ u ∈ frontier.map WhyStep.uri, R u v := by
  induction frontier generalizing w with
  | nil => exact (Walk.Grows.refl w _).congr (by simp)
  | cons step rest ih =>
    obtain ⟨hstep, hrest⟩ := List.forall_mem_cons.mp hdepth
    have hfirst : w.Grows (t.expand maxDepth w step) (depth + 1) (R step.uri) := by
      rw [expand, if_neg (by omega), ← hstep]
      exact (grows_foldl step _ w).congr (ht step.uri)
    refine (hfirst.trans (ih hrest _)).congr fun v => ?_
    simp

/-- At the largest depth nothing more is looked for. -/
theorem foldl_expand_last {depth : ℤ} (hge : maxDepth - 1 ≤ depth) (frontier : List WhyStep)
    (hdepth : ∀ x ∈ frontier, x.depth = depth) (w : Walk) :
    frontier.foldl (t.expand maxDepth) w = w := by
  induction frontier with
  | nil => rfl
  | cons step rest ih =>
    obtain ⟨hstep, hrest⟩ := List.forall_mem_cons.mp hdepth
    rw [List.foldl_cons, expand, if_pos (by omega)]
    exact ih hrest

end Traversal

/-! ## The whole walk -/

/-- A pair of a point and its distance, as a step has it. -/
def ofDistance (p : String × ℕ) : String × ℤ := (p.1, p.2)

/-- Where the loop is after `k` turns. -/
structure Walk.At (R : String → String → Prop) (start : String) (k : ℕ) (visited : List String)
    (out frontier : List WhyStep) : Prop where
  search : ∃ found, AtDistance R (· = start) k found (frontier.map WhyStep.uri) ∧
    (∀ u, u ∈ visited ↔ u ∈ found.map Prod.fst) ∧ depths out = found.map ofDistance
  depth_eq : ∀ x ∈ frontier, x.depth = k

/-- The steps of a list are the points of the distances below a bound, each once. -/
structure Exact (R : String → String → Prop) (start : String) (maxDepth : ℤ)
    (out : List WhyStep) : Prop where
  mem_iff : ∀ u d, (u, d) ∈ depths out ↔
    ∃ j : ℕ, (j : ℤ) < maxDepth ∧ d = j ∧ Distance R (· = start) j u
  nodup : (out.map WhyStep.uri).Nodup

theorem map_fst_depths (steps : List WhyStep) :
    (depths steps).map Prod.fst = steps.map WhyStep.uri := by
  rw [depths, List.map_map]
  rfl

namespace Walk.At

variable {R : String → String → Prop} {start : String} {k : ℕ} {visited : List String}
  {out frontier : List WhyStep} {maxDepth : ℤ}

/-- After a turn the nodes of the next depth come next. -/
theorem turn (h : Walk.At R start k visited out frontier) {w : Walk}
    (hgrows : Walk.Grows { visited, out, next := [] } w ((k : ℤ) + 1)
      fun v => ∃ u ∈ frontier.map WhyStep.uri, R u v) :
    Walk.At R start (k + 1) w.visited w.out w.next := by
  obtain ⟨found, hsearch, hvisited, hout⟩ := h.search
  obtain ⟨steps, htakes, hvisited', hout', hnext, hdepth⟩ := hgrows
  rw [List.nil_append] at hnext
  simp only [hvisited] at htakes
  have hdepths : depths steps = (steps.map WhyStep.uri).map fun u => (u, ((k + 1 : ℕ) : ℤ)) := by
    rw [depths, List.map_map]
    refine List.map_congr_left fun x hx => ?_
    rw [hdepth x hx]
    push_cast
    rfl
  refine ⟨⟨found ++ (steps.map WhyStep.uri).map fun u => (u, k + 1), ?_, fun u => ?_, ?_⟩, ?_⟩
  · rw [hnext]
    exact hsearch.turn htakes
  · rw [hvisited', hvisited, List.map_append, List.mem_append]
    simp
  · rw [hout', depths, List.map_append, ← depths, ← depths, hout, hdepths]
    simp only [List.map_append, List.map_map]
    rfl
  · rw [hnext]
    intro x hx
    rw [hdepth x hx]
    push_cast
    rfl

/-- The steps so far are all, if the points behind them are too far or none. -/
theorem exact (h : Walk.At R start k visited out frontier) (hlt : (k : ℤ) < maxDepth)
    (hend : ∀ j : ℕ, (j : ℤ) < maxDepth → k < j → ∀ u, ¬Distance R (· = start) j u) :
    Exact R start maxDepth out := by
  obtain ⟨found, hsearch, -, hout⟩ := h.search
  refine ⟨fun u d => ?_, ?_⟩
  · rw [hout, List.mem_map]
    constructor
    · rintro ⟨⟨v, j⟩, hmem, heq⟩
      cases heq
      obtain ⟨hj, hdist⟩ := (hsearch.found_iff v j).mp hmem
      exact ⟨j, by omega, rfl, hdist⟩
    · rintro ⟨j, hj, rfl, hdist⟩
      refine ⟨(u, j), (hsearch.found_iff u j).mpr ⟨?_, hdist⟩, rfl⟩
      by_contra hgt
      exact hend j hj (not_le.mp hgt) u hdist
  · have huris : out.map WhyStep.uri = found.map Prod.fst := by
      rw [← map_fst_depths, hout, List.map_map]
      rfl
    rw [huris]
    exact hsearch.nodup

/-- **What the loop returns**, with a turn for each depth that is left. -/
theorem loop_exact {t : Traversal} (ht : t.Follows R) {fuel : ℕ}
    (h : Walk.At R start k visited out frontier) (hlt : (k : ℤ) < maxDepth)
    (hfuel : maxDepth ≤ (k : ℤ) + fuel) :
    ∃ out', t.loop maxDepth fuel visited out frontier = some out' ∧
      Exact R start maxDepth out' := by
  induction fuel generalizing k visited out frontier with
  | zero =>
    push_cast at hfuel
    omega
  | succ fuel ih =>
    rw [Traversal.loop]
    by_cases hempty : frontier.isEmpty = true
    · rw [if_pos hempty]
      refine ⟨out, rfl, h.exact hlt fun j _ hk => ?_⟩
      obtain ⟨found, hsearch, -, -⟩ := h.search
      refine not_distance_of_empty hk.le fun u hu => ?_
      rw [← hsearch.frontier_iff, List.isEmpty_iff.mp hempty] at hu
      cases hu
    · rw [if_neg hempty]
      by_cases hlast : (k : ℤ) + 1 < maxDepth
      · have hgrows : Walk.Grows _ (frontier.foldl (t.expand maxDepth) _) _ _ :=
          Traversal.grows_turn ht (by omega) frontier h.depth_eq { visited, out, next := [] }
        exact ih (h.turn hgrows) (by push_cast; exact hlast) (by push_cast at hfuel ⊢; omega)
      · have hnone : frontier.foldl (t.expand maxDepth) { visited, out, next := [] } = _ :=
          Traversal.foldl_expand_last (by omega) frontier h.depth_eq _
        rw [hnone]
        refine ⟨out, ?_, h.exact hlt fun j hj hk => by omega⟩
        cases fuel with
        | zero => rfl
        | succ fuel => rfl

end Walk.At

namespace Traversal

variable {t : Traversal} {maxDepth : ℤ} {R : String → String → Prop}

/-- **A walk is a breadth-first search.** -/
theorem run_exact (ht : t.Follows R) {fuel : ℕ} (hfuel : maxDepth ≤ fuel) (uri kind : String) :
    ∃ out, t.run maxDepth fuel (some (uri, kind)) = some out ∧ Exact R uri maxDepth out := by
  rw [run]
  by_cases hdepth : maxDepth ≤ 0
  · rw [if_pos hdepth]
    refine ⟨[], rfl, fun u d => ?_, List.nodup_nil⟩
    refine iff_of_false List.not_mem_nil ?_
    rintro ⟨j, hj, -⟩
    omega
  · rw [if_neg hdepth]
    have hstart : Walk.At R uri 0 [uri] [⟨uri, kind, 0, uri⟩] [⟨uri, kind, 0, uri⟩] := by
      refine ⟨⟨[(uri, 0)], .start (fun u d => ?_) (List.nodup_singleton _) fun u => ?_, ?_, rfl⟩,
        ?_⟩
      · simp [and_comm]
      · simp
      · simp
      · simp
    obtain ⟨out, hloop, hexact⟩ : ∃ out, t.loop maxDepth fuel _ _ _ = some out ∧ _ :=
      hstart.loop_exact ht (by push_cast; omega) (by push_cast; omega)
    refine ⟨out.mergeSort WhyStep.le, by simp only [hloop, Option.map_some], fun u d => ?_, ?_⟩
    · rw [← hexact.mem_iff]
      exact ((List.mergeSort_perm _ _).map _).mem_iff
    · exact ((List.mergeSort_perm _ _).map _).nodup_iff.mpr hexact.nodup

end Traversal

end Ultra

end SynapseMemory
