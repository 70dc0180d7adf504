import SynapseMemory.BreadthFirst
import SynapseMemory.EdgeTable
import SynapseMemory.Outcome

/-!
# Traversal with scores

The model of `traverse`. It goes through the nodes by their distance and marks a node as visited
when it is first found, so each hit is found along one walk. Of this walk a hit carries its score
and the relations. The loop is written for anything that a hit may carry (`Search`), so that it can
be run with the walks themselves, and score and chain are told by the walk (`loop_map`).

The nodes are the right ones, with their distances. The score is multiplied by `score_decay^depth`
at every hop and not once, so a hit of depth two has the decay three times (`traverse_scored_iff`).
-/

namespace SynapseMemory

namespace Edges

open BreadthFirst
open Outcome (asI32)

/-- A hit with what it carries. -/
structure Hit (A : Type) where
  node : ℤ
  info : A
  depth : ℕ

/-- What the loop has so far. -/
structure Search (A : Type) where
  visited : List ℤ
  next : List (Hit A)
  out : List (Hit A)

namespace Search

section Loop

variable {F A : Type} (rows : ℤ → List (Neighbor F)) (extend : ℕ → A → Neighbor F → A)

/-- A hit found from another one. -/
def found (depth : ℕ) (h : Hit A) (n : Neighbor F) : Hit A := ⟨n.toId, extend depth h.info n, depth⟩

/-- One neighbor of a hit of the frontier. -/
def visit (depth : ℕ) (h : Hit A) (s : Search A) (n : Neighbor F) : Search A :=
  if n.toId ∈ s.visited then s
  else
    { visited := n.toId :: s.visited
      next := s.next ++ [found extend depth h n]
      out := s.out ++ [found extend depth h n] }

/-- All neighbors of the frontier. -/
def turn (depth : ℕ) (visited : List ℤ) (out frontier : List (Hit A)) : Search A :=
  frontier.foldl (fun s h => (rows h.node).foldl (visit extend depth h) s) ⟨visited, [], out⟩

/-- The depths from `depth` on. -/
def loop : (turns depth : ℕ) → List ℤ → (out frontier : List (Hit A)) → List (Hit A)
  | 0, _, _, out, _ => out
  | turns + 1, depth, visited, out, frontier =>
    let s := turn rows extend depth visited out frontier
    if s.next.isEmpty then s.out else loop turns (depth + 1) s.visited s.out s.next

/-- The loop from one node. -/
def run (maxDepth : ℕ) (start : ℤ) (info : A) : List (Hit A) :=
  loop rows extend maxDepth 1 [start] [] [⟨start, info, 0⟩]

end Loop

end Search

/-! ## The traversal -/

/-- The relations of a chain as they are reported. -/
def extendChain (chain rel : String) : String :=
  if chain.isEmpty then rel else chain ++ "->" ++ rel

section Traverse

variable {F : Type} [Field F] [LinearOrder F]

/-- Score and chain of a hit. -/
def extendScore (decay : F) (depth : ℕ) (info : F × String) (n : Neighbor F) : F × String :=
  (info.1 * n.weight * decay ^ asI32 depth, extendChain info.2 n.rel)

/-- `Vec::with_capacity` for entries of 48 bytes. -/
def hasCapacity (n : ℕ) : Bool := n % 2 ^ 64 * 48 < 2 ^ 63

/-- None if the capacity of the result is too large. -/
def EdgeTable.traverse (t : EdgeTable F) (sort : ByWeight F) (start : ℤ) (maxDepth topK : ℕ)
    (decay : F) (rel : Option String) : Option (List (Hit (F × String))) :=
  if hasCapacity (topK * maxDepth) then
    let out := Search.run (fun node => t.neighbors sort node rel topK) (extendScore decay)
      maxDepth start (1, "")
    some (out.mergeSort fun a b => b.info.1 ≤ a.info.1)
  else none

end Traverse

namespace Search

/-! ## One turn -/

section Turn

variable {F A : Type} {rows : ℤ → List (Neighbor F)} {extend : ℕ → A → Neighbor F → A} {depth : ℕ}

variable (extend depth) in
/-- The hits that are new, each found along the first pair that leads to it. -/
def taken : List ℤ → List (Hit A × Neighbor F) → List (Hit A)
  | _, [] => []
  | visited, p :: pairs =>
    if p.2.toId ∈ visited then taken visited pairs
    else found extend depth p.1 p.2 :: taken (p.2.toId :: visited) pairs

/-- A loop of visits takes what is new. -/
theorem foldl_visit (pairs : List (Hit A × Neighbor F)) (visited : List ℤ)
    (next out : List (Hit A)) :
    pairs.foldl (fun s p => visit extend depth p.1 s p.2) ⟨visited, next, out⟩ =
      ⟨(taken extend depth visited pairs).reverse.map Hit.node ++ visited,
        next ++ taken extend depth visited pairs, out ++ taken extend depth visited pairs⟩ := by
  induction pairs generalizing visited next out with
  | nil => simp [taken]
  | cons p pairs ih =>
    rw [List.foldl_cons, visit, taken]
    split
    · exact ih visited next out
    · rw [ih]
      simp [found]

/-- The pairs of a frontier. -/
def pairs (rows : ℤ → List (Neighbor F)) (frontier : List (Hit A)) : List (Hit A × Neighbor F) :=
  frontier.flatMap fun h => (rows h.node).map fun n => (h, n)

/-- A turn, as what it takes. -/
theorem turn_eq (visited : List ℤ) (out frontier : List (Hit A)) :
    turn rows extend depth visited out frontier =
      ⟨(taken extend depth visited (pairs rows frontier)).reverse.map Hit.node ++ visited,
        taken extend depth visited (pairs rows frontier),
        out ++ taken extend depth visited (pairs rows frontier)⟩ := by
  have hfold : (pairs rows frontier).foldl (fun s p => visit extend depth p.1 s p.2)
      ⟨visited, [], out⟩ = _ := foldl_visit (pairs rows frontier) visited [] out
  rw [pairs, List.foldl_flatMap] at hfold
  simp only [List.foldl_map] at hfold
  exact hfold

/-- What is taken up is new, each node once. -/
theorem takes_taken (ps : List (Hit A × Neighbor F)) (visited : List ℤ) :
    Takes (· ∈ visited) (fun v => ∃ p ∈ ps, p.2.toId = v)
      ((taken extend depth visited ps).map Hit.node) := by
  induction ps generalizing visited with
  | nil => exact Takes.nil (by simp)
  | cons p ps ih =>
    rw [taken]
    split
    next hseen =>
      have hrest := ih visited
      refine ⟨fun u => (hrest.mem_iff u).trans ?_, hrest.nodup⟩
      simp only [List.mem_cons, exists_eq_or_imp]
      constructor
      · exact fun ⟨hu, hnew⟩ => ⟨.inr hu, hnew⟩
      · rintro ⟨rfl | hu, hnew⟩
        · exact absurd hseen hnew
        · exact ⟨hu, hnew⟩
    next hnew =>
      have hfirst : Takes (· ∈ visited) (· = p.2.toId) [p.2.toId] := Takes.singleton hnew
      have hrest := ih (p.2.toId :: visited)
      have hseen : (fun u => u ∈ p.2.toId :: visited) =
          fun u => u ∈ visited ∨ u ∈ [p.2.toId] := by
        funext u
        simp [or_comm]
      simp only [hseen] at hrest
      refine (hfirst.append hrest).congr fun u => ?_
      simp [eq_comm]

/-- **A node is found along the first pair that leads to it.** -/
theorem find_taken (ps : List (Hit A × Neighbor F)) (visited : List ℤ) (P : ℤ → Bool) :
    (taken extend depth visited ps).find? (fun h => P h.node) =
      (ps.find? fun p => P p.2.toId && p.2.toId ∉ visited).map
        fun p => found extend depth p.1 p.2 := by
  induction ps generalizing visited with
  | nil => rfl
  | cons p ps ih =>
    rw [taken]
    split
    next hseen => rw [ih, List.find?_cons_of_neg (by simp [hseen])]
    next hnew =>
      have hnode : (found extend depth p.1 p.2).node = p.2.toId := rfl
      by_cases hp : P p.2.toId = true
      · rw [List.find?_cons_of_pos (by rw [hnode, hp]), List.find?_cons_of_pos (by simp [hp, hnew])]
        rfl
      · rw [List.find?_cons_of_neg (by rwa [hnode]), ih, List.find?_cons_of_neg (by simp [hp])]
        congr 2
        funext q
        by_cases hq : P q.2.toId = true
        · have hne : q.2.toId ≠ p.2.toId := fun heq => hp (heq ▸ hq)
          simp [hq, hne]
        · simp [hq]

/-- What is taken was found at the end of a pair. -/
theorem mem_taken {ps : List (Hit A × Neighbor F)} {visited : List ℤ} {h : Hit A}
    (hh : h ∈ taken extend depth visited ps) : ∃ p ∈ ps, h = found extend depth p.1 p.2 := by
  induction ps generalizing visited with
  | nil => cases hh
  | cons p ps ih =>
    rw [taken] at hh
    split at hh
    · obtain ⟨q, hq, heq⟩ := ih hh
      exact ⟨q, List.mem_cons_of_mem p hq, heq⟩
    · rcases List.mem_cons.mp hh with rfl | hh
      · exact ⟨p, List.mem_cons_self, rfl⟩
      · obtain ⟨q, hq, heq⟩ := ih hh
        exact ⟨q, List.mem_cons_of_mem p hq, heq⟩

/-- The pairs: a hit of the frontier, and a neighbor of its node. -/
theorem mem_pairs {frontier : List (Hit A)} {p : Hit A × Neighbor F} :
    p ∈ pairs rows frontier ↔ p.1 ∈ frontier ∧ p.2 ∈ rows p.1.node := by
  rw [pairs, List.mem_flatMap]
  constructor
  · rintro ⟨h, hh, hp⟩
    obtain ⟨n, hn, rfl⟩ := List.mem_map.mp hp
    exact ⟨hh, hn⟩
  · exact fun ⟨hh, hn⟩ => ⟨p.1, hh, List.mem_map.mpr ⟨p.2, hn, rfl⟩⟩

end Turn

/-! ## The nodes that are found -/

section Nodes

variable {F A : Type} {rows : ℤ → List (Neighbor F)} {extend : ℕ → A → Neighbor F → A}
  {R : ℤ → ℤ → Prop} {start : ℤ}

/-- The node of a hit, and its depth. -/
def key (h : Hit A) : ℤ × ℕ := (h.node, h.depth)

/-- The nodes of the distances from `1` to `maxDepth`, each once and with its distance. -/
def FindsAll (R : ℤ → ℤ → Prop) (start : ℤ) (maxDepth : ℕ) (out : List (Hit A)) : Prop :=
  (out.map Hit.node).Nodup ∧ ∀ v d, (v, d) ∈ out.map key ↔
    1 ≤ d ∧ d ≤ maxDepth ∧ Distance R (· = start) d v

/-- The search has the nodes up to a distance, and has marked them. -/
structure At (R : ℤ → ℤ → Prop) (start : ℤ) (k : ℕ) (visited : List ℤ)
    (out frontier : List (Hit A)) : Prop where
  distance : AtDistance R (· = start) k ((start, 0) :: out.map key) (frontier.map Hit.node)
  visited_iff : ∀ u, u ∈ visited ↔ u ∈ start :: out.map Hit.node

theorem At.begin (info : A) : At R start 0 [start] [] [⟨start, info, 0⟩] where
  distance := AtDistance.start (by simp [and_comm]) (by simp) (by simp)
  visited_iff := by simp

theorem map_fst_key (out : List (Hit A)) : (out.map key).map Prod.fst = out.map Hit.node := by
  rw [List.map_map]
  rfl

/-- One distance further. -/
theorem At.turn {k : ℕ} {visited : List ℤ} {out frontier : List (Hit A)}
    (hrows : ∀ u v, v ∈ (rows u).map Neighbor.toId ↔ R u v)
    (h : At R start k visited out frontier) :
    At R start (k + 1) (Search.turn rows extend (k + 1) visited out frontier).visited
      (Search.turn rows extend (k + 1) visited out frontier).out
      (Search.turn rows extend (k + 1) visited out frontier).next := by
  rw [turn_eq]
  have htaken : Takes (· ∈ visited) (fun v => ∃ p ∈ pairs rows frontier, p.2.toId = v)
      ((taken extend (k + 1) visited (pairs rows frontier)).map Hit.node) := takes_taken _ visited
  have hoffered : ∀ v, (∃ p ∈ pairs rows frontier, p.2.toId = v) ↔
      ∃ u ∈ frontier.map Hit.node, R u v := by
    intro v
    simp only [mem_pairs, ← hrows, List.mem_map]
    constructor
    · rintro ⟨p, ⟨hp, hn⟩, rfl⟩
      exact ⟨p.1.node, ⟨p.1, hp, rfl⟩, p.2, hn, rfl⟩
    · rintro ⟨-, ⟨x, hx, rfl⟩, n, hn, rfl⟩
      exact ⟨(x, n), ⟨hx, hn⟩, rfl⟩
  have hseen : (fun u => u ∈ visited) =
      fun u => u ∈ ((start, 0) :: out.map key).map Prod.fst := by
    funext u
    rw [List.map_cons, map_fst_key]
    exact propext (h.visited_iff u)
  have hnext := h.distance.turn (hseen ▸ htaken.congr hoffered)
  have hkeys : ((taken extend (k + 1) visited (pairs rows frontier)).map Hit.node).map
      (fun u => (u, k + 1)) =
        (taken extend (k + 1) visited (pairs rows frontier)).map key := by
    rw [List.map_map]
    refine List.map_congr_left fun x hx => ?_
    obtain ⟨p, -, rfl⟩ := mem_taken hx
    rfl
  rw [hkeys] at hnext
  refine ⟨by simpa using hnext, fun u => ?_⟩
  simp only [List.mem_append, List.mem_map, List.mem_reverse, h.visited_iff, List.map_append,
    List.mem_cons]
  rw [or_comm, or_assoc]

/-- What the turns have found is all at that distance. -/
theorem At.findsAll {k : ℕ} {visited : List ℤ} {out frontier : List (Hit A)}
    (h : At R start k visited out frontier) : FindsAll R start k out := by
  have hnodup := h.distance.nodup
  rw [List.map_cons, map_fst_key, List.nodup_cons] at hnodup
  refine ⟨hnodup.2, fun v d => ?_⟩
  have hfound := h.distance.found_iff v d
  rw [List.mem_cons] at hfound
  constructor
  · intro hv
    have hdist := hfound.mp (.inr hv)
    refine ⟨Nat.one_le_iff_ne_zero.mpr ?_, hdist⟩
    rintro rfl
    have hstart : v = start := (distance_zero (R := R) (S := (· = start))).mp hdist.2
    exact hnodup.1 (hstart ▸ map_fst_key out ▸ List.mem_map_of_mem hv)
  · rintro ⟨hpos, hd⟩
    refine (hfound.mpr hd).resolve_left fun heq => ?_
    have hzero : d = 0 := congrArg Prod.snd heq
    omega

/-- All turns together find everything. -/
theorem At.loop_findsAll (hrows : ∀ u v, v ∈ (rows u).map Neighbor.toId ↔ R u v) (turns : ℕ)
    {k : ℕ} {visited : List ℤ} {out frontier : List (Hit A)}
    (h : At R start k visited out frontier) :
    FindsAll R start (k + turns) (loop rows extend turns (k + 1) visited out frontier) := by
  induction turns generalizing k visited out frontier with
  | zero => exact h.findsAll
  | succ turns ih =>
    let s := Search.turn rows extend (k + 1) visited out frontier
    have hnext : At R start (k + 1) s.visited s.out s.next := h.turn hrows
    rw [loop]
    split
    next hempty =>
      -- the search is over, and no node is farther away
      have hall := hnext.findsAll
      refine ⟨hall.1, fun v d => (hall.2 v d).trans (and_congr_right fun _ => ?_)⟩
      refine ⟨fun hd => ⟨by omega, hd.2⟩, fun hd => ⟨not_lt.mp fun hlt => ?_, hd.2⟩⟩
      have hnil := List.isEmpty_iff.mp hempty
      refine not_distance_of_empty hlt.le (fun u hu => ?_) v hd.2
      rw [← hnext.distance.frontier_iff, hnil] at hu
      cases hu
    next =>
      rw [show k + (turns + 1) = (k + 1) + turns by omega]
      exact ih hnext

end Nodes

/-! ## What a hit carries -/

section Info

variable {F A B : Type} {rows : ℤ → List (Neighbor F)} {eA : ℕ → A → Neighbor F → A}
  {eB : ℕ → B → Neighbor F → B} {P : Hit A → Prop} {g : A → B} {depth : ℕ}

/-- `P` goes over from a hit to what is found from it. -/
def Kept (rows : ℤ → List (Neighbor F)) (eA : ℕ → A → Neighbor F → A) (P : Hit A → Prop) : Prop :=
  ∀ h, P h → ∀ n ∈ rows h.node, P (found eA (h.depth + 1) h n)

/-- What is kept holds of everything that is taken. -/
theorem forall_taken (hkept : Kept rows eA P) {frontier : List (Hit A)}
    (hfrontier : ∀ h ∈ frontier, P h ∧ h.depth = depth) (visited : List ℤ) :
    ∀ h ∈ taken eA (depth + 1) visited (pairs rows frontier), P h ∧ h.depth = depth + 1 := by
  intro h hh
  obtain ⟨p, hp, rfl⟩ := mem_taken hh
  obtain ⟨hmem, hn⟩ := mem_pairs.mp hp
  obtain ⟨hP, rfl⟩ := hfrontier p.1 hmem
  exact ⟨hkept p.1 hP p.2 hn, rfl⟩

/-- **What is kept holds of all hits that are found.** -/
theorem forall_loop {Q : Hit A → Prop} (hkept : Kept rows eA P) (hPQ : ∀ h, P h → Q h)
    (turns : ℕ) {visited : List ℤ} {out frontier : List (Hit A)} (hout : ∀ h ∈ out, Q h)
    (hfrontier : ∀ h ∈ frontier, P h ∧ h.depth = depth) :
    ∀ h ∈ loop rows eA turns (depth + 1) visited out frontier, Q h := by
  induction turns generalizing depth visited out frontier with
  | zero => exact hout
  | succ turns ih =>
    have htaken := forall_taken hkept hfrontier visited
    rw [loop, turn_eq]
    have hall : ∀ h ∈ out ++ taken eA (depth + 1) visited (pairs rows frontier), Q h := by
      intro h hh
      rcases List.mem_append.mp hh with hh | hh
      · exact hout h hh
      · exact hPQ h (htaken h hh).1
    split
    · exact hall
    · exact ih hall htaken

/-- The hits of one search are those of another one. -/
def mapInfo (g : A → B) (h : Hit A) : Hit B := ⟨h.node, g h.info, h.depth⟩

/-- Other annotations find the same nodes. -/
theorem taken_map {ps : List (Hit A × Neighbor F)}
    (hg : ∀ p ∈ ps, eB depth (g p.1.info) p.2 = g (eA depth p.1.info p.2)) (visited : List ℤ) :
    taken eB depth visited (ps.map fun p => (mapInfo g p.1, p.2)) =
      (taken eA depth visited ps).map (mapInfo g) := by
  induction ps generalizing visited with
  | nil => rfl
  | cons p ps ih =>
    have hrest := ih fun q hq => hg q (List.mem_cons_of_mem p hq)
    have hfirst : found eB depth (mapInfo g p.1) p.2 = mapInfo g (found eA depth p.1 p.2) := by
      rw [found, mapInfo, hg p List.mem_cons_self]
      rfl
    rw [List.map_cons, taken, taken]
    split
    · exact hrest visited
    · rw [hrest, hfirst, List.map_cons]

theorem pairs_map (frontier : List (Hit A)) : pairs rows (frontier.map (mapInfo g)) =
    (pairs rows frontier).map fun p => (mapInfo g p.1, p.2) := by
  rw [pairs, pairs, List.flatMap_map, List.map_flatMap]
  simp only [List.map_map]
  rfl

/-- **What the hits of one search carry is told by what those of another one do.** -/
theorem loop_map (hkept : Kept rows eA P)
    (hg : ∀ h, P h → ∀ n, eB (h.depth + 1) (g h.info) n = g (eA (h.depth + 1) h.info n))
    (turns : ℕ) {visited : List ℤ} {out frontier : List (Hit A)}
    (hfrontier : ∀ h ∈ frontier, P h ∧ h.depth = depth) :
    loop rows eB turns (depth + 1) visited (out.map (mapInfo g)) (frontier.map (mapInfo g)) =
      (loop rows eA turns (depth + 1) visited out frontier).map (mapInfo g) := by
  induction turns generalizing depth visited out frontier with
  | zero => rfl
  | succ turns ih =>
    have hpairs : ∀ p ∈ pairs rows frontier,
        eB (depth + 1) (g p.1.info) p.2 = g (eA (depth + 1) p.1.info p.2) := by
      intro p hp
      obtain ⟨hP, rfl⟩ := hfrontier p.1 (mem_pairs.mp hp).1
      exact hg p.1 hP p.2
    have htaken := taken_map hpairs visited
    have hnodes : ∀ l : List (Hit A), (l.map (mapInfo g)).map Hit.node = l.map Hit.node := by
      intro l
      rw [List.map_map]
      rfl
    rw [loop, loop, turn_eq, turn_eq, pairs_map, htaken]
    simp only [← List.map_reverse, hnodes, List.isEmpty_map, ← List.map_append]
    split
    · rfl
    · exact ih (forall_taken hkept hfrontier visited)

end Info

/-! ## Walks -/

section Walks

variable {F : Type} {rows : ℤ → List (Neighbor F)} {start : ℤ}

/-- The rows of a walk, one after the other. -/
inductive Walk (rows : ℤ → List (Neighbor F)) (start : ℤ) : List (Neighbor F) → ℤ → Prop
  | nil : Walk rows start [] start
  | append {walk : List (Neighbor F)} {u : ℤ} {n : Neighbor F} :
    Walk rows start walk u → n ∈ rows u → Walk rows start (walk ++ [n]) n.toId

/-- Each hit with the walk along which it is found. -/
def walks (rows : ℤ → List (Neighbor F)) (maxDepth : ℕ) (start : ℤ) :
    List (Hit (List (Neighbor F))) :=
  run rows (fun _ walk n => walk ++ [n]) maxDepth start []

/-- A walk ends at one node. -/
theorem Walk.unique {walk : List (Neighbor F)} {u v : ℤ} (hu : Walk rows start walk u)
    (hv : Walk rows start walk v) : u = v := by
  have hend : ∀ {w : List (Neighbor F)} {x : ℤ}, Walk rows start w x →
      x = (w.getLast?.map Neighbor.toId).getD start := by
    intro w x hx
    cases hx with
    | nil => rfl
    | append _ _ => simp
  rw [hend hu, hend hv]

/-- The hit has a walk from the start, as long as its depth says. -/
def IsWalk (rows : ℤ → List (Neighbor F)) (start : ℤ) (h : Hit (List (Neighbor F))) : Prop :=
  Walk rows start h.info h.node ∧ h.info.length = h.depth

theorem kept_isWalk : Kept rows (fun _ walk n => walk ++ [n]) (IsWalk rows start) := by
  rintro h ⟨hwalk, hlength⟩ n hn
  exact ⟨hwalk.append hn, by simp [found, hlength]⟩

theorem isWalk_start : ∀ h ∈ [(⟨start, [], 0⟩ : Hit (List (Neighbor F)))],
    IsWalk rows start h ∧ h.depth = 0 := by
  intro h hh
  obtain rfl := List.mem_singleton.mp hh
  exact ⟨⟨Walk.nil, rfl⟩, rfl⟩

theorem isWalk_of_mem_walks {maxDepth : ℕ} {h : Hit (List (Neighbor F))}
    (hh : h ∈ walks rows maxDepth start) : IsWalk rows start h :=
  forall_loop kept_isWalk (fun _ => id) maxDepth (by simp) isWalk_start h hh

/-! ## The second hop -/

/-- The first neighbor of the start that leads to `v`, and its first row that does. -/
def secondHop (rows : ℤ → List (Neighbor F)) (start v : ℤ) : Option (Neighbor F × Neighbor F) :=
  ((rows start).find? fun n => (rows n.toId).any (·.toId == v)).bind fun n =>
    ((rows n.toId).find? (·.toId == v)).map fun m => (n, m)

theorem find_congr {α : Type} {l : List α} {p q : α → Bool} (h : ∀ x ∈ l, p x = q x) :
    l.find? p = l.find? q := by
  rw [← List.head?_filter, ← List.head?_filter, List.filter_congr h]

theorem find_pairs {A : Type} (P : ℤ → Bool) (frontier : List (Hit A)) :
    (pairs rows frontier).find? (fun p => P p.2.toId) =
      (frontier.find? fun h => (rows h.node).any fun n => P n.toId).bind fun h =>
        ((rows h.node).find? fun n => P n.toId).map fun n => (h, n) := by
  induction frontier with
  | nil => rfl
  | cons h frontier ih =>
    have hsplit : pairs rows (h :: frontier) =
        (rows h.node).map (fun n => (h, n)) ++ pairs rows frontier := rfl
    have hfind : ((rows h.node).map fun n => (h, n)).find? (fun p => P p.2.toId) =
        ((rows h.node).find? fun n => P n.toId).map fun n => (h, n) := List.find?_map ..
    rw [hsplit, List.find?_append, hfind, ih]
    by_cases hany : ((rows h.node).any fun n => P n.toId) = true
    · simp only [List.find?_cons, hany]
      obtain ⟨n, hn, hp⟩ := List.any_eq_true.mp hany
      have hsome : ((rows h.node).find? fun n => P n.toId).isSome :=
        List.find?_isSome.mpr ⟨n, hn, hp⟩
      obtain ⟨m, hm⟩ := Option.isSome_iff_exists.mp hsome
      rw [hm, Option.bind_some, hm]
      rfl
    · simp only [List.find?_cons, hany]
      have hnone : (rows h.node).find? (fun n => P n.toId) = none := by
        simpa [List.find?_eq_none] using hany
      rw [hnone]
      rfl

/-- The hits of depth one, and those of depth two. -/
def first (rows : ℤ → List (Neighbor F)) (start : ℤ) : List (Hit (List (Neighbor F))) :=
  taken (fun _ walk n => walk ++ [n]) 1 [start] (pairs rows [⟨start, [], 0⟩])

/-- The hits at depth 2. -/
def second (rows : ℤ → List (Neighbor F)) (start : ℤ) : List (Hit (List (Neighbor F))) :=
  taken (fun _ walk n => walk ++ [n]) 2 ((first rows start).reverse.map Hit.node ++ [start])
    (pairs rows (first rows start))

/-- **A hit of depth two is found along the second hop to its node.** -/
theorem find_second {v : ℤ} (hv : v ∉ (first rows start).reverse.map Hit.node ++ [start])
    (hstart : ∀ n ∈ rows start, n.toId ≠ v) :
    (second rows start).find? (fun h => h.node == v) =
      (secondHop rows start v).map fun hop => ⟨v, [hop.1, hop.2], 2⟩ := by
  have hfirst : (first rows start).find? (fun h => (rows h.node).any (·.toId == v)) =
      ((rows start).find? fun n => (rows n.toId).any (·.toId == v)).map
        fun n => ⟨n.toId, [n], 1⟩ := by
    rw [first, find_taken _ _ fun u => (rows u).any (·.toId == v)]
    have hpairs : pairs rows [(⟨start, [], 0⟩ : Hit (List (Neighbor F)))] =
        (rows start).map fun n => (⟨start, [], 0⟩, n) := by simp [pairs]
    have hsame : ∀ n ∈ rows start, ((rows n.toId).any (·.toId == v) &&
        decide (n.toId ∉ [start])) = (rows n.toId).any (·.toId == v) := by
      intro n hn
      by_cases heq : n.toId = start
      · simpa [heq] using hstart
      · simp [heq]
    rw [hpairs, List.find?_map, Option.map_map]
    simp only [Function.comp_def]
    rw [find_congr hsame]
    rfl
  rw [second, find_taken _ _ (· == v), secondHop]
  have hnew : ∀ p ∈ pairs rows (first rows start), (p.2.toId == v &&
      decide (p.2.toId ∉ (first rows start).reverse.map Hit.node ++ [start])) =
        (p.2.toId == v) := by
    intro p _
    by_cases heq : p.2.toId = v
    · simpa [heq] using hv
    · simp [heq]
  rw [find_congr hnew, find_pairs (· == v), hfirst]
  cases (rows start).find? fun n => (rows n.toId).any (·.toId == v) with
  | none => rfl
  | some n =>
    simp only [Option.map_some, Option.bind_some]
    cases hm : (rows n.toId).find? (·.toId == v) with
    | none => rfl
    | some m =>
      have hnode : m.toId = v := by simpa using List.find?_some hm
      simp [found, hnode]

theorem isWalk_first : ∀ h ∈ first rows start, IsWalk rows start h ∧ h.depth = 1 :=
  forall_taken kept_isWalk isWalk_start [start]

/-- The first hits are the neighbors of the start. -/
theorem takes_first : Takes (· ∈ [start]) (fun v => ∃ n ∈ rows start, n.toId = v)
    ((first rows start).map Hit.node) := by
  refine (takes_taken _ [start]).congr fun u => ?_
  constructor
  · rintro ⟨p, hp, rfl⟩
    obtain ⟨hmem, hn⟩ := mem_pairs.mp hp
    rw [List.mem_singleton.mp hmem] at hn
    exact ⟨p.2, hn, rfl⟩
  · rintro ⟨n, hn, rfl⟩
    exact ⟨(⟨start, [], 0⟩, n), mem_pairs.mpr ⟨List.mem_singleton_self _, hn⟩, rfl⟩

theorem takes_second : Takes (· ∈ (first rows start).reverse.map Hit.node ++ [start])
    (fun v => ∃ p ∈ pairs rows (first rows start), p.2.toId = v)
    ((second rows start).map Hit.node) :=
  takes_taken _ _

/-- A hit at depth 2 has its second hop. -/
theorem mem_second {h : Hit (List (Neighbor F))} (hh : h ∈ second rows start) :
    IsWalk rows start h ∧ h.depth = 2 ∧
      ∃ hop, secondHop rows start h.node = some hop ∧ h.info = [hop.1, hop.2] := by
  have hwalk := forall_taken kept_isWalk isWalk_first _ h hh
  refine ⟨hwalk.1, hwalk.2, ?_⟩
  have hnew := ((takes_second.mem_iff h.node).mp (List.mem_map_of_mem hh)).2
  have hstart : ∀ n ∈ rows start, n.toId ≠ h.node := by
    rintro n hn heq
    by_cases hself : n.toId = start
    · exact hnew (by simp [← heq, hself])
    · have hmem := (takes_first.mem_iff n.toId).mpr ⟨⟨n, hn, rfl⟩, by simpa using hself⟩
      refine hnew (List.mem_append_left _ ?_)
      rwa [List.map_reverse, List.mem_reverse, ← heq]
  have hfind := find_second hnew hstart
  obtain ⟨h', hh'⟩ : ∃ h', (second rows start).find? (fun x => x.node == h.node) = some h' :=
    Option.isSome_iff_exists.mp (List.find?_isSome.mpr ⟨h, hh, by simp⟩)
  have hsame : h' = h := by
    have hnode : h'.node = h.node := by simpa using List.find?_some hh'
    exact List.inj_on_of_nodup_map takes_second.nodup (List.mem_of_find?_eq_some hh') hh hnode
  rw [hh', hsame] at hfind
  obtain ⟨hop, hhop, heq⟩ := Option.map_eq_some_iff.mp hfind.symm
  exact ⟨hop, hhop, by rw [← heq]⟩

/-- The hits of depth two are the nodes of that distance. -/
theorem distance_second {R : ℤ → ℤ → Prop}
    (hrows : ∀ u v, v ∈ (rows u).map Neighbor.toId ↔ R u v) {h : Hit (List (Neighbor F))}
    (hh : h ∈ second rows start) : Distance R (· = start) 2 h.node := by
  let one := Search.turn rows (fun _ walk n => walk ++ [n]) (0 + 1) [start] [] [⟨start, [], 0⟩]
  have hone : At R start (0 + 1) one.visited one.out one.next := (At.begin []).turn hrows
  let two := Search.turn rows (fun _ walk n => walk ++ [n]) (1 + 1) one.visited one.out one.next
  have htwo : At R start (1 + 1) two.visited two.out two.next := hone.turn hrows
  have hnext : two.next = second rows start := by
    simp only [two, one, turn_eq]
    rfl
  rw [hnext] at htwo
  exact (htwo.distance.frontier_iff h.node).mp (List.mem_map_of_mem hh)

/-- The walks find the right nodes. -/
theorem findsAll_walks {R : ℤ → ℤ → Prop}
    (hrows : ∀ u v, v ∈ (rows u).map Neighbor.toId ↔ R u v) (maxDepth : ℕ) :
    FindsAll R start maxDepth (walks rows maxDepth start) := by
  have hall : FindsAll R start (0 + maxDepth) (walks rows maxDepth start) :=
    (At.begin []).loop_findsAll hrows maxDepth
  rwa [Nat.zero_add] at hall

theorem walks_one : walks rows 1 start = first rows start := by
  rw [walks, run, loop, turn_eq]
  split <;> rfl

variable (rows start) in

/-- With two turns or more the hits at depth 2 come after the first ones. -/
theorem walks_add_two (n : ℕ) : walks rows (n + 2) start = first rows start ∨
    walks rows (n + 2) start = first rows start ++ second rows start ∨
      ∃ visited, walks rows (n + 2) start =
        loop rows (fun _ walk n => walk ++ [n]) n (2 + 1) visited
          (first rows start ++ second rows start) (second rows start) := by
  rw [walks, run, loop, turn_eq]
  split
  · exact .inl rfl
  · rw [loop, turn_eq]
    split
    · exact .inr (.inl rfl)
    · exact .inr (.inr ⟨_, rfl⟩)

/-- From depth two on, a walk begins with a second hop. -/
theorem exists_second_start {maxDepth : ℕ} {h : Hit (List (Neighbor F))}
    (hh : h ∈ walks rows maxDepth start) (hdepth : 2 ≤ h.depth) :
    ∃ x ∈ second rows start, x.info <+: h.info := by
  have hfirst : ∀ x ∈ first rows start,
      2 ≤ x.depth → ∃ y ∈ second rows start, y.info <+: x.info := by
    intro x hx hle
    rw [(isWalk_first x hx).2] at hle
    omega
  have hkept : Kept rows (fun _ walk n => walk ++ [n])
      fun x => ∃ y ∈ second rows start, y.info <+: x.info := by
    rintro x ⟨y, hy, hpre⟩ n -
    exact ⟨y, hy, hpre.trans (List.prefix_append _ _)⟩
  have hsecond : ∀ x ∈ second rows start,
      (∃ y ∈ second rows start, y.info <+: x.info) ∧ x.depth = 2 :=
    fun x hx => ⟨⟨x, hx, List.prefix_refl _⟩, (mem_second hx).2.1⟩
  match maxDepth with
  | 0 => cases hh
  | 1 =>
    rw [walks_one] at hh
    exact hfirst h hh hdepth
  | n + 2 =>
    have hall : ∀ x ∈ first rows start ++ second rows start,
        2 ≤ x.depth → ∃ y ∈ second rows start, y.info <+: x.info := by
      intro x hx hle
      rcases List.mem_append.mp hx with hx | hx
      · exact hfirst x hx hle
      · exact (hsecond x hx).1
    rcases walks_add_two rows start n with heq | heq | ⟨visited, heq⟩
    · exact hfirst h (heq ▸ hh) hdepth
    · exact hall h (heq ▸ hh) hdepth
    · exact forall_loop (Q := fun x => 2 ≤ x.depth → ∃ y ∈ second rows start, y.info <+: x.info)
        hkept (fun _ hx _ => hx) n hall hsecond h (heq ▸ hh) hdepth

end Walks

end Search

/-! ## Scores -/

section Scores

variable {F : Type} [Field F]

/-- The relations of a walk as they are reported. -/
def chainOf (walk : List (Neighbor F)) : String :=
  walk.foldl (fun chain n => extendChain chain n.rel) ""

/-- The product of the weights. -/
def weightOf (walk : List (Neighbor F)) : F := (walk.map Neighbor.weight).prod

/-- The score with which a walk is reported: one factor for each hop. -/
def scoreOf (decay : F) (walk : List (Neighbor F)) : F :=
  weightOf walk * ∏ i ∈ Finset.range walk.length, decay ^ asI32 (i + 1)

theorem weightOf_append (walk : List (Neighbor F)) (n : Neighbor F) :
    weightOf (walk ++ [n]) = weightOf walk * n.weight := by simp [weightOf]

/-- The score of a walk with one step more. -/
theorem scoreOf_append (decay : F) (walk : List (Neighbor F)) (n : Neighbor F) :
    scoreOf decay (walk ++ [n]) =
      scoreOf decay walk * n.weight * decay ^ asI32 (walk.length + 1) := by
  rw [scoreOf, scoreOf, weightOf_append, List.length_append, List.length_singleton,
    Finset.prod_range_succ]
  ring

/-- After a walk of weight zero all scores are zero. -/
theorem weightOf_eq_zero {walk walk' : List (Neighbor F)} (hpre : walk <+: walk')
    (hzero : weightOf walk = 0) : weightOf walk' = 0 := by
  obtain ⟨rest, rfl⟩ := hpre
  rw [weightOf] at hzero ⊢
  rw [List.map_append, List.prod_append, hzero, zero_mul]

/-- The score of a hop is right. -/
theorem scoreOf_singleton (decay : F) (n : Neighbor F) : scoreOf decay [n] = n.weight * decay := by
  have hpow : asI32 1 = 1 := by decide
  simp [scoreOf, weightOf, hpow]

/-- The score of two hops has the decay three times. -/
theorem scoreOf_pair (decay : F) (n m : Neighbor F) :
    scoreOf decay [n, m] = n.weight * m.weight * decay ^ 3 := by
  have hone : asI32 1 = 1 := by decide
  have htwo : asI32 2 = 2 := by decide
  simp only [scoreOf, weightOf, List.map_cons, List.map_nil, List.prod_cons, List.prod_nil,
    List.length_cons, List.length_nil, Finset.prod_range_succ, Finset.prod_range_zero, Nat.zero_add,
    Nat.reduceAdd, hone, htwo, zpow_ofNat]
  ring

theorem scoreOf_decay_one (walk : List (Neighbor F)) : scoreOf 1 walk = weightOf walk := by
  simp [scoreOf]

theorem scoreOf_decay_zero {walk : List (Neighbor F)} (hpos : 1 ≤ walk.length) :
    scoreOf 0 walk = 0 := by
  have hpow : asI32 1 = 1 := by decide
  rw [scoreOf, Finset.prod_eq_zero (Finset.mem_range.mpr hpos) (by simp [hpow]), mul_zero]

/-- Score and chain of a walk. -/
def scored (decay : F) (walk : List (Neighbor F)) : F × String := (scoreOf decay walk, chainOf walk)

/-- The score that is handed on is that of the longer walk. -/
theorem extendScore_scored (decay : F) {rows : ℤ → List (Neighbor F)} {start : ℤ}
    {h : Hit (List (Neighbor F))} (hh : Search.IsWalk rows start h) (n : Neighbor F) :
    extendScore decay (h.depth + 1) (scored decay h.info) n = scored decay (h.info ++ [n]) := by
  rw [extendScore, scored, scored, scoreOf_append, hh.2, chainOf, chainOf, List.foldl_append]
  rfl

/-- The hits of a traversal are its walks, with their scores and chains. -/
theorem run_extendScore (rows : ℤ → List (Neighbor F)) (decay : F) (maxDepth : ℕ) (start : ℤ) :
    Search.run rows (extendScore decay) maxDepth start (1, "") =
      (Search.walks rows maxDepth start).map (Search.mapInfo (scored decay)) := by
  have hstart : scored decay ([] : List (Neighbor F)) = (1, "") := by
    simp [scored, scoreOf, weightOf, chainOf]
  have hmap : Search.loop rows (extendScore decay) maxDepth (0 + 1) [start]
      (([] : List (Hit (List (Neighbor F)))).map (Search.mapInfo (scored decay)))
      ([⟨start, [], 0⟩].map (Search.mapInfo (scored decay))) =
        (Search.loop rows (fun _ walk n => walk ++ [n]) maxDepth (0 + 1) [start] []
          [⟨start, [], 0⟩]).map (Search.mapInfo (scored decay)) :=
    Search.loop_map Search.kept_isWalk (fun h hh n => extendScore_scored decay hh n) maxDepth
      Search.isWalk_start
  rw [List.map_nil, List.map_singleton, Search.mapInfo, hstart] at hmap
  exact hmap

/-- The score is right at depth one, and from depth two on where the first two hops have no
weight. -/
theorem scoreOf_walks_iff {rows : ℤ → List (Neighbor F)} {R : ℤ → ℤ → Prop} {start : ℤ}
    (hrows : ∀ u v, v ∈ (rows u).map Neighbor.toId ↔ R u v) (maxDepth : ℕ) (decay : F) :
    (∀ h ∈ Search.walks rows maxDepth start,
      scoreOf decay h.info = weightOf h.info * decay ^ h.depth) ↔
    decay = 0 ∨ decay = 1 ∨ maxDepth ≤ 1 ∨ ∀ v, Distance R (· = start) 2 v →
      ∀ n m, Search.secondHop rows start v = some (n, m) → n.weight * m.weight = 0 := by
  have hfinds : Search.FindsAll R start maxDepth (Search.walks rows maxDepth start) :=
    Search.findsAll_walks hrows maxDepth
  constructor
  · intro hscores
    by_contra! hnot
    obtain ⟨hzero, hone, hdepth, v, hv, n, m, hhop, hweight⟩ := hnot
    obtain ⟨h, hh, hkey⟩ := List.mem_map.mp ((hfinds.2 v 2).mpr ⟨by omega, hdepth, hv⟩)
    obtain ⟨rfl, htwo⟩ : h.node = v ∧ h.depth = 2 := Prod.mk.inj hkey
    obtain ⟨x, hx, hpre⟩ := Search.exists_second_start hh htwo.ge
    obtain ⟨hwalkx, hxtwo, hop, hhop', hinfo⟩ := Search.mem_second hx
    have hwalkh := Search.isWalk_of_mem_walks hh
    have hsame : x.info = h.info := by
      refine hpre.eq_of_length ?_
      rw [hwalkx.2, hwalkh.2, hxtwo, htwo]
    have hnode : x.node = h.node := (hsame ▸ hwalkx.1).unique hwalkh.1
    rw [hnode, hhop] at hhop'
    obtain rfl := Option.some.inj hhop'
    have hscore := hscores h hh
    rw [← hsame, hinfo, scoreOf_pair, htwo] at hscore
    have hpair : weightOf [n, m] = n.weight * m.weight := by simp [weightOf]
    rw [hpair] at hscore
    have hpow : decay ^ 2 * decay = decay ^ 2 * 1 := by
      rw [mul_one, ← pow_succ]
      exact mul_left_cancel₀ hweight hscore
    exact hone (mul_left_cancel₀ (pow_ne_zero 2 hzero) hpow)
  · intro hcond h hh
    obtain ⟨hwalk, hlength⟩ := Search.isWalk_of_mem_walks hh
    obtain ⟨hpos, hle, -⟩ := (hfinds.2 h.node h.depth).mp (List.mem_map_of_mem hh)
    by_cases hshort : h.depth = 1
    · obtain ⟨n, hn⟩ := List.length_eq_one_iff.mp (hlength.trans hshort)
      rw [hn, scoreOf_singleton, hshort, pow_one]
      simp [weightOf]
    · rcases hcond with rfl | rfl | hdepth | hhops
      · rw [scoreOf_decay_zero (hpos.trans hlength.ge), zero_pow (by omega), mul_zero]
      · rw [scoreOf_decay_one, one_pow, mul_one]
      · omega
      · -- the walk begins with a second hop, of which the weight is zero
        obtain ⟨x, hx, hpre⟩ := Search.exists_second_start hh (by omega)
        obtain ⟨-, -, hop, hhop, hinfo⟩ := Search.mem_second hx
        have hzero : weightOf h.info = 0 := by
          refine weightOf_eq_zero hpre ?_
          have hprod := hhops x.node (Search.distance_second hrows hx) hop.1 hop.2 hhop
          rw [hinfo]
          simpa [weightOf] using hprod
        rw [scoreOf, hzero, zero_mul, zero_mul]

end Scores

/-! ## The traversal as it is documented -/

section Documented

variable {F : Type} [Field F] [LinearOrder F] {t : EdgeTable F} {sort : ByWeight F} {start : ℤ}
  {maxDepth topK : ℕ} {decay : F} {rel : Option String}

/-- The nodes up to the largest depth, each with its distance and with the weights of the walk that
is reported, the decay once for each hop. -/
structure Scored (t : EdgeTable F) (sort : ByWeight F) (start : ℤ) (maxDepth topK : ℕ) (decay : F)
    (rel : Option String) (hits : List (Hit (F × String))) : Prop where
  nodes : Search.FindsAll (t.Leads rel) start maxDepth hits
  scores : ∀ h ∈ hits, ∃ walk,
    ⟨h.node, walk, h.depth⟩ ∈ Search.walks (fun u => t.neighbors sort u rel topK) maxDepth start ∧
    Search.Walk (fun u => t.neighbors sort u rel topK) start walk h.node ∧
    h.info.2 = chainOf walk ∧ h.info.1 = weightOf walk * decay ^ h.depth

/-- When the traversal returns, and what. -/
theorem traverse_eq_some {hits : List (Hit (F × String))} :
    t.traverse sort start maxDepth topK decay rel = some hits ↔
      hasCapacity (topK * maxDepth) ∧
        ((Search.walks (fun u => t.neighbors sort u rel topK) maxDepth start).map
          (Search.mapInfo (scored decay))).mergeSort (fun a b => b.info.1 ≤ a.info.1) = hits := by
  rw [EdgeTable.traverse, run_extendScore]
  split <;> simp [*]

omit [Field F] in
/-- Where the limit cuts nothing off, the neighbors are what a node leads to. -/
theorem neighbors_leads (sort : ByWeight F) (hout : ∀ u, (t.outEdges u rel).length ≤ topK)
    (u v : ℤ) : v ∈ (t.neighbors sort u rel topK).map Neighbor.toId ↔ t.Leads rel u v :=
  EdgeTable.mem_neighbors (hout u)

/-- A traversal is as documented if each walk has the score that is documented. -/
theorem scored_iff (hout : ∀ u, (t.outEdges u rel).length ≤ topK)
    {hits : List (Hit (F × String))} (htraverse :
      t.traverse sort start maxDepth topK decay rel = some hits) :
    Scored t sort start maxDepth topK decay rel hits ↔
      ∀ h ∈ Search.walks (fun u => t.neighbors sort u rel topK) maxDepth start,
        scoreOf decay h.info = weightOf h.info * decay ^ h.depth := by
  obtain ⟨-, rfl⟩ := traverse_eq_some.mp htraverse
  have hperm := List.mergeSort_perm ((Search.walks (fun u => t.neighbors sort u rel topK) maxDepth
    start).map (Search.mapInfo (scored decay))) fun a b => b.info.1 ≤ a.info.1
  constructor
  · intro hscored h hh
    have hmem := hperm.mem_iff.mpr (List.mem_map_of_mem (f := Search.mapInfo (scored decay)) hh)
    obtain ⟨walk, hwalk, -, -, hscore⟩ := hscored.scores _ hmem
    have hsame : (⟨h.node, walk, h.depth⟩ : Hit (List (Neighbor F))) = h :=
      List.inj_on_of_nodup_map (Search.findsAll_walks (neighbors_leads sort hout) maxDepth).1
        hwalk hh rfl
    have hinfo : walk = h.info := congrArg Hit.info hsame
    rw [hinfo] at hscore
    exact hscore
  · intro hall
    refine ⟨?_, ?_⟩
    · obtain ⟨hnodup, hmem⟩ : Search.FindsAll (t.Leads rel) start maxDepth
          (Search.walks (fun u => t.neighbors sort u rel topK) maxDepth start) :=
        Search.findsAll_walks (neighbors_leads sort hout) maxDepth
      refine ⟨?_, fun v d => ?_⟩
      · rw [(hperm.map Hit.node).nodup_iff, List.map_map]
        exact hnodup
      · rw [(hperm.map Search.key).mem_iff, List.map_map]
        exact hmem v d
    · intro x hx
      obtain ⟨h, hh, rfl⟩ := List.mem_map.mp (hperm.mem_iff.mp hx)
      exact ⟨h.info, hh, (Search.isWalk_of_mem_walks hh).1, rfl, hall h hh⟩

/-- **When the scores are as documented.** -/
theorem traverse_scored_iff (t : EdgeTable F) (sort : ByWeight F) (start : ℤ) (maxDepth topK : ℕ)
    (decay : F) (rel : Option String) (hout : ∀ u, (t.outEdges u rel).length ≤ topK) :
    (∃ hits, t.traverse sort start maxDepth topK decay rel = some hits ∧
      Scored t sort start maxDepth topK decay rel hits) ↔
    hasCapacity (topK * maxDepth) ∧
      (decay = 0 ∨ decay = 1 ∨ maxDepth ≤ 1 ∨ ∀ v, Distance (t.Leads rel) (· = start) 2 v →
        ∀ n m, Search.secondHop (fun u => t.neighbors sort u rel topK) start v = some (n, m) →
          n.weight * m.weight = 0) := by
  rw [← scoreOf_walks_iff (neighbors_leads sort hout) maxDepth decay]
  constructor
  · rintro ⟨hits, htraverse, hscored⟩
    exact ⟨(traverse_eq_some.mp htraverse).1, (scored_iff hout htraverse).mp hscored⟩
  · rintro ⟨hcapacity, hscores⟩
    refine ⟨_, traverse_eq_some.mpr ⟨hcapacity, rfl⟩, ?_⟩
    exact (scored_iff hout (traverse_eq_some.mpr ⟨hcapacity, rfl⟩)).mpr hscores

end Documented

/-- Rows of one weight in the order of the table. -/
def byWeight : ByWeight ℚ where
  order := List.insertionSort fun a b => b.weight ≤ a.weight
  perm := List.perm_insertionSort _
  sorted l := by
    have htotal : Std.Total fun a b : Edge ℚ => b.weight ≤ a.weight :=
      ⟨fun a b => le_total b.weight a.weight⟩
    have htrans : IsTrans (Edge ℚ) fun a b => b.weight ≤ a.weight :=
      ⟨fun _ _ _ hab hbc => le_trans hbc hab⟩
    exact List.pairwise_insertionSort _ l

/-- `1` knows `2`, and `2` knows `3`. -/
def chainTable (weight : ℚ) : EdgeTable ℚ where
  rows := [⟨1, 2, "k", 9 / 10, none⟩, ⟨2, 3, "k", weight, none⟩]
  keys_nodup := show [(1, 2, "k"), (2, 3, "k")].Nodup by decide

theorem chainTable_leads {weight : ℚ} {u v : ℤ} :
    (chainTable weight).Leads none u v ↔ u = 1 ∧ v = 2 ∨ u = 2 ∧ v = 3 := by
  rw [EdgeTable.Leads, eq_comm (a := u), eq_comm (a := v), eq_comm (a := u), eq_comm (a := v)]
  simp [EdgeTable.outEdges, chainTable, or_and_right, exists_or]

/-- Where the second edge has no weight, the node at depth two has the score that it should have. -/
theorem traverse_scored_iff_chainTable :
    (∀ u, ((chainTable 0).outEdges u none).length ≤ 5) ∧
      ∃ hits, (chainTable 0).traverse byWeight 1 3 5 (7 / 10) none = some hits ∧
        Scored (chainTable 0) byWeight 1 3 5 (7 / 10) none hits := by
  have hout : ∀ u, ((chainTable 0).outEdges u none).length ≤ 5 :=
    fun u => (List.length_filter_le _ _).trans (by decide)
  have hcondition := traverse_scored_iff (chainTable 0) byWeight 1 3 5 (7 / 10) none hout
  have hweights :
      ∀ hops ∈ Search.secondHop (fun u => (chainTable 0).neighbors byWeight u none 5) 1 3,
        hops.1.weight * hops.2.weight = 0 := by
    decide +kernel
  refine ⟨hout, hcondition.mpr ⟨by decide, .inr (.inr (.inr fun v hv n m hhop => ?_))⟩⟩
  -- the node at depth two is `3`
  obtain ⟨w, ⟨u, rfl, huw⟩, hwv⟩ := hv.1
  have hw := chainTable_leads.mp huw
  have hv := chainTable_leads.mp hwv
  obtain rfl : v = 3 := by omega
  exact hweights (n, m) hhop

/-- The node at depth two has the decay three times. -/
theorem traverse_chainTable :
    ¬∃ hits, (chainTable (8 / 10)).traverse byWeight 1 3 5 (7 / 10) none = some hits ∧
      Scored (chainTable (8 / 10)) byWeight 1 3 5 (7 / 10) none hits := by
  rintro ⟨hits, htraverse, hscored⟩
  have hout : ∀ u, ((chainTable (8 / 10)).outEdges u none).length ≤ 5 :=
    fun u => (List.length_filter_le _ _).trans (by decide)
  have hscores := (scored_iff hout htraverse).mp hscored
  have hdistance : Distance ((chainTable (8 / 10)).Leads none) (· = 1) 2 3 := by
    refine ⟨⟨2, ⟨1, rfl, chainTable_leads.mpr (by simp)⟩, chainTable_leads.mpr (by simp)⟩, ?_⟩
    intro m hm hreach
    match m with
    | 0 =>
      have hstart : (3 : ℤ) = 1 := hreach
      omega
    | 1 =>
      obtain ⟨u, rfl, huv⟩ := hreach
      rw [chainTable_leads] at huv
      omega
  rw [scoreOf_walks_iff (neighbors_leads byWeight hout)] at hscores
  rcases hscores with hzero | hone | hdepth | hhops
  · norm_num at hzero
  · norm_num at hone
  · omega
  · have hweight := hhops 3 hdistance ⟨2, 9 / 10, "k"⟩ ⟨3, 8 / 10, "k"⟩ rfl
    norm_num at hweight

end Edges

end SynapseMemory
