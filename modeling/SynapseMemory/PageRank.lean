import SynapseMemory.Communities

/-!
# PageRank

The model of `pagerank`, with scores in an ordered field. In an iteration a node hands its score on
along its edges, each with its share of the weights, and a node without edges gives to all nodes.
The rest is `teleport`. A division by zero has no value, and so has the score that it is added to:
the result is `none` then.

What a node hands on is its score, damped, whichever of the two ways it goes (`visitNode_spec`). So
the sum stays 1. A node with edges of weight 0 only is in neither case: it is not dangling, and its
shares are `0 / 0` (`pagerank_conserves_iff`).
-/

namespace SynapseMemory

namespace Edges

open Accumulator

variable {F : Type} [Field F] [LinearOrder F]

/-- The scores, by their nodes. -/
abbrev Scores (F : Type) : Type := List (ℤ × F)

/-! ## The code -/

/-- `out_edges.get(&from)`, empty for no entry. -/
def EdgeTable.outOf (t : EdgeTable F) (node : ℤ) : List (ℤ × F) :=
  (t.rows.filter (·.fromId = node)).map fun e => (e.toId, e.weight)

/-- `out_sum.get(&from)` -/
def EdgeTable.outSum (t : EdgeTable F) (node : ℤ) : Option F :=
  if (t.outOf node).isEmpty then none else some ((t.outOf node).map Prod.snd).sum

/-- `w / total` -/
def share? (w total : F) : Option F := if total = 0 then none else some (w / total)

/-- What is handed on along some edges. -/
def handOn (damping cur total : F) (next : Scores F) (es : List (ℤ × F)) : Option (Scores F) :=
  es.foldlM (fun next e => (share? e.2 total).map fun share => add next e.1 (damping * cur * share))
    next

/-- The next scores and the dangling ones, after a node. -/
def visitNode (t : EdgeTable F) (damping : F) (s : Scores F × F) (entry : ℤ × F) :
    Option (Scores F × F) :=
  let es := t.outOf entry.1
  if es.isEmpty then some (s.1, s.2 + entry.2)
  else (handOn damping entry.2 ((t.outSum entry.1).getD 1) s.1 es).map fun next => (next, s.2)

/-- An iteration of the loop, with what sinks have handed to all. -/
def iteration (t : EdgeTable F) (nodes : List ℤ) (damping : F) (entries : Shuffle (ℤ × F))
    (score : Scores F) : Option (Scores F) := do
  let teleport := (1 - damping) / nodes.length
  let s ← (entries.order score).foldlM (visitNode t damping) (nodes.map fun v => (v, teleport), 0)
  if 0 < s.2 then
    let share := damping * s.2 / nodes.length
    some (s.1.map fun e => (e.1, e.2 + share))
  else some s.1

/-- How far the scores have moved. -/
def delta (score next : Scores F) : F :=
  (score.map fun e => |(get next e.1).getD 0 - e.2|).sum

/-- The iterations that are left. -/
def iterations (t : EdgeTable F) (nodes : List ℤ) (damping : F) (entries : ℕ → Shuffle (ℤ × F))
    (tol : Option F) : ℕ → Scores F → Option (Scores F)
  | 0, score => some score
  | iters + 1, score => do
    let next ← iteration t nodes damping (entries iters) score
    if tol.any fun tol => delta score next < tol then some next
    else iterations t nodes damping entries tol iters next

/-- `pagerank` -/
def pagerank (t : EdgeTable F) (set : Shuffle ℤ) (entries : ℕ → Shuffle (ℤ × F)) (damping : F)
    (iters : ℕ) (tol : Option F) : Option (Scores F) :=
  let nodes := t.nodes set
  if nodes.length = 0 then some []
  else iterations t nodes damping entries tol iters (nodes.map fun v => (v, 1 / nodes.length))

/-! ## Weights -/

/-- A node that has edges has one that carries weight. -/
def EdgeTable.Weighted (t : EdgeTable F) : Prop :=
  ∀ e ∈ t.rows, ∃ e' ∈ t.rows, e'.fromId = e.fromId ∧ 0 < e'.weight

omit [Field F] [LinearOrder F] in
theorem mem_outOf {t : EdgeTable F} {node : ℤ} {p : ℤ × F} :
    p ∈ t.outOf node ↔ ∃ e ∈ t.rows, e.fromId = node ∧ (e.toId, e.weight) = p := by
  simp [EdgeTable.outOf, and_assoc]

omit [Field F] in
theorem outOf_nonneg [Zero F] {t : EdgeTable F} (hweights : ∀ e ∈ t.rows, 0 ≤ e.weight) {node : ℤ} :
    ∀ w ∈ (t.outOf node).map Prod.snd, 0 ≤ w := by
  intro w hw
  obtain ⟨p, hp, rfl⟩ := List.mem_map.mp hw
  obtain ⟨e, he, -, rfl⟩ := mem_outOf.mp hp
  exact hweights e he

omit [LinearOrder F] in
theorem outSum_of_ne_nil {t : EdgeTable F} {node : ℤ} (h : t.outOf node ≠ []) :
    (t.outSum node).getD 1 = ((t.outOf node).map Prod.snd).sum := by
  rw [EdgeTable.outSum, if_neg (List.isEmpty_iff.not.mpr h), Option.getD_some]

variable [IsStrictOrderedRing F]

/-- A sum of weights is positive just if one of them is. -/
theorem sum_pos_iff {ws : List F} (h : ∀ w ∈ ws, 0 ≤ w) : 0 < ws.sum ↔ ∃ w ∈ ws, 0 < w := by
  induction ws with
  | nil => simp
  | cons w ws ih =>
    obtain ⟨hw, hws⟩ := List.forall_mem_cons.mp h
    have hsum : 0 ≤ ws.sum := List.sum_nonneg hws
    rw [List.sum_cons, List.exists_mem_cons_iff, ← ih hws]
    constructor
    · intro hpos
      by_contra hnone
      obtain ⟨hw', hsum'⟩ := not_or.mp hnone
      linarith
    · rintro (hpos | hpos) <;> linarith

/-- A node passes something on if an edge of it has a weight. -/
theorem outSum_pos_iff {t : EdgeTable F} (hweights : ∀ e ∈ t.rows, 0 ≤ e.weight) {node : ℤ} :
    0 < ((t.outOf node).map Prod.snd).sum ↔ ∃ e ∈ t.rows, e.fromId = node ∧ 0 < e.weight := by
  rw [sum_pos_iff (outOf_nonneg hweights)]
  constructor
  · rintro ⟨w, hw, hpos⟩
    obtain ⟨p, hp, rfl⟩ := List.mem_map.mp hw
    obtain ⟨e, he, hfrom, rfl⟩ := mem_outOf.mp hp
    exact ⟨e, he, hfrom, hpos⟩
  · rintro ⟨e, he, hfrom, hpos⟩
    exact ⟨e.weight, List.mem_map.mpr ⟨_, mem_outOf.mpr ⟨e, he, hfrom, rfl⟩, rfl⟩, hpos⟩

/-- A node without weight on its edges is in neither case of `visitNode`. -/
theorem exists_idle {t : EdgeTable F} (hweights : ∀ e ∈ t.rows, 0 ≤ e.weight) (h : ¬t.Weighted) :
    ∃ e ∈ t.rows, t.outOf e.fromId ≠ [] ∧ ((t.outOf e.fromId).map Prod.snd).sum = 0 := by
  rw [EdgeTable.Weighted] at h
  push Not at h
  obtain ⟨e, he, hnone⟩ := h
  have hmem : (e.toId, e.weight) ∈ t.outOf e.fromId := mem_outOf.mpr ⟨e, he, rfl, rfl⟩
  refine ⟨e, he, List.ne_nil_of_mem hmem, ?_⟩
  refine le_antisymm (not_lt.mp fun hpos => ?_) (List.sum_nonneg (outOf_nonneg hweights))
  obtain ⟨e', he', hfrom, hpos'⟩ := (outSum_pos_iff hweights).mp hpos
  exact absurd hpos' (hnone e' he' hfrom).not_gt

/-! ## Mass -/

/-- Scores of some nodes. -/
structure ScoresOn (nodes : List ℤ) (score : Scores F) : Prop where
  keys_eq : keys score = nodes
  nonneg : ∀ e ∈ score, 0 ≤ e.2

omit [IsStrictOrderedRing F] in
theorem ScoresOn.uniform {nodes : List ℤ} {x : F} (hx : 0 ≤ x) :
    ScoresOn nodes (nodes.map fun v => (v, x)) where
  keys_eq := by simp [keys, Function.comp_def]
  nonneg := by simpa using fun _ _ => hx

omit [LinearOrder F] [IsStrictOrderedRing F] in
theorem total_uniform (nodes : List ℤ) (x : F) :
    total (nodes.map fun v => (v, x)) = nodes.length * x := by
  simp [total, Function.comp_def]

theorem ScoresOn.add {nodes : List ℤ} {score : Scores F} (h : ScoresOn nodes score) {v : ℤ}
    (hv : v ∈ nodes) {x : F} (hx : 0 ≤ x) : ScoresOn nodes (Accumulator.add score v x) where
  keys_eq := (keys_modify_of_mem (h.keys_eq.symm ▸ hv)).trans h.keys_eq
  nonneg := forall_mem_modify (P := fun _ y => 0 ≤ y) (by simpa using hx)
    (fun y hy => by simpa using add_nonneg hy hx) h.nonneg

/-- **Along its edges a node hands on its score**, by the shares of the weights. -/
theorem ScoresOn.handOn {nodes : List ℤ} {damping cur sum : F} (hd : 0 ≤ damping) (hcur : 0 ≤ cur)
    (hsum : 0 < sum) {es : List (ℤ × F)} (hes : ∀ e ∈ es, e.1 ∈ nodes ∧ 0 ≤ e.2) {next : Scores F}
    (h : ScoresOn nodes next) :
    ∃ next', Edges.handOn damping cur sum next es = some next' ∧ ScoresOn nodes next' ∧
      total next' = total next + damping * cur * ((es.map Prod.snd).sum / sum) := by
  induction es generalizing next with
  | nil => exact ⟨next, rfl, h, by simp⟩
  | cons e es ih =>
    obtain ⟨⟨hmem, hw⟩, hes⟩ := List.forall_mem_cons.mp hes
    have hgiven : 0 ≤ damping * cur * (e.2 / sum) :=
      mul_nonneg (mul_nonneg hd hcur) (div_nonneg hw hsum.le)
    obtain ⟨next', hnext', hscored, htotal⟩ := ih hes (h.add hmem hgiven)
    refine ⟨next', ?_, hscored, ?_⟩
    · rw [Edges.handOn, List.foldlM_cons, share?, if_neg hsum.ne', Option.map_some]
      exact hnext'
    · rw [htotal, total_add, List.map_cons, List.sum_cons]
      ring

omit [IsStrictOrderedRing F] in
/-- Without weight nothing can be handed on. -/
theorem handOn_zero {damping cur : F} {es : List (ℤ × F)} (hes : es ≠ []) (next : Scores F) :
    handOn damping cur 0 next es = none := by
  obtain ⟨e, rest, rfl⟩ := List.exists_cons_of_ne_nil hes
  exact Option.foldlM_eq_none List.mem_cons_self (fun _ => by simp [share?]) next

/-- What the loop over the nodes keeps, and the mass that it has. -/
structure Handed (nodes : List ℤ) (damping : F) (s : Scores F × F) (mass : F) : Prop where
  scored : ScoresOn nodes s.1
  dangling : 0 ≤ s.2
  mass_eq : total s.1 + damping * s.2 = mass

/-- Before the loop every node has the teleport score. -/
theorem Handed.teleport {nodes : List ℤ} {damping : F} (h1 : damping ≤ 1)
    (hne : nodes.length ≠ 0) :
    Handed nodes damping (nodes.map fun v => (v, (1 - damping) / (nodes.length : F)), 0)
      (1 - damping) := by
  have hn : (nodes.length : F) ≠ 0 := Nat.cast_ne_zero.mpr hne
  refine ⟨.uniform (div_nonneg (sub_nonneg.mpr h1) (Nat.cast_nonneg _)), le_rfl, ?_⟩
  rw [total_uniform, mul_div_cancel₀ _ hn, mul_zero, add_zero]

/-- **A node adds its score to the mass**, damped. -/
theorem visitNode_spec {t : EdgeTable F} {set : Shuffle ℤ} (hweights : ∀ e ∈ t.rows, 0 ≤ e.weight)
    (hweighted : t.Weighted) {damping : F} (hd : 0 ≤ damping) {s : Scores F × F} {mass : F}
    (h : Handed (t.nodes set) damping s mass) {entry : ℤ × F} (hentry : 0 ≤ entry.2) :
    ∃ s', visitNode t damping s entry = some s' ∧
      Handed (t.nodes set) damping s' (mass + damping * entry.2) := by
  rw [visitNode]
  by_cases hes : t.outOf entry.1 = []
  · refine ⟨(s.1, s.2 + entry.2), by simp [hes], h.scored, add_nonneg h.dangling hentry, ?_⟩
    rw [← h.mass_eq]
    ring
  · obtain ⟨p, hp⟩ := List.exists_mem_of_ne_nil _ hes
    obtain ⟨e, he, hfrom, -⟩ := mem_outOf.mp hp
    have hpos : 0 < ((t.outOf entry.1).map Prod.snd).sum :=
      (outSum_pos_iff hweights).mpr (hfrom ▸ hweighted e he)
    have htargets : ∀ p ∈ t.outOf entry.1, p.1 ∈ t.nodes set ∧ 0 ≤ p.2 := by
      intro p hp
      obtain ⟨e, he, -, rfl⟩ := mem_outOf.mp hp
      exact ⟨mem_nodes.mpr ⟨e, he, .inr rfl⟩, hweights e he⟩
    obtain ⟨next, hnext, hscored, htotal⟩ := h.scored.handOn hd hentry hpos htargets
    rw [div_self hpos.ne', mul_one] at htotal
    refine ⟨(next, s.2), ?_, hscored, h.dangling, ?_⟩
    · rw [if_neg (List.isEmpty_iff.not.mpr hes), outSum_of_ne_nil hes, hnext, Option.map_some]
    · rw [htotal, ← h.mass_eq]
      ring

/-- What all nodes pass on, and what idle ones keep. -/
theorem visitNodes_spec {t : EdgeTable F} {set : Shuffle ℤ}
    (hweights : ∀ e ∈ t.rows, 0 ≤ e.weight) (hweighted : t.Weighted) {damping : F}
    (hd : 0 ≤ damping) {entries : Scores F} (hentries : ∀ e ∈ entries, 0 ≤ e.2)
    {s : Scores F × F} {mass : F} (h : Handed (t.nodes set) damping s mass) :
    ∃ s', entries.foldlM (visitNode t damping) s = some s' ∧
      Handed (t.nodes set) damping s' (mass + damping * total entries) := by
  induction entries generalizing s mass with
  | nil => exact ⟨s, rfl, by simpa [total] using h⟩
  | cons entry entries ih =>
    obtain ⟨hentry, hentries⟩ := List.forall_mem_cons.mp hentries
    obtain ⟨s', hs', hhanded⟩ := visitNode_spec hweights hweighted hd h hentry
    obtain ⟨s'', hs'', hhanded'⟩ := ih hentries hhanded
    refine ⟨s'', by rw [List.foldlM_cons, hs']; exact hs'', ?_⟩
    rwa [total_cons, mul_add, ← add_assoc]

/-! ## Iterations -/

/-- Scores of the nodes with the sum 1. -/
structure Ranked (nodes : List ℤ) (score : Scores F) : Prop extends ScoresOn nodes score where
  total_eq : total score = 1

theorem Ranked.initial {nodes : List ℤ} (h : nodes.length ≠ 0) :
    Ranked nodes (nodes.map fun v => (v, 1 / (nodes.length : F))) where
  toScoresOn := .uniform (by positivity)
  total_eq := by
    have hn : (nodes.length : F) ≠ 0 := Nat.cast_ne_zero.mpr h
    rw [total_uniform, mul_one_div_cancel hn]

/-- **An iteration keeps the sum.** -/
theorem Ranked.iteration {t : EdgeTable F} {set : Shuffle ℤ}
    (hweights : ∀ e ∈ t.rows, 0 ≤ e.weight) (hweighted : t.Weighted) {damping : F}
    (h0 : 0 ≤ damping) (h1 : damping ≤ 1) (hne : (t.nodes set).length ≠ 0)
    (entries : Shuffle (ℤ × F)) {score : Scores F} (h : Ranked (t.nodes set) score) :
    ∃ next, Edges.iteration t (t.nodes set) damping entries score = some next ∧
      Ranked (t.nodes set) next := by
  have hn : ((t.nodes set).length : F) ≠ 0 := Nat.cast_ne_zero.mpr hne
  have hperm := entries.perm score
  obtain ⟨s, hs, hscored, hdangling, hmass⟩ := visitNodes_spec hweights hweighted h0
    (fun e he => h.nonneg e (hperm.mem_iff.mp he)) (Handed.teleport h1 hne)
  rw [total_perm hperm, h.total_eq, mul_one, sub_add_cancel] at hmass
  rw [Edges.iteration]
  dsimp only
  rw [hs, Option.bind_eq_bind, Option.bind_some]
  split
  next =>
    -- the dangling mass goes to all nodes in equal parts
    have hshare : 0 ≤ damping * s.2 / (t.nodes set).length :=
      div_nonneg (mul_nonneg h0 hdangling) (Nat.cast_nonneg _)
    refine ⟨_, rfl, ⟨?_, ?_⟩, ?_⟩
    · rw [keys, List.map_map]
      exact hscored.keys_eq
    · intro e he
      obtain ⟨e', he', rfl⟩ := List.mem_map.mp he
      exact add_nonneg (hscored.nonneg e' he') hshare
    · have hlength : s.1.length = (t.nodes set).length := by
        rw [← hscored.keys_eq, keys, List.length_map]
      rw [total_map_add, hlength, nsmul_eq_mul, mul_div_cancel₀ _ hn, hmass]
  next hnone =>
    have hzero : s.2 = 0 := le_antisymm (not_lt.mp hnone) hdangling
    exact ⟨s.1, rfl, hscored, by rwa [hzero, mul_zero, add_zero] at hmass⟩

/-- After all iterations they still do. -/
theorem Ranked.iterations {t : EdgeTable F} {set : Shuffle ℤ}
    (hweights : ∀ e ∈ t.rows, 0 ≤ e.weight) (hweighted : t.Weighted) {damping : F}
    (h0 : 0 ≤ damping) (h1 : damping ≤ 1) (hne : (t.nodes set).length ≠ 0)
    (entries : ℕ → Shuffle (ℤ × F)) (tol : Option F) (iters : ℕ) {score : Scores F}
    (h : Ranked (t.nodes set) score) :
    ∃ scores, Edges.iterations t (t.nodes set) damping entries tol iters score = some scores ∧
      Ranked (t.nodes set) scores := by
  induction iters generalizing score with
  | zero => exact ⟨score, rfl, h⟩
  | succ iters ih =>
    obtain ⟨next, hnext, hranked⟩ := h.iteration hweights hweighted h0 h1 hne (entries iters)
    rw [Edges.iterations, hnext, Option.bind_eq_bind, Option.bind_some]
    split
    next => exact ⟨next, rfl, hranked⟩
    next => exact ih hranked

omit [IsStrictOrderedRing F] in
/-- An iteration fails on a node whose edges carry no weight. -/
theorem iteration_eq_none {t : EdgeTable F} {nodes : List ℤ} {v : ℤ} (hv : v ∈ nodes)
    (hes : t.outOf v ≠ []) (hsum : ((t.outOf v).map Prod.snd).sum = 0) (damping : F)
    (entries : Shuffle (ℤ × F)) {score : Scores F} (hkeys : keys score = nodes) :
    iteration t nodes damping entries score = none := by
  obtain ⟨entry, hentry, rfl⟩ := List.mem_map.mp (hkeys.symm ▸ hv)
  have hfail : ∀ s, visitNode t damping s entry = none := by
    intro s
    rw [visitNode]
    rw [if_neg (List.isEmpty_iff.not.mpr hes), outSum_of_ne_nil hes, hsum, handOn_zero hes,
      Option.map_none]
  rw [iteration]
  dsimp only
  rw [Option.foldlM_eq_none ((entries.perm score).mem_iff.mpr hentry) hfail]
  rfl

/-! ## The scores -/

/-- **PageRank conserves probability** just if no node has edges of weight 0 only. -/
theorem pagerank_conserves_iff (t : EdgeTable F) (hweights : ∀ e ∈ t.rows, 0 ≤ e.weight)
    (set : Shuffle ℤ) (entries : ℕ → Shuffle (ℤ × F)) {damping : F} (h0 : 0 ≤ damping)
    (h1 : damping ≤ 1) (iters : ℕ) (tol : Option F) :
    (∃ scores, pagerank t set entries damping iters tol = some scores ∧
      keys scores = t.nodes set ∧ (∀ e ∈ scores, 0 ≤ e.2) ∧
      (t.rows ≠ [] → total scores = 1)) ↔
      iters = 0 ∨ t.Weighted := by
  by_cases hne : (t.nodes set).length = 0
  · -- no nodes, so no rows
    have hnil : t.nodes set = [] := List.length_eq_zero_iff.mp hne
    have hrows : t.rows = [] := by
      refine List.eq_nil_iff_forall_not_mem.mpr fun e he => ?_
      have hmem : e.fromId ∈ t.nodes set := mem_nodes.mpr ⟨e, he, .inl rfl⟩
      simp [hnil] at hmem
    refine iff_of_true ⟨[], by simp [pagerank, hne], ?_⟩ (.inr fun e he => ?_)
    · simp [keys, hnil, hrows]
    · simp [hrows] at he
  · rw [pagerank, if_neg hne]
    have hinitial : Ranked (t.nodes set) _ := Ranked.initial (F := F) hne
    constructor
    · rintro ⟨scores, hscores, -⟩
      by_contra hnot
      obtain ⟨hiters, hweighted⟩ := not_or.mp hnot
      obtain ⟨iters, rfl⟩ := Nat.exists_eq_succ_of_ne_zero hiters
      obtain ⟨e, he, hes, hsum⟩ := exists_idle hweights hweighted
      rw [iterations, iteration_eq_none (mem_nodes.mpr ⟨e, he, .inl rfl⟩) hes hsum damping
        (entries iters) hinitial.keys_eq] at hscores
      cases hscores
    · intro h
      have hranked : ∃ scores, iterations t (t.nodes set) damping entries tol iters
          ((t.nodes set).map fun v => (v, 1 / ((t.nodes set).length : F))) = some scores ∧
          Ranked (t.nodes set) scores := by
        rcases h with rfl | hweighted
        · exact ⟨_, rfl, hinitial⟩
        · exact hinitial.iterations hweights hweighted h0 h1 hne entries tol iters
      obtain ⟨scores, hscores, hranked⟩ := hranked
      exact ⟨scores, hscores, hranked.keys_eq, hranked.nonneg, fun _ => hranked.total_eq⟩

/-- Two nodes that lead to each other. -/
def pairTable : EdgeTable ℚ where
  rows := [⟨1, 2, "k", 1, none⟩, ⟨2, 1, "k", 3, none⟩]
  keys_nodup := by decide

/-- A table in which every node passes its score on. -/
theorem pagerank_conserves_pairTable :
    ∃ scores, pagerank pairTable (.same ℤ) (fun _ => .same _) (1 / 2) 3 none = some scores ∧
      keys scores = pairTable.nodes (.same ℤ) ∧ (∀ e ∈ scores, 0 ≤ e.2) ∧
      (pairTable.rows ≠ [] → total scores = 1) :=
  (pagerank_conserves_iff pairTable (by decide +kernel) (.same ℤ) (fun _ => .same _)
    (by norm_num) (by norm_num) 3 none).mpr (.inr (by unfold EdgeTable.Weighted; decide +kernel))

/-- An edge that carries no weight. -/
def idleTable : EdgeTable ℚ where
  rows := [⟨1, 2, "k", 0, none⟩]
  keys_nodup := by decide

/-- A table in which no edge of a node has a weight. -/
theorem pagerank_idleTable :
    ¬∀ (t : EdgeTable ℚ) (set : Shuffle ℤ) (entries : ℕ → Shuffle (ℤ × ℚ)) (damping : ℚ)
      (iters : ℕ) (tol : Option ℚ), (∀ e ∈ t.rows, 0 ≤ e.weight) → 0 ≤ damping → damping ≤ 1 →
      ∃ scores, pagerank t set entries damping iters tol = some scores ∧
        (∀ e ∈ scores, 0 ≤ e.2) ∧ (t.rows ≠ [] → total scores = 1) := by
  intro h
  obtain ⟨scores, hscores, -⟩ := h idleTable (.same ℤ) (fun _ => .same _) (1 / 2) 1 none
    (by decide +kernel) (by norm_num) (by norm_num)
  have hnone : pagerank idleTable (.same ℤ) (fun _ => .same _) (1 / 2) 1 none = none := by
    decide +kernel
  rw [hnone] at hscores
  cases hscores

end Edges

end SynapseMemory
