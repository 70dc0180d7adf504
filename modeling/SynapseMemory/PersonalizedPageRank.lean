import SynapseMemory.Accumulators
import SynapseMemory.BreadthFirst
import SynapseMemory.ScoreTable

/-!
# Personalized PageRank

The model of `personalized_pagerank`, with scores in an ordered field. A memory hands its score on
along its edges, each with its share of the weights, or back to the seeds if it has none. The seeds
get the rest.

Two things are not handed on: scores below a threshold, and what is missing from the shares where
all weights are next to nothing. The sum of all scores falls short of 1 by just that, damped once
for each iteration since (`ranks_mass`). Whatever order the hash maps come in, the scores are the
same (`ranks_perm`), and only what a seed leads to in so many steps has one.
-/

namespace SynapseMemory.Ppr

open ScoreTable

variable {F : Type} [Field F] [LinearOrder F]

/-- The ranks, by their nodes. -/
abbrev Scores (F : Type) : Type := List (ℤ × F)

/-! ## The code -/

/-- `1e-9` -/
def floor : F := 1 / 10 ^ 9

/-- The seeds, so that their sum is 1. -/
def teleport (seeds : Scores F) : Scores F :=
  let total := (seeds.map Prod.snd).sum
  if 0 < total then seeds.map fun s => (s.1, s.2 / total)
  else seeds.map fun s => (s.1, 1 / seeds.length)

/-- The first rows of `memory_edges` for a source. -/
def neighbors (edges : List (ℤ × ℤ × F)) (cap : ℕ) (node : ℤ) : Scores F :=
  ((edges.filter (·.1 = node)).map Prod.snd).take cap

/-- What a memory hands on. -/
def handOn (edges : List (ℤ × ℤ × F)) (cap : ℕ) (alpha : F) (tele : Scores F) (entry : ℤ × F) :
    Scores F :=
  if entry.2 < floor then []
  else
    let neigh := neighbors edges cap entry.1
    if neigh.isEmpty then tele.map fun t => (t.1, (1 - alpha) * entry.2 * t.2)
    else
      let wsum := max (neigh.map Prod.snd).sum floor
      let push := (1 - alpha) * entry.2
      neigh.map fun e => (e.1, push * (e.2 / wsum))

/-- An iteration of the loop. -/
def iteration (edges : List (ℤ × ℤ × F)) (cap : ℕ) (alpha : F) (tele : Scores F)
    (entries : Shuffle (ℤ × F)) (r : Scores F) : Scores F :=
  tally (tele.map (fun t => (t.1, alpha * t.2)) ++
    (entries.order r).flatMap (handOn edges cap alpha tele))

/-- The scores after some iterations. -/
def ranks (edges : List (ℤ × ℤ × F)) (cap : ℕ) (alpha : F) (tele : Scores F)
    (entries : ℕ → Shuffle (ℤ × F)) : ℕ → Scores F
  | 0 => tele
  | t + 1 => iteration edges cap alpha tele (entries t) (ranks edges cap alpha tele entries t)

/-- `personalized_pagerank` -/
def personalizedPagerank (edges : List (ℤ × ℤ × F)) (seeds : Scores F) (alpha : F) (iters cap : ℕ)
    (entries : ℕ → Shuffle (ℤ × F)) (limit : ℕ) : Scores F :=
  if seeds.isEmpty || iters = 0 then []
  else
    best limit ((entries iters).order (ranks edges cap alpha (teleport seeds) entries iters))

/-! ## Sums -/

/-- The sum of all ranks. -/
def mass (r : Scores F) : F := (r.map Prod.snd).sum

omit [LinearOrder F] in
theorem mass_append (r r' : Scores F) : mass (r ++ r') = mass r + mass r' := by
  simp [mass]

omit [LinearOrder F] in
theorem mass_perm {r r' : Scores F} (h : r.Perm r') : mass r = mass r' := (h.map Prod.snd).sum_eq

omit [LinearOrder F] in
theorem mass_flatMap {α : Type} (l : List α) (f : α → Scores F) :
    mass (l.flatMap f) = (l.map fun a => mass (f a)).sum := by
  induction l with
  | nil => rfl
  | cons a l ih => rw [List.flatMap_cons, mass_append, ih, List.map_cons, List.sum_cons]

omit [LinearOrder F] in
theorem mass_map_mul (r : Scores F) (c : F) : mass (r.map fun e => (e.1, c * e.2)) =
    c * mass r := by
  simp only [mass, List.map_map, Function.comp_def, List.sum_map_mul_left]

/-- What a memory does not hand on. -/
def dropped (edges : List (ℤ × ℤ × F)) (cap : ℕ) (entry : ℤ × F) : F :=
  if entry.2 < floor then entry.2
  else
    let neigh := neighbors edges cap entry.1
    if neigh.isEmpty then 0
    else
      let sum := (neigh.map Prod.snd).sum
      entry.2 * (1 - sum / max sum floor)

/-- What is missing from the sum of all scores. -/
def missing (edges : List (ℤ × ℤ × F)) (cap : ℕ) (alpha : F) (tele : Scores F)
    (entries : ℕ → Shuffle (ℤ × F)) (iters : ℕ) : F :=
  ((List.range iters).map fun t => (1 - alpha) ^ (iters - t) *
    ((ranks edges cap alpha tele entries t).map (dropped edges cap)).sum).sum

variable {edges : List (ℤ × ℤ × F)} {cap : ℕ} {alpha : F} {tele : Scores F}

/-- What is handed on of an entry, as far as nothing is dropped. -/
theorem mass_handOn (htele : mass tele = 1) (entry : ℤ × F) :
    mass (handOn edges cap alpha tele entry) =
      (1 - alpha) * (entry.2 - dropped edges cap entry) := by
  rw [handOn, dropped]
  split
  next => simp [mass]
  next =>
    dsimp only
    split
    next => rw [mass_map_mul, htele, mul_one, sub_zero]
    next =>
      have hshare (e : ℤ × F) (m : F) :
          (1 - alpha) * entry.2 * (e.2 / m) = (1 - alpha) * entry.2 / m * e.2 := by ring
      simp only [hshare]
      rw [mass_map_mul, mass]
      ring

/-- **One iteration.** -/
theorem mass_iteration (htele : mass tele = 1) (entries : Shuffle (ℤ × F)) (r : Scores F) :
    mass (iteration edges cap alpha tele entries r) =
      alpha + (1 - alpha) * (mass r - (r.map (dropped edges cap)).sum) := by
  have hsub : (r.map fun e => e.2 - dropped edges cap e).sum =
      mass r - (r.map (dropped edges cap)).sum := by
    rw [eq_sub_iff_add_eq, ← List.sum_map_add]
    simp [mass]
  rw [iteration, mass, sum_tally, ← mass, mass_append, mass_map_mul, htele, mul_one, mass_flatMap]
  simp only [mass_handOn htele, List.sum_map_mul_left]
  rw [((entries.perm r).map _).sum_eq, hsub]

/-- **All iterations.** What is dropped stays missing, and is damped as the rest is. -/
theorem ranks_mass (htele : mass tele = 1) (entries : ℕ → Shuffle (ℤ × F)) (iters : ℕ) :
    mass (ranks edges cap alpha tele entries iters) =
      1 - missing edges cap alpha tele entries iters := by
  induction iters with
  | zero => simp [ranks, missing, htele]
  | succ t ih =>
    have hlater : ((List.range t).map fun i => (1 - alpha) ^ (t + 1 - i) *
        ((ranks edges cap alpha tele entries i).map (dropped edges cap)).sum).sum =
        (1 - alpha) * missing edges cap alpha tele entries t := by
      rw [missing, ← List.sum_map_mul_left]
      refine congrArg List.sum (List.map_congr_left fun i hi => ?_)
      rw [Nat.succ_sub (List.mem_range.mp hi).le, pow_succ']
      ring
    have hnext : missing edges cap alpha tele entries (t + 1) =
        (1 - alpha) * missing edges cap alpha tele entries t + (1 - alpha) *
          ((ranks edges cap alpha tele entries t).map (dropped edges cap)).sum := by
      rw [missing, List.range_succ, List.map_append, List.sum_append, hlater]
      simp
    rw [ranks, mass_iteration htele, ih, hnext]
    ring

/-! ## Seeds -/

/-- Each memory once, and nothing below zero. -/
structure IsTable (r : Scores F) : Prop where
  nodup : (r.map Prod.fst).Nodup
  nonneg : ∀ e ∈ r, 0 ≤ e.2

variable [IsStrictOrderedRing F]

/-- The floor is not zero. -/
theorem floor_pos : (0 : F) < floor := by
  rw [floor]
  positivity

/-- The ranks to begin with are a table. -/
theorem IsTable.teleport {seeds : Scores F} (h : IsTable seeds) : IsTable (teleport seeds) := by
  rw [Ppr.teleport]
  split
  next hpos =>
    refine ⟨by simpa [List.map_map, Function.comp_def] using h.nodup, ?_⟩
    exact List.forall_mem_map.mpr fun s hs => div_nonneg (h.nonneg s hs) hpos.le
  next =>
    refine ⟨by simpa [List.map_map, Function.comp_def] using h.nodup, ?_⟩
    exact List.forall_mem_map.mpr fun s _ => by positivity

/-- Their sum is one. -/
theorem mass_teleport {seeds : Scores F} (h : seeds ≠ []) : mass (teleport seeds) = 1 := by
  have hlength : (seeds.length : F) ≠ 0 := by simpa using h
  rw [mass, teleport]
  split
  next hpos =>
    simp only [List.map_map, Function.comp_def, div_eq_mul_inv, List.sum_map_mul_right]
    exact mul_inv_cancel₀ hpos.ne'
  next =>
    simp [Function.comp_def, hlength]

/-! ## Orders -/

omit [IsStrictOrderedRing F] in
/-- They do not depend on the order of the seeds. -/
theorem teleport_perm {seeds seeds' : Scores F} (h : seeds.Perm seeds') :
    (teleport seeds).Perm (teleport seeds') := by
  rw [teleport, teleport, (h.map Prod.snd).sum_eq, h.length_eq]
  split <;> exact h.map _

omit [IsStrictOrderedRing F] in
/-- Neither does what is handed on. -/
theorem handOn_perm {tele' : Scores F} (h : tele.Perm tele') (entry : ℤ × F) :
    (handOn edges cap alpha tele entry).Perm (handOn edges cap alpha tele' entry) := by
  rw [handOn, handOn]
  split
  next => exact List.Perm.refl []
  next =>
    dsimp only
    split
    next => exact h.map _
    next => exact List.Perm.refl _

omit [IsStrictOrderedRing F] in
/-- **The order of the maps does not matter.** -/
theorem ranks_perm {tele' : Scores F} (h : tele.Perm tele') (entries entries' : ℕ → Shuffle (ℤ × F))
    (iters : ℕ) : (ranks edges cap alpha tele entries iters).Perm
      (ranks edges cap alpha tele' entries' iters) := by
  induction iters with
  | zero => exact h
  | succ t ih =>
    have horders := ((entries t).perm _).trans (ih.trans ((entries' t).perm _).symm)
    refine tally_perm ((h.map _).append ?_)
    exact (horders.flatMap_right _).trans (List.Perm.flatMap_left _ fun e _ => handOn_perm h e)

/-! ## Scores -/

/-- There is an edge, among the first of its source. -/
def Leads (edges : List (ℤ × ℤ × F)) (cap : ℕ) (u v : ℤ) : Prop :=
  v ∈ (neighbors edges cap u).map Prod.fst

omit [IsStrictOrderedRing F] in
/-- What a score is given to is a seed, or is led to. -/
theorem mem_handOn {entry e : ℤ × F} (h : e ∈ handOn edges cap alpha tele entry) :
    e.1 ∈ tele.map Prod.fst ∨ Leads edges cap entry.1 e.1 := by
  rw [handOn] at h
  split at h
  next => cases h
  next =>
    dsimp only at h
    split at h
    next =>
      obtain ⟨t, ht, rfl⟩ := List.mem_map.mp h
      exact .inl (List.mem_map.mpr ⟨t, ht, rfl⟩)
    next =>
      obtain ⟨n, hn, rfl⟩ := List.mem_map.mp h
      exact .inr (List.mem_map.mpr ⟨n, hn, rfl⟩)

omit [IsStrictOrderedRing F] in
/-- Only what can be reached has a rank. -/
theorem ranks_reach (entries : ℕ → Shuffle (ℤ × F)) {iters : ℕ} {e : ℤ × F}
    (h : e ∈ ranks edges cap alpha tele entries iters) :
    ∃ n ≤ iters, BreadthFirst.Reach (Leads edges cap) (· ∈ tele.map Prod.fst) n e.1 := by
  induction iters generalizing e with
  | zero => exact ⟨0, le_rfl, List.mem_map_of_mem h⟩
  | succ t ih =>
    obtain ⟨hkey, -⟩ := mem_tally.mp h
    rw [List.map_append, List.mem_append] at hkey
    rcases hkey with hkey | hkey
    · obtain ⟨s, hs, hse⟩ := List.mem_map.mp hkey
      obtain ⟨s', hs', rfl⟩ := List.mem_map.mp hs
      exact ⟨0, Nat.zero_le _, hse ▸ List.mem_map.mpr ⟨s', hs', rfl⟩⟩
    · obtain ⟨c, hc, hce⟩ := List.mem_map.mp hkey
      obtain ⟨entry, hentry, hgiven⟩ := List.mem_flatMap.mp hc
      rw [← hce]
      rcases mem_handOn hgiven with hseed | hleads
      · exact ⟨0, Nat.zero_le _, hseed⟩
      · obtain ⟨n, hn, hreach⟩ := ih (((entries t).perm _).mem_iff.mp hentry)
        exact ⟨n + 1, Nat.succ_le_succ hn, entry.1, hreach, hleads⟩

omit [Field F] [LinearOrder F] [IsStrictOrderedRing F] in
theorem mem_neighbors {node : ℤ} {e : ℤ × F} (h : e ∈ neighbors edges cap node) :
    (node, e) ∈ edges := by
  obtain ⟨row, hrow, rfl⟩ := List.mem_map.mp (List.mem_of_mem_take h)
  obtain ⟨hedge, hnode⟩ := List.mem_filter.mp hrow
  rwa [← of_decide_eq_true hnode]

/-- Nothing that is handed on is negative. -/
theorem handOn_nonneg (halpha : alpha ≤ 1) (hweights : ∀ e ∈ edges, 0 ≤ e.2.2)
    (htele : IsTable tele) (entry : ℤ × F) :
    ∀ e ∈ handOn edges cap alpha tele entry, 0 ≤ e.2 := by
  have hrest : 0 ≤ 1 - alpha := sub_nonneg.mpr halpha
  rw [handOn]
  split
  next => exact fun _ h => by cases h
  next hfloor =>
    have hentry : 0 ≤ entry.2 := floor_pos.le.trans (not_lt.mp hfloor)
    dsimp only
    split
    next =>
      exact List.forall_mem_map.mpr fun t ht =>
        mul_nonneg (mul_nonneg hrest hentry) (htele.nonneg t ht)
    next =>
      refine List.forall_mem_map.mpr fun n hn => ?_
      have hweight := hweights _ (mem_neighbors hn)
      have hmax : 0 ≤ max ((neighbors edges cap entry.1).map Prod.snd).sum floor :=
        floor_pos.le.trans (le_max_right _ _)
      exact mul_nonneg (mul_nonneg hrest hentry) (div_nonneg hweight hmax)

theorem contributions_nonneg (halpha₀ : 0 ≤ alpha) (halpha : alpha ≤ 1)
    (hweights : ∀ e ∈ edges, 0 ≤ e.2.2) (htele : IsTable tele) (r : Scores F) :
    ∀ e ∈ tele.map (fun t => (t.1, alpha * t.2)) ++ r.flatMap (handOn edges cap alpha tele),
      0 ≤ e.2 := by
  refine List.forall_mem_append.mpr ⟨?_, ?_⟩
  · exact List.forall_mem_map.mpr fun t ht => mul_nonneg halpha₀ (htele.nonneg t ht)
  · intro e he
    obtain ⟨entry, -, hgiven⟩ := List.mem_flatMap.mp he
    exact handOn_nonneg halpha hweights htele entry e hgiven

theorem total_nonneg {cs : List (ℤ × F)} (h : ∀ c ∈ cs, 0 ≤ c.2) (d : ℤ) : 0 ≤ total d cs := by
  refine List.sum_nonneg fun x hx => ?_
  obtain ⟨c, hc, rfl⟩ := List.mem_map.mp hx
  exact h c (List.mem_of_mem_filter hc)

/-- After all iterations the ranks are a table. -/
theorem IsTable.ranks (halpha₀ : 0 ≤ alpha) (halpha : alpha ≤ 1)
    (hweights : ∀ e ∈ edges, 0 ≤ e.2.2) (htele : IsTable tele) (entries : ℕ → Shuffle (ℤ × F))
    (iters : ℕ) : IsTable (ranks edges cap alpha tele entries iters) := by
  cases iters with
  | zero => exact htele
  | succ t =>
    refine ⟨nodup_keys_tally _, fun e he => ?_⟩
    rw [(mem_tally.mp he).2]
    exact total_nonneg (contributions_nonneg halpha₀ halpha hweights htele _) e.1

/-- A seed keeps its share. -/
theorem le_ranks (halpha₀ : 0 ≤ alpha) (halpha : alpha ≤ 1) (hweights : ∀ e ∈ edges, 0 ≤ e.2.2)
    (htele : IsTable tele) (entries : ℕ → Shuffle (ℤ × F)) {iters : ℕ} {s e : ℤ × F} (hs : s ∈ tele)
    (he : e ∈ ranks edges cap alpha tele entries iters) (hse : s.1 = e.1) :
    alpha * s.2 ≤ e.2 := by
  cases iters with
  | zero =>
    obtain rfl : s = e := List.inj_on_of_nodup_map htele.nodup hs he hse
    exact mul_le_of_le_one_left (htele.nonneg s hs) halpha
  | succ t =>
    have hnonneg : ∀ c ∈ tele.map (fun t => (t.1, alpha * t.2)) ++
        ((entries t).order (Ppr.ranks edges cap alpha tele entries t)).flatMap
          (handOn edges cap alpha tele), 0 ≤ c.2 :=
      contributions_nonneg halpha₀ halpha hweights htele _
    rw [(mem_tally.mp he).2]
    refine List.single_le_sum (fun x hx => ?_) _ (List.mem_map.mpr ⟨(s.1, alpha * s.2), ?_, rfl⟩)
    · obtain ⟨c, hc, rfl⟩ := List.mem_map.mp hx
      exact hnonneg c (List.mem_of_mem_filter hc)
    · refine List.mem_filter.mpr ⟨List.mem_append_left _ (List.mem_map_of_mem hs), ?_⟩
      exact decide_eq_true hse

theorem dropped_nonneg {entry : ℤ × F} (hentry : 0 ≤ entry.2) : 0 ≤ dropped edges cap entry := by
  rw [dropped]
  split
  next => exact hentry
  next =>
    dsimp only
    split
    next => exact le_rfl
    next =>
      refine mul_nonneg hentry (sub_nonneg.mpr ?_)
      exact div_le_one_of_le₀ (le_max_left _ _) (floor_pos.le.trans (le_max_right _ _))

/-- What is missing is not negative. -/
theorem missing_nonneg (halpha₀ : 0 ≤ alpha) (halpha : alpha ≤ 1)
    (hweights : ∀ e ∈ edges, 0 ≤ e.2.2) (htele : IsTable tele) (entries : ℕ → Shuffle (ℤ × F))
    (iters : ℕ) : 0 ≤ missing edges cap alpha tele entries iters := by
  refine List.sum_nonneg (List.forall_mem_map.mpr fun t _ => ?_)
  refine mul_nonneg (pow_nonneg (sub_nonneg.mpr halpha) _) (List.sum_nonneg ?_)
  exact List.forall_mem_map.mpr fun e he =>
    dropped_nonneg ((htele.ranks halpha₀ halpha hweights entries t).nonneg e he)

omit [IsStrictOrderedRing F] in
theorem map_fst_teleport (seeds : Scores F) : (teleport seeds).map Prod.fst =
    seeds.map Prod.fst := by
  rw [teleport]
  split <;> simp [Function.comp_def]

/-! ## The best scores -/

omit [IsStrictOrderedRing F] in
theorem IsTable.perm {r r' : Scores F} (h : IsTable r) (hperm : r'.Perm r) : IsTable r' :=
  ⟨(hperm.map Prod.fst).nodup_iff.mpr h.nodup, fun e he => h.nonneg e (hperm.mem_iff.mp he)⟩

omit [IsStrictOrderedRing F] in
/-- The best ones are a table. -/
theorem IsTable.best {r : Scores F} (h : IsTable r) (limit : ℕ) : IsTable (best limit r) := by
  have hranked := h.perm (ranked_perm r)
  refine ⟨hranked.nodup.sublist ((List.take_sublist limit _).map Prod.fst), fun e he => ?_⟩
  exact hranked.nonneg e (List.mem_of_mem_take he)

omit [Field F] [IsStrictOrderedRing F] in
theorem pairwise_best (limit : ℕ) (r : Scores F) :
    (best limit r).Pairwise fun a b => b.2 ≤ a.2 :=
  (ranked_pairwise r).sublist (List.take_sublist limit _)

/-- What is cut off is not below zero. -/
theorem mass_best_le {r : Scores F} (h : ∀ e ∈ r, 0 ≤ e.2) (limit : ℕ) :
    mass (best limit r) ≤ mass r := by
  have hrest : 0 ≤ mass ((ranked r).drop limit) :=
    List.sum_nonneg (List.forall_mem_map.mpr fun e he =>
      h e ((ranked_perm r).mem_iff.mp (List.mem_of_mem_drop he)))
  have hsplit := mass_append ((ranked r).take limit) ((ranked r).drop limit)
  rw [List.take_append_drop, mass_perm (ranked_perm r)] at hsplit
  rw [best, hsplit]
  exact le_add_of_nonneg_right hrest

omit [IsStrictOrderedRing F] in
/-- A limit that is not reached keeps the sum. -/
theorem mass_best_of_length_le {r : Scores F} {limit : ℕ} (h : r.length ≤ limit) :
    mass (best limit r) = mass r := by
  rw [best, List.take_of_length_le ((ranked_perm r).length_eq.trans_le h)]
  exact mass_perm (ranked_perm r)

omit [IsStrictOrderedRing F] in
theorem personalizedPagerank_of {seeds : Scores F} (hne : seeds ≠ []) {iters : ℕ}
    (hiters : 0 < iters) (entries : ℕ → Shuffle (ℤ × F)) (limit : ℕ) :
    personalizedPagerank edges seeds alpha iters cap entries limit =
      best limit ((entries iters).order (ranks edges cap alpha (teleport seeds) entries iters)) :=
  if_neg (by simp [hne, hiters.ne'])

/-- **What comes out.** -/
theorem personalizedPagerank_spec (halpha₀ : 0 ≤ alpha) (halpha : alpha ≤ 1)
    (hweights : ∀ e ∈ edges, 0 ≤ e.2.2) {seeds : Scores F} (hseeds : IsTable seeds)
    (hne : seeds ≠ []) {iters : ℕ} (hiters : 0 < iters) (entries : ℕ → Shuffle (ℤ × F))
    (limit : ℕ) :
    let tele := teleport seeds
    let out := personalizedPagerank edges seeds alpha iters cap entries limit
    (∀ seeds' entries', seeds'.Perm seeds →
      (personalizedPagerank edges seeds' alpha iters cap entries' limit).map Prod.snd =
        out.map Prod.snd) ∧
    IsTable out ∧ out.Pairwise (fun a b => b.2 ≤ a.2) ∧
    (∀ e ∈ out, ∃ n ≤ iters,
      BreadthFirst.Reach (Leads edges cap) (· ∈ seeds.map Prod.fst) n e.1) ∧
    (∀ e ∈ out, ∀ s ∈ tele, s.1 = e.1 → alpha * s.2 ≤ e.2) ∧
    mass out ≤ 1 ∧
    ((ranks edges cap alpha tele entries iters).length ≤ limit →
      mass out = 1 - missing edges cap alpha tele entries iters) := by
  intro tele out
  have htele : IsTable tele := hseeds.teleport
  have hmass : mass (ranks edges cap alpha tele entries iters) =
      1 - missing edges cap alpha tele entries iters := ranks_mass (mass_teleport hne) entries iters
  have hkeys : tele.map Prod.fst = seeds.map Prod.fst := map_fst_teleport seeds
  set r := ranks edges cap alpha tele entries iters
  have hout : out = best limit ((entries iters).order r) :=
    personalizedPagerank_of hne hiters entries limit
  have hperm : ((entries iters).order r).Perm r := (entries iters).perm r
  have htable : IsTable ((entries iters).order r) :=
    (htele.ranks halpha₀ halpha hweights entries iters).perm hperm
  have hsub : ∀ e ∈ out, e ∈ r := fun e he => hperm.mem_iff.mp (mem_of_mem_best (hout ▸ he))
  refine ⟨fun seeds' entries' hseeds' => ?_, hout ▸ htable.best limit, hout ▸ pairwise_best limit _,
    fun e he => ?_, fun e he s hs hse => ?_, ?_, fun hlimit => ?_⟩
  · have hne' : seeds' ≠ [] := fun h => hne (by simpa [h] using hseeds')
    rw [hout, personalizedPagerank_of hne' hiters, best_scores_eq_iff]
    intro θ
    have horders := ((entries' iters).perm _).trans
      ((ranks_perm (teleport_perm hseeds') entries' entries iters).trans hperm.symm)
    rw [reach, reach, horders.countP_eq]
  · rw [← hkeys]
    exact ranks_reach entries (hsub e he)
  · exact le_ranks halpha₀ halpha hweights htele entries hs (hsub e he) hse
  · have hbest := mass_best_le htable.nonneg limit
    have hmissing : 0 ≤ missing edges cap alpha tele entries iters :=
      missing_nonneg halpha₀ halpha hweights htele entries iters
    rw [mass_perm hperm, hmass] at hbest
    rw [hout]
    exact hbest.trans (sub_le_self 1 hmissing)
  · rw [hout, mass_best_of_length_le (hperm.length_eq.trans_le hlimit), mass_perm hperm, hmass]

/-- Two edges of different weights. -/
def fork : List (ℤ × ℤ × ℚ) := [(1, 2, 9), (1, 3, 1)]

/-- A node with two edges, one of which leads to a sink. -/
theorem personalizedPagerank_spec_fork :
    (∀ e ∈ personalizedPagerank fork [(1, 1)] (1 / 2) 2 64 (fun _ => .same _) 10, ∃ n ≤ 2,
      BreadthFirst.Reach (Leads fork 64) (· ∈ [1]) n e.1) ∧
    mass (personalizedPagerank fork [(1, 1)] (1 / 2) 2 64 (fun _ => .same _) 10) = 1 := by
  have hweights : ∀ e ∈ fork, 0 ≤ e.2.2 := by simp [fork]
  obtain ⟨-, -, -, hreach, -, -, hmass⟩ := @personalizedPagerank_spec ℚ _ _ fork 64 (1 / 2) _
    (by norm_num) (by norm_num) hweights [(1, 1)] ⟨by simp, by simp⟩ (List.cons_ne_nil _ _) 2
    Nat.zero_lt_two (fun _ => .same _) 10
  have hmissing : missing fork 64 (1 / 2) (teleport [(1, 1)]) (fun _ => .same _) 2 = 0 := by
    decide +kernel
  rw [hmissing, sub_zero] at hmass
  exact ⟨hreach, hmass (by decide +kernel)⟩

end SynapseMemory.Ppr
