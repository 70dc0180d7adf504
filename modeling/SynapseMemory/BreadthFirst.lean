import SynapseMemory.Layers

/-!
# Breadth-first search

The distance of a point from a set of starts is the number of steps of a shortest way there
(`Distance`). A breadth-first search has found the points of the distances up to `k` and has those
of the distance `k` before it (`AtDistance`). Of what these lead to it takes up what is new
(`Takes`), and is one distance further (`AtDistance.turn`).

How the search goes through the points of one distance, and how it remembers what it has seen, is
left to the program: a queue that is worked off and a list that is exchanged for the next do the
same.
-/

namespace BreadthFirst

variable {α : Type*} (R : α → α → Prop) (S : α → Prop)

/-- Reached from a start in so many steps. -/
def Reach : ℕ → α → Prop
  | 0, v => S v
  | n + 1, v => ∃ u, Reach n u ∧ R u v

/-- Reached in so many steps and not in fewer. -/
def Distance (n : ℕ) (v : α) : Prop := Reach R S n v ∧ ∀ m < n, ¬Reach R S m v

variable {R S}

theorem distance_zero {v : α} : Distance R S 0 v ↔ S v :=
  ⟨And.left, fun h => ⟨h, nofun⟩⟩

/-- A point has one distance. -/
theorem Distance.unique {m n : ℕ} {v : α} (hm : Distance R S m v) (hn : Distance R S n v) :
    m = n := by
  by_contra hne
  rcases Nat.lt_or_gt_of_ne hne with hlt | hlt
  · exact hn.2 m hlt hm.1
  · exact hm.2 n hlt hn.1

/-- What is reached has a distance. -/
theorem Reach.exists_distance {n : ℕ} {v : α} (h : Reach R S n v) :
    ∃ m ≤ n, Distance R S m v := by
  classical
  have hex : ∃ m, Reach R S m v := ⟨n, h⟩
  exact ⟨Nat.find hex, Nat.find_min' hex h, Nat.find_spec hex, fun m hm => Nat.find_min hex hm⟩

/-- **The next distance.** -/
theorem distance_succ_iff {n : ℕ} {v : α} : Distance R S (n + 1) v ↔
    (∃ u, Distance R S n u ∧ R u v) ∧ ∀ m ≤ n, ¬Distance R S m v := by
  constructor
  · rintro ⟨⟨u, hu, huv⟩, hfirst⟩
    refine ⟨⟨u, ⟨hu, fun m hm hearlier => ?_⟩, huv⟩, fun m hm hv => ?_⟩
    · exact hfirst (m + 1) (Nat.succ_lt_succ hm) ⟨u, hearlier, huv⟩
    · exact hfirst m (Nat.lt_succ_of_le hm) hv.1
  · rintro ⟨⟨u, hu, huv⟩, hnew⟩
    refine ⟨⟨u, hu.1, huv⟩, fun m hm hearlier => ?_⟩
    obtain ⟨j, hj, hv⟩ := hearlier.exists_distance
    exact hnew j (hj.trans (Nat.le_of_lt_succ hm)) hv

/-- Behind an empty distance there is nothing. -/
theorem not_distance_of_empty {m n : ℕ} (hle : m ≤ n) (hempty : ∀ v, ¬Distance R S m v) (v : α) :
    ¬Distance R S n v := by
  induction hle generalizing v with
  | refl => exact hempty v
  | step _ ih =>
    rw [distance_succ_iff]
    rintro ⟨⟨u, hu, -⟩, -⟩
    exact ih u hu

/-- With more edges, more is reached. -/
theorem Reach.mono {R' : α → α → Prop} (hR : ∀ u v, R u v → R' u v) {n : ℕ} {v : α}
    (h : Reach R S n v) : Reach R' S n v := by
  induction n generalizing v with
  | zero => exact h
  | succ n ih =>
    obtain ⟨u, hu, huv⟩ := h
    exact ⟨u, ih hu, hR u v huv⟩

/-! ## One start -/

/-- Within a number of steps is what is reached in at most as many. -/
theorem within_iff_reach {s : α} {n : ℕ} {v : α} :
    Layers.Within R s n v ↔ ∃ m ≤ n, Reach R (· = s) m v := by
  induction n generalizing v with
  | zero =>
    simp only [Nat.le_zero, exists_eq_left]
    rfl
  | succ n ih =>
    rw [Layers.Within]
    simp only [ih]
    constructor
    · rintro (⟨m, hm, hv⟩ | ⟨u, ⟨m, hm, hu⟩, huv⟩)
      · exact ⟨m, hm.trans (Nat.le_succ n), hv⟩
      · exact ⟨m + 1, Nat.succ_le_succ hm, u, hu, huv⟩
    · rintro ⟨m, hm, hv⟩
      rcases hm.lt_or_eq with hlt | rfl
      · exact .inl ⟨m, Nat.le_of_lt_succ hlt, hv⟩
      · obtain ⟨u, hu, huv⟩ := hv
        exact .inr ⟨u, ⟨n, le_refl n, hu⟩, huv⟩

/-- Around one start the distances are the layers. -/
theorem distance_iff_layer {s : α} {n : ℕ} {v : α} :
    Distance R (· = s) n v ↔ Layers.Layer R s n v := by
  rw [Layers.Layer, within_iff_reach]
  simp only [within_iff_reach]
  constructor
  · rintro ⟨hv, hfirst⟩
    refine ⟨⟨n, le_refl n, hv⟩, ?_⟩
    rintro m hm ⟨j, hj, hearlier⟩
    exact hfirst j (hj.trans_lt hm) hearlier
  · rintro ⟨⟨m, hm, hv⟩, hfirst⟩
    rcases hm.lt_or_eq with hlt | rfl
    · exact absurd ⟨m, le_refl m, hv⟩ (hfirst m hlt)
    · exact ⟨hv, fun j hj hearlier => hfirst j hj ⟨j, le_refl j, hearlier⟩⟩

/-! ## What is taken up -/

/-- Of what is offered, what was not seen before, each point once. -/
structure Takes (seen offered : α → Prop) (taken : List α) : Prop where
  mem_iff : ∀ u, u ∈ taken ↔ offered u ∧ ¬seen u
  nodup : taken.Nodup

namespace Takes

variable {seen p q : α → Prop} {xs ys : List α}

theorem congr (h : Takes seen p xs) (hpq : ∀ u, p u ↔ q u) : Takes seen q xs :=
  (funext fun u => propext (hpq u)) ▸ h

theorem nil (h : ∀ u, p u → seen u) : Takes seen p [] :=
  ⟨fun u => by simpa using h u, List.nodup_nil⟩

theorem singleton {a : α} (h : ¬seen a) : Takes seen (· = a) [a] :=
  ⟨fun u => by rw [List.mem_singleton]; exact (and_iff_left_of_imp fun hu => hu ▸ h).symm,
    List.nodup_singleton a⟩

/-- One part of the offer after the other. -/
theorem append (h : Takes seen p xs) (h' : Takes (fun u => seen u ∨ u ∈ xs) q ys) :
    Takes seen (fun u => p u ∨ q u) (xs ++ ys) := by
  refine ⟨fun u => ?_, h.nodup.append h'.nodup fun u hx hy => ?_⟩
  · rw [List.mem_append, h'.mem_iff, h.mem_iff]
    tauto
  · exact ((h'.mem_iff u).mp hy).2 (.inr hx)

end Takes

/-! ## Where the search is -/

/-- The points of the distances up to `k` are found, and those of `k` come next. -/
structure AtDistance (R : α → α → Prop) (S : α → Prop) (k : ℕ) (found : List (α × ℕ))
    (frontier : List α) : Prop where
  found_iff : ∀ u d, (u, d) ∈ found ↔ d ≤ k ∧ Distance R S d u
  nodup : (found.map Prod.fst).Nodup
  frontier_iff : ∀ u, u ∈ frontier ↔ Distance R S k u

namespace AtDistance

variable {k : ℕ} {found : List (α × ℕ)} {frontier : List α}

theorem mem_keys (h : AtDistance R S k found frontier) {u : α} :
    u ∈ found.map Prod.fst ↔ ∃ d ≤ k, Distance R S d u := by
  simp [h.found_iff]

/-- The search begins with the starts. -/
theorem start (hfound : ∀ u d, (u, d) ∈ found ↔ d = 0 ∧ S u)
    (hnodup : (found.map Prod.fst).Nodup) (hfrontier : ∀ u, u ∈ frontier ↔ S u) :
    AtDistance R S 0 found frontier := by
  refine ⟨fun u d => ?_, hnodup, fun u => (hfrontier u).trans distance_zero.symm⟩
  rw [hfound, Nat.le_zero]
  refine and_congr_right fun hd => ?_
  rw [hd, distance_zero]

/-- **One distance further.** -/
theorem turn (h : AtDistance R S k found frontier) {taken : List α}
    (htakes : Takes (· ∈ found.map Prod.fst) (fun v => ∃ u ∈ frontier, R u v) taken) :
    AtDistance R S (k + 1) (found ++ taken.map fun u => (u, k + 1)) taken := by
  have hnext (v : α) : v ∈ taken ↔ Distance R S (k + 1) v := by
    rw [htakes.mem_iff, h.mem_keys, distance_succ_iff]
    simp only [h.frontier_iff, not_exists, not_and]
  refine ⟨fun u d => ?_, ?_, hnext⟩
  · rw [List.mem_append, h.found_iff, List.mem_map]
    constructor
    · rintro (⟨hd, hu⟩ | ⟨v, hv, heq⟩)
      · exact ⟨hd.trans (Nat.le_succ k), hu⟩
      · cases heq
        exact ⟨le_refl _, (hnext u).mp hv⟩
    · rintro ⟨hd, hu⟩
      rcases hd.lt_or_eq with hlt | rfl
      · exact .inl ⟨Nat.le_of_lt_succ hlt, hu⟩
      · exact .inr ⟨u, (hnext u).mpr hu, rfl⟩
  · rw [List.map_append, List.map_map]
    refine h.nodup.append ((List.map_id taken).symm ▸ htakes.nodup) fun u hu hnew => ?_
    have hnew : u ∈ taken := by simpa using hnew
    exact ((htakes.mem_iff u).mp hnew).2 hu

end AtDistance

end BreadthFirst
