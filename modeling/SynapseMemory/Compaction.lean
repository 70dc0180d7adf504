import SynapseMemory.Supersession
import SynapseMemory.UnionFind

/-!
# Compaction by components

Two active memories are similar if the words of their texts are. `cluster_for_compact` returns the
connected components of this graph that have two memories at least, whatever the order in which the
pairs are looked at (`clusterForCompact_components`): its table of parents is a forest of the
classes that the pairs generate.

`compact` leaves the newest memory of each component active and has the others superseded by it
(`compacted_retired`). What is left active is then dissimilar, so if every active memory was looked
at, the next compaction finds nothing (`compaction`).
-/

namespace SynapseMemory

open Proto Space UnionFind Relation

/-! ## The table of parents -/

/-- The table as a function. -/
def parentOf (parent : List ℕ) (i : ℕ) : ℕ := parent.getD i i

/-- At first each node is its own parent. -/
theorem parentOf_range (n : ℕ) : parentOf (List.range n) = id := by
  funext i
  rw [parentOf, List.getD_eq_getElem?_getD]
  by_cases hi : i < n
  · simp [hi]
  · simp [List.getElem?_eq_none (l := List.range n) (i := i) (by simpa using hi)]

/-- Setting a parent changes that of one node. -/
theorem parentOf_set {parent : List ℕ} {i : ℕ} (hi : i < parent.length) (r : ℕ) :
    parentOf (parent.set i r) = Function.update (parentOf parent) i r := by
  funext j
  rw [parentOf, List.getD_eq_getElem?_getD, List.getElem?_set]
  by_cases hj : j = i
  · subst hj
    rw [if_pos rfl, if_pos hi, Function.update_self]
    rfl
  · rw [if_neg (Ne.symm hj), Function.update_of_ne hj, parentOf, List.getD_eq_getElem?_getD]

/-- The table holds the classes of the first numbers. -/
def Holds (E : ℕ → ℕ → Prop) (n : ℕ) (parent : List ℕ) (root depth : ℕ → ℕ) : Prop :=
  parent.length = n ∧ Classes E (Finset.range n) (parentOf parent) root depth

section Table

variable {E : ℕ → ℕ → Prop} {n : ℕ} {parent : List ℕ} {root depth : ℕ → ℕ}

/-- **`find` returns the root**, and it does not change the classes. -/
theorem findRoot_spec {fuel i : ℕ} (h : Holds E n parent root depth) (hi : i < n)
    (hfuel : depth i ≤ fuel) :
    ∃ parent', findRoot fuel parent i = (parent', root i) ∧ Holds E n parent' root depth := by
  induction fuel generalizing parent i with
  | zero =>
    have hself : parentOf parent i = i := by
      by_contra hne
      have hlt := h.2.depth_parent i (Finset.mem_range.mpr hi) hne
      omega
    refine ⟨parent, ?_, h⟩
    rw [findRoot, (h.2.of_self i (Finset.mem_range.mpr hi) hself).1]
  | succ fuel ih =>
    have hmem := Finset.mem_range.mpr hi
    rw [findRoot]
    by_cases hself : parentOf parent i = i
    · refine ⟨parent, ?_, h⟩
      rw [(h.2.of_self i hmem hself).1]
      exact if_neg (not_not.mpr hself)
    · have hlt := h.2.depth_parent i hmem hself
      obtain ⟨parent', hfind, hlen, hclasses⟩ :=
        ih h (Finset.mem_range.mp (h.2.parent_mem i hmem)) (by omega)
      have hne : root i ≠ i := by
        intro heq
        have hzero := h.2.depth_root hmem
        rw [heq] at hzero
        omega
      rw [h.2.root_parent i hmem] at hfind
      refine ⟨parent'.set i (root i), ?_, ?_, ?_⟩
      · refine (if_pos hself).trans ?_
        rw [show parent.getD i i = parentOf parent i from rfl, hfind]
      · rw [List.length_set, hlen]
      · rw [parentOf_set (hlen ▸ hi)]
        exact hclasses.compress hmem hne

theorem depth_le {i : ℕ} (h : Holds E n parent root depth) (hi : i < n) : depth i ≤ n := by
  have hlt := h.2.depth_lt_card (Finset.mem_range.mpr hi)
  rw [Finset.card_range] at hlt
  exact hlt.le

theorem Holds.congr {E' : ℕ → ℕ → Prop} (h : Holds E n parent root depth)
    (hE : ∀ x y, E' x y ↔ E x y) : Holds E' n parent root depth := by
  have heq : E' = E := funext fun x => funext fun y => propext (hE x y)
  rwa [heq]

/-- **A pair joins its classes** if it is similar. -/
theorem joinRows_spec (similar : ℕ → ℕ → Bool) {i j : ℕ} (h : Holds E n parent root depth)
    (hi : i < n) (hj : j < n) :
    ∃ root' depth', Holds (fun x y => E x y ∨ similar i j = true ∧ x = i ∧ y = j) n
      (joinRows n similar parent (i, j)) root' depth' := by
  by_cases hsimilar : similar i j = true
  · have hE : ∀ x y, (E x y ∨ similar i j = true ∧ x = i ∧ y = j) ↔ (E x y ∨ x = i ∧ y = j) := by
      simp [hsimilar]
    obtain ⟨parent₁, hfind₁, h₁⟩ := findRoot_spec h hi (depth_le h hi)
    obtain ⟨parent₂, hfind₂, hlen, h₂⟩ := findRoot_spec h₁ hj (depth_le h hj)
    have hmemi := Finset.mem_range.mpr hi
    have hmemj := Finset.mem_range.mpr hj
    have hjoin : joinRows n similar parent (i, j) =
        if root i ≠ root j then parent₂.set (root i) (root j) else parent₂ := by
      simp only [joinRows, hsimilar, if_true, hfind₁, hfind₂]
    rw [hjoin]
    split
    next hne =>
      have hlinked := h₂.insert_link hmemi hmemj hne
      rw [← parentOf_set (hlen ▸ Finset.mem_range.mp (h₂.root_spec hmemi).1)] at hlinked
      exact ⟨_, _, Holds.congr ⟨List.length_set.trans hlen, hlinked⟩ hE⟩
    next heq => exact ⟨root, depth, Holds.congr ⟨hlen, h₂.insert_same (not_not.mp heq)⟩ hE⟩
  · refine ⟨root, depth, ?_⟩
    rw [joinRows, if_neg hsimilar]
    exact h.congr (by simp [hsimilar])

/-- All pairs, one after the other. -/
theorem joinRows_foldl (similar : ℕ → ℕ → Bool) {pairs : List (ℕ × ℕ)}
    (hpairs : ∀ p ∈ pairs, p.1 < n ∧ p.2 < n) (h : Holds E n parent root depth) :
    ∃ root' depth', Holds (fun x y => E x y ∨ (x, y) ∈ pairs ∧ similar x y = true) n
      (pairs.foldl (joinRows n similar) parent) root' depth' := by
  induction pairs generalizing E parent root depth with
  | nil => exact ⟨root, depth, h.congr (by simp)⟩
  | cons p pairs ih =>
    obtain ⟨hp, hpairs⟩ := List.forall_mem_cons.mp hpairs
    obtain ⟨root₁, depth₁, h₁⟩ := joinRows_spec similar h hp.1 hp.2
    obtain ⟨root₂, depth₂, h₂⟩ := ih hpairs h₁
    refine ⟨root₂, depth₂, h₂.congr fun x y => ?_⟩
    rw [List.mem_cons, or_assoc]
    refine or_congr_right ⟨?_, ?_⟩
    · rintro ⟨rfl | hmem, hsimilar⟩
      · exact .inl ⟨hsimilar, rfl, rfl⟩
      · exact .inr ⟨hmem, hsimilar⟩
    · rintro (⟨hsimilar, rfl, rfl⟩ | ⟨hmem, hsimilar⟩)
      · exact ⟨.inl rfl, hsimilar⟩
      · exact ⟨.inr hmem, hsimilar⟩

/-- The roots that are looked up are those of the forest. -/
theorem rootsOf_spec {is : List ℕ} (h : Holds E n parent root depth) (his : ∀ i ∈ is, i < n) :
    rootsOf n parent is = is.map root := by
  induction is generalizing parent with
  | nil => rfl
  | cons i is ih =>
    obtain ⟨hi, his⟩ := List.forall_mem_cons.mp his
    obtain ⟨parent', hfind, h'⟩ := findRoot_spec h hi (depth_le h hi)
    rw [rootsOf, hfind]
    exact congrArg (root i :: ·) (ih h' his)

end Table

/-! ## Similar memories -/

theorem nodup_longWords (text : String) : (longWords text).Nodup := List.nodup_dedup _

section Similar

variable [Floats]

/-- Similarity has no direction. -/
theorem jaccard_comm (a b : String) : jaccard a b = jaccard b a := by
  have hinter : ((longWords a).filter (longWords b).contains).Perm
      ((longWords b).filter (longWords a).contains) := by
    refine (List.perm_ext_iff_of_nodup ((nodup_longWords a).filter _)
      ((nodup_longWords b).filter _)).mpr fun w => ?_
    simp [and_comm]
  have hunion : (longWords a ∪ longWords b).Perm (longWords b ∪ longWords a) := by
    refine (List.perm_ext_iff_of_nodup ((nodup_longWords b).union _)
      ((nodup_longWords a).union _)).mpr fun w => ?_
    simp [or_comm]
  simp only [jaccard, hinter.length_eq, hunion.length_eq, Bool.and_comm]

/-- Two memories are adjacent if their texts are similar. -/
def similarityGraph (threshold : F64) (rows : List (ℤ × String)) : SimpleGraph ℤ where
  Adj a b := a ≠ b ∧ ∃ p ∈ rows, ∃ q ∈ rows, p.1 = a ∧ q.1 = b ∧
    Floats.le threshold (jaccard p.2 q.2) = true
  symm := ⟨fun _ _ ⟨hne, p, hp, q, hq, hpa, hqb, hle⟩ =>
    ⟨hne.symm, q, hq, p, hp, hqb, hpa, jaccard_comm p.2 q.2 ▸ hle⟩⟩
  loopless := ⟨fun _ h => h.1 rfl⟩

/-- The rows at two places are similar. -/
def similarRows (threshold : F64) (rows : List (ℤ × String)) (i j : ℕ) : Bool :=
  match rows[i]?, rows[j]? with
  | some a, some b => Floats.le threshold (jaccard a.2 b.2)
  | _, _ => false

/-- The groups of a list of rows. -/
def clustersOf [HashOrder] (threshold : F64) (rows : List (ℤ × String)) : List (List ℤ) :=
  let n := rows.length
  let pairs := (List.range n).flatMap fun i => (List.range' (i + 1) (n - (i + 1))).map (i, ·)
  let parent := pairs.foldl (joinRows n (similarRows threshold rows)) (List.range n)
  let roots := rootsOf n parent (List.range n)
  ((HashOrder.keys roots.dedup).map (clusterOf rows roots)).filter fun group => 2 ≤ group.length

/-- A pair of places that is looked at and similar. -/
def Linked (threshold : F64) (rows : List (ℤ × String)) (i j : ℕ) : Prop :=
  i < j ∧ j < rows.length ∧ similarRows threshold rows i j = true

/-- The groups are of the rows with one root, and the roots are those of the classes. -/
theorem exists_roots [HashOrder] (threshold : F64) (rows : List (ℤ × String)) :
    ∃ root : ℕ → ℕ, (∀ i < rows.length, ∀ j < rows.length,
        root i = root j ↔ EqvGen (Linked threshold rows) i j) ∧
      clustersOf threshold rows =
        ((HashOrder.keys ((List.range rows.length).map root).dedup).map
          (clusterOf rows ((List.range rows.length).map root))).filter fun g => 2 ≤ g.length := by
  let n := rows.length
  let pairs := (List.range n).flatMap fun i => (List.range' (i + 1) (n - (i + 1))).map (i, ·)
  have hpairs : ∀ i j, (i, j) ∈ pairs ↔ i < j ∧ j < n := by
    intro i j
    simp only [pairs, List.mem_flatMap, List.mem_range, List.mem_map, List.mem_range'_1,
      Prod.mk.injEq]
    constructor
    · rintro ⟨i, hi, j, hj, rfl, rfl⟩
      omega
    · rintro ⟨hij, hj⟩
      exact ⟨i, by omega, j, by omega, rfl, rfl⟩
  have hstart : Holds (fun _ _ => False) n (List.range n) id fun _ => 0 := by
    refine ⟨List.length_range, ?_⟩
    rw [parentOf_range]
    exact Classes.start _
  have hlt : ∀ p ∈ pairs, p.1 < n ∧ p.2 < n := by
    intro p hp
    have hp' := (hpairs p.1 p.2).mp hp
    exact ⟨hp'.1.trans hp'.2, hp'.2⟩
  obtain ⟨root, depth, hfold⟩ := joinRows_foldl (similarRows threshold rows) hlt hstart
  have h : Holds (Linked threshold rows) n
      (pairs.foldl (joinRows n (similarRows threshold rows)) (List.range n)) root depth := by
    refine hfold.congr fun i j => ?_
    rw [false_or, hpairs, and_assoc, Linked]
  refine ⟨root, fun i hi j hj => ?_, ?_⟩
  · exact h.2.root_eq_iff (Finset.mem_range.mpr hi) (Finset.mem_range.mpr hj)
  · have hroots := rootsOf_spec h fun i (hi : i ∈ List.range n) => List.mem_range.mp hi
    exact congrArg (fun roots : List ℕ => ((HashOrder.keys roots.dedup).map
      (clusterOf rows roots)).filter fun g => 2 ≤ g.length) hroots

section Places

variable {threshold : F64} {rows : List (ℤ × String)} (hrows : (rows.map Prod.fst).Nodup)
include hrows

omit [Floats] in
/-- A memory is at one place only. -/
theorem place_unique {i j : ℕ} {p q : ℤ × String} (hi : rows[i]? = some p) (hj : rows[j]? = some q)
    (heq : p.1 = q.1) : i = j := by
  have hlt : i < (rows.map Prod.fst).length := by
    rw [List.length_map]
    exact (List.getElem?_eq_some_iff.mp hi).1
  refine (List.getElem?_inj hlt hrows).mp ?_
  rw [List.getElem?_map, List.getElem?_map, hi, hj, Option.map_some, Option.map_some, heq]

omit hrows in
theorem similarRows_eq {i j : ℕ} {p q : ℤ × String} (hi : rows[i]? = some p)
    (hj : rows[j]? = some q) :
    similarRows threshold rows i j = Floats.le threshold (jaccard p.2 q.2) := by
  rw [similarRows, hi, hj]

/-- Rows that are linked are neighbors in the graph. -/
theorem Linked.adj {i j : ℕ} (h : Linked threshold rows i j) {p q : ℤ × String}
    (hi : rows[i]? = some p) (hj : rows[j]? = some q) :
    (similarityGraph threshold rows).Adj p.1 q.1 := by
  obtain ⟨hij, -, hsimilar⟩ := h
  rw [similarRows_eq hi hj] at hsimilar
  refine ⟨fun heq => ?_, p, List.mem_of_getElem? hi, q, List.mem_of_getElem? hj, rfl, rfl, hsimilar⟩
  exact absurd (place_unique hrows hi hj heq) hij.ne

/-- An edge joins the two places, whichever of them comes first. -/
theorem eqvGen_of_adj {i : ℕ} {p : ℤ × String} {b : ℤ} (hi : rows[i]? = some p)
    (h : (similarityGraph threshold rows).Adj p.1 b) :
    ∃ j q, rows[j]? = some q ∧ q.1 = b ∧ EqvGen (Linked threshold rows) i j := by
  obtain ⟨hne, p', hp', q, hq, hpp', rfl, hle⟩ := h
  obtain ⟨i', hi'⟩ := List.mem_iff_getElem?.mp hp'
  obtain ⟨j, hj⟩ := List.mem_iff_getElem?.mp hq
  obtain rfl := place_unique hrows hi' hi hpp'
  obtain rfl := Option.some_inj.mp (hi'.symm.trans hi)
  refine ⟨j, q, hj, rfl, ?_⟩
  have hilt := (List.getElem?_eq_some_iff.mp hi).1
  have hjlt := (List.getElem?_eq_some_iff.mp hj).1
  rcases Nat.lt_trichotomy i' j with hlt | rfl | hlt
  · exact .rel _ _ ⟨hlt, hjlt, (similarRows_eq hi hj).trans hle⟩
  · exact absurd (congrArg Prod.fst (Option.some_inj.mp (hi.symm.trans hj))) hne
  · refine .symm _ _ (.rel _ _ ⟨hlt, hilt, ?_⟩)
    rw [similarRows_eq hj hi, jaccard_comm, hle]

/-- What is reached from a memory is one of the rows, and in its class. -/
theorem eqvGen_of_reachable {i : ℕ} {p : ℤ × String} {b : ℤ} (hi : rows[i]? = some p)
    (h : (similarityGraph threshold rows).Reachable p.1 b) :
    ∃ j q, rows[j]? = some q ∧ q.1 = b ∧ EqvGen (Linked threshold rows) i j := by
  obtain ⟨w⟩ := h
  generalize ha : p.1 = a at w
  induction w generalizing i p with
  | nil => exact ⟨i, p, hi, ha, .refl i⟩
  | cons hadj _ ih =>
    subst ha
    obtain ⟨k, r, hk, hr, hik⟩ := eqvGen_of_adj hrows hi hadj
    obtain ⟨j, q, hj, hq, hkj⟩ := ih hk hr
    exact ⟨j, q, hj, hq, .trans _ _ _ hik hkj⟩

/-- **Two places are in one class** just if their memories are in one component. -/
theorem eqvGen_iff {i j : ℕ} {p q : ℤ × String} (hi : rows[i]? = some p) (hj : rows[j]? = some q) :
    EqvGen (Linked threshold rows) i j ↔
      (similarityGraph threshold rows).Reachable p.1 q.1 := by
  constructor
  · intro h
    have hids : ∀ x y, EqvGen (Linked threshold rows) x y →
        (similarityGraph threshold rows).Reachable ((rows[x]?.map Prod.fst).getD 0)
          ((rows[y]?.map Prod.fst).getD 0) := by
      intro x y hxy
      induction hxy with
      | rel x y hlink =>
        have hy := List.getElem?_eq_getElem hlink.2.1
        have hx := List.getElem?_eq_getElem (hlink.1.trans hlink.2.1)
        rw [hx, hy]
        exact (hlink.adj hrows hx hy).reachable
      | refl x => exact .refl _
      | symm x y _ ih => exact ih.symm
      | trans x y z _ _ ihxy ihyz => exact ihxy.trans ihyz
    have hreach := hids i j h
    rwa [hi, hj] at hreach
  · intro h
    obtain ⟨j', q', hj', hq', hclass⟩ := eqvGen_of_reachable hrows hi h
    rwa [place_unique hrows hj' hj hq'] at hclass

end Places

/-- The groups are the connected components of the graph that have two members at least. -/
structure Components (G : SimpleGraph ℤ) (ids : List ℤ) (groups : List (List ℤ)) : Prop where
  two : ∀ g ∈ groups, 2 ≤ g.length ∧ g.Nodup ∧ g ⊆ ids
  component : ∀ g ∈ groups, ∀ a ∈ g, ∀ b, b ∈ g ↔ G.Reachable a b
  disjoint : groups.Pairwise List.Disjoint
  complete : ∀ a ∈ ids, ∀ b, a ≠ b → G.Reachable a b → ∃ g ∈ groups, a ∈ g

omit [Floats] in
/-- A group with two members has two. -/
theorem two_le_length {g : List ℤ} {a b : ℤ} (ha : a ∈ g) (hb : b ∈ g) (hne : a ≠ b) :
    2 ≤ g.length := by
  match g with
  | [] => cases ha
  | [x] => exact absurd ((List.mem_singleton.mp ha).trans (List.mem_singleton.mp hb).symm) hne
  | _ :: _ :: _ => simp

omit [Floats] in
/-- The rows with a root. -/
theorem mem_clusterOf {rows : List (ℤ × String)} {root : ℕ → ℕ} {r : ℕ} {a : ℤ} :
    a ∈ clusterOf rows ((List.range rows.length).map root) r ↔
      ∃ i p, rows[i]? = some p ∧ p.1 = a ∧ root i = r := by
  have hroots : ∀ i p, rows[i]? = some p →
      ((List.range rows.length).map root)[i]? = some (root i) := by
    intro i p hi
    rw [List.getElem?_map, List.getElem?_range (List.getElem?_eq_some_iff.mp hi).1]
    rfl
  rw [clusterOf, List.mem_map]
  constructor
  · rintro ⟨⟨p, r'⟩, hmem, rfl⟩
    obtain ⟨hzip, hr⟩ := List.mem_filter.mp hmem
    obtain ⟨i, hi⟩ := List.mem_iff_getElem?.mp hzip
    obtain ⟨hp, hr'⟩ := List.getElem?_zip_eq_some.mp hi
    refine ⟨i, p, hp, rfl, ?_⟩
    rw [hroots i p hp] at hr'
    exact (Option.some_inj.mp hr').trans (of_decide_eq_true hr)
  · rintro ⟨i, p, hp, rfl, rfl⟩
    refine ⟨(p, root i), List.mem_filter.mpr ⟨?_, decide_eq_true rfl⟩, rfl⟩
    exact List.mem_of_getElem? (List.getElem?_zip_eq_some.mpr ⟨hp, hroots i p hp⟩)

/-- **The groups are the components.** -/
theorem clustersOf_components [HashOrder] (threshold : F64) {rows : List (ℤ × String)}
    (hrows : (rows.map Prod.fst).Nodup) :
    Components (similarityGraph threshold rows) (rows.map Prod.fst)
      (clustersOf threshold rows) := by
  obtain ⟨root, hroot, hgroups⟩ := exists_roots threshold rows
  have hkeys : ∀ r, r ∈ HashOrder.keys ((List.range rows.length).map root).dedup ↔
      ∃ i < rows.length, root i = r := by
    intro r
    rw [(HashOrder.perm _).mem_iff]
    simp
  have hclass : ∀ {i j p q}, rows[i]? = some p → rows[j]? = some q →
      (root i = root j ↔ (similarityGraph threshold rows).Reachable p.1 q.1) := by
    intro i j p q hi hj
    rw [hroot i (List.getElem?_eq_some_iff.mp hi).1 j (List.getElem?_eq_some_iff.mp hj).1]
    exact eqvGen_iff hrows hi hj
  rw [hgroups]
  refine ⟨fun g hg => ?_, fun g hg a ha b => ?_, ?_, fun a ha b hne hreach => ?_⟩
  · obtain ⟨hmem, htwo⟩ := List.mem_filter.mp hg
    obtain ⟨r, -, rfl⟩ := List.mem_map.mp hmem
    have hsub := MemoryStore.clusterOf_sublist rows ((List.range rows.length).map root) r
    exact ⟨of_decide_eq_true htwo, hrows.sublist hsub, hsub.subset⟩
  · obtain ⟨r, -, rfl⟩ := List.mem_map.mp (List.mem_of_mem_filter hg)
    obtain ⟨i, p, hi, rfl, rfl⟩ := mem_clusterOf.mp ha
    rw [mem_clusterOf]
    constructor
    · rintro ⟨j, q, hj, rfl, heq⟩
      exact (hclass hi hj).mp heq.symm
    · intro hreach
      obtain ⟨j, q, hj, rfl, -⟩ := eqvGen_of_reachable hrows hi hreach
      exact ⟨j, q, hj, rfl, ((hclass hi hj).mpr hreach).symm⟩
  · have hnodup : (HashOrder.keys ((List.range rows.length).map root).dedup).Nodup :=
      (HashOrder.perm _).nodup_iff.mpr (List.nodup_dedup _)
    refine List.Pairwise.filter _ (List.pairwise_map.mpr (hnodup.imp fun hne => ?_))
    exact MemoryStore.clusterOf_disjoint hrows _ hne
  · obtain ⟨p, hp, rfl⟩ := List.mem_map.mp ha
    obtain ⟨i, hi⟩ := List.mem_iff_getElem?.mp hp
    obtain ⟨j, q, hj, rfl, -⟩ := eqvGen_of_reachable hrows hi hreach
    let g := clusterOf rows ((List.range rows.length).map root) (root i)
    have hmemp : p.1 ∈ g := mem_clusterOf.mpr ⟨i, p, hi, rfl, rfl⟩
    have hmemq : q.1 ∈ g := mem_clusterOf.mpr ⟨j, q, hj, rfl, ((hclass hi hj).mpr hreach).symm⟩
    refine ⟨g, List.mem_filter.mpr ⟨List.mem_map_of_mem ((hkeys (root i)).mpr ?_), ?_⟩, hmemp⟩
    · exact ⟨i, (List.getElem?_eq_some_iff.mp hi).1, rfl⟩
    · exact decide_eq_true (two_le_length hmemp hmemq hne)

end Similar

/-! ## The effect of a compaction -/

namespace MemoryStore

/-- A memory of a group refers to the representative, unless it is that. -/
def retire (clock : ℤ → ℤ) (ids : List ℤ) (rep : ℤ) (m : Memory) : Memory :=
  if m.id ∈ ids ∧ m.id ≠ rep then { m with supersededBy := some rep, updatedTs := clock m.id }
  else m

/-- A memory after all groups. -/
def retireAll (clock : ℤ → ℤ) (groups : List (List ℤ)) (m : Memory) : Memory :=
  groups.foldl (fun m group => retire clock group (group.max?.getD 0) m) m

section Retire

variable (clock : ℤ → ℤ) {ids : List ℤ} {rep : ℤ} {m : Memory}

@[simp]
theorem retire_id (ids : List ℤ) (rep : ℤ) (m : Memory) : (retire clock ids rep m).id = m.id := by
  unfold retire
  split <;> rfl

theorem retire_of_not_mem (h : m.id ∉ ids) : retire clock ids rep m = m :=
  if_neg fun hmem => h hmem.1

theorem retire_rep (h : m.id = rep) : retire clock ids rep m = m :=
  if_neg fun hmem => hmem.2 h

theorem retire_of_mem (h : m.id ∈ ids) (hne : m.id ≠ rep) :
    (retire clock ids rep m).supersededBy = some rep := by
  rw [retire, if_pos ⟨h, hne⟩]

theorem retire_cons_rep : retire clock (rep :: ids) rep = retire clock ids rep := by
  funext m
  simp only [retire, List.mem_cons]
  grind

/-- The first memory of a group refers to the representative, and then the others do. -/
theorem retire_cons {id : ℤ} (hne : id ≠ rep) :
    (retire clock ids rep ∘ fun m =>
      if m.id = id then { m with supersededBy := some rep, updatedTs := clock id } else m) =
        retire clock (id :: ids) rep := by
  funext m
  rw [Function.comp]
  by_cases hid : m.id = id
  · subst hid
    rw [if_pos rfl, retire, retire, if_pos (And.intro List.mem_cons_self hne)]
    split <;> rfl
  · simp only [retire, List.mem_cons, hid, if_false, false_or]

@[simp]
theorem retireAll_id (groups : List (List ℤ)) (m : Memory) :
    (retireAll clock groups m).id = m.id := by
  induction groups generalizing m with
  | nil => rfl
  | cons group rest ih => exact (ih _).trans (retire_id clock group _ m)

/-- A memory outside all groups is not touched. -/
theorem retireAll_of_not_mem {groups : List (List ℤ)} (h : ∀ g ∈ groups, m.id ∉ g) :
    retireAll clock groups m = m := by
  induction groups with
  | nil => rfl
  | cons group rest ih =>
    obtain ⟨hgroup, hrest⟩ := List.forall_mem_cons.mp h
    rw [retireAll, List.foldl_cons, retire_of_not_mem clock hgroup]
    exact ih hrest

/-- Only its own group matters to a memory. -/
theorem retireAll_of_mem {groups : List (List ℤ)} (hdisjoint : groups.Pairwise List.Disjoint)
    {g : List ℤ} (hg : g ∈ groups) (hm : m.id ∈ g) :
    retireAll clock groups m = retire clock g (g.max?.getD 0) m := by
  induction groups with
  | nil => cases hg
  | cons group rest ih =>
    obtain ⟨hgroup, hrest⟩ := List.pairwise_cons.mp hdisjoint
    rw [retireAll, List.foldl_cons]
    cases hg with
    | head =>
      refine retireAll_of_not_mem clock fun g' hg' hmem => hgroup g' hg' hm ?_
      rwa [retire_id] at hmem
    | tail _ hg =>
      rw [retire_of_not_mem clock fun hmem => hgroup g hg hmem hm]
      exact ih hrest hg

/-- What is active after it was active before, and did not change. -/
theorem retireAll_of_active {groups : List (List ℤ)} (hdisjoint : groups.Pairwise List.Disjoint)
    (h : (retireAll clock groups m).supersededBy = none) : retireAll clock groups m = m := by
  by_cases hmem : ∃ g ∈ groups, m.id ∈ g
  · obtain ⟨g, hg, hm⟩ := hmem
    rw [retireAll_of_mem clock hdisjoint hg hm] at h ⊢
    by_cases hrep : m.id = g.max?.getD 0
    · exact retire_rep clock hrep
    · rw [retire_of_mem clock hm hrep] at h
      cases h
  · exact retireAll_of_not_mem clock fun g hg hm => hmem ⟨g, hg, hm⟩

end Retire

section Effect

variable [Blake3] (clock : ℤ → ℤ)

/-- The store after all groups. -/
def retired (s : MemoryStore) (groups : List (List ℤ)) : MemoryStore :=
  { s with memories := s.memories.map (retireAll clock groups) }

theorem known_of_mem {s : MemoryStore} {id : ℤ} (h : id ∈ s.memories.map Memory.id) :
    s.known id = true := by
  obtain ⟨m, hm, rfl⟩ := List.mem_map.mp h
  exact List.any_eq_true.mpr ⟨m, hm, decide_eq_true rfl⟩

/-- **A group that is there** is superseded as a whole. -/
theorem supersedeAll_eq {rep : ℤ} {s : MemoryStore} (hrep : rep ∈ s.memories.map Memory.id)
    {ids : List ℤ} (hids : ids ⊆ s.memories.map Memory.id) :
    ∃ k, supersedeAll clock rep s ids =
      ({ s with memories := s.memories.map (retire clock ids rep) }, .ok k) := by
  induction ids generalizing s with
  | nil =>
    have hnone : retire clock [] rep = id := by
      funext m
      exact retire_of_not_mem clock List.not_mem_nil
    exact ⟨0, by rw [hnone, List.map_id]; rfl⟩
  | cons id rest ih =>
    obtain ⟨hid, hrest⟩ := List.cons_subset.mp hids
    rw [MemoryStore.supersedeAll]
    by_cases heq : id = rep
    · obtain ⟨k, hk⟩ := ih hrep hrest
      exact ⟨k, by rw [if_pos heq, hk, heq, retire_cons_rep]⟩
    · let f : Memory → Memory := fun m =>
        if m.id = id then { m with supersededBy := some rep, updatedTs := clock id } else m
      have hf : ∀ m, (f m).id = m.id := by
        intro m
        simp only [f]
        split <;> rfl
      have hids' : (s.memories.map f).map Memory.id = s.memories.map Memory.id := by
        rw [List.map_map]
        exact List.map_congr_left fun m _ => hf m
      have hsupersede : s.supersede (clock id) id rep =
          .ok { s with memories := s.memories.map f } := by
        rw [MemoryStore.supersede, known_of_mem hrep, known_of_mem hid]
        rfl
      obtain ⟨k, hk⟩ := ih (s := { s with memories := s.memories.map f }) (hids' ▸ hrep)
        (hids' ▸ hrest)
      refine ⟨k + 1, ?_⟩
      rw [if_neg heq, hsupersede]
      simp only [hk, List.map_map, f, retire_cons clock heq]
      rfl

/-- **Only a summary can fail.** Otherwise every group is superseded. -/
theorem compactGroups_cases [PipelineHooks] {s : MemoryStore} {groups : List (List ℤ)}
    (hne : ∀ g ∈ groups, g ≠ []) (hids : ∀ g ∈ groups, g ⊆ s.memories.map Memory.id) :
    (∃ texts e, PipelineHooks.summarize texts = .error e ∧
        (compactGroups clock s groups).2 = .error e) ∨
      ∃ n, compactGroups clock s groups = (s.retired clock groups, .ok n) := by
  induction groups generalizing s with
  | nil =>
    have hnone : retireAll clock [] = id := rfl
    exact .inr ⟨0, by rw [retired, hnone, List.map_id]; rfl⟩
  | cons group rest ih =>
    obtain ⟨hgroup, hgroups⟩ := List.forall_mem_cons.mp hne
    obtain ⟨hgroupIds, hrestIds⟩ := List.forall_mem_cons.mp hids
    rw [MemoryStore.compactGroups]
    cases hsummarize : PipelineHooks.summarize (s.textsOf group) with
    | error e => exact .inl ⟨_, e, hsummarize, by simp⟩
    | ok _ =>
      cases hmax : group.max? with
      | none => exact absurd (List.max?_eq_none_iff.mp hmax) hgroup
      | some rep =>
        have hrep : rep ∈ group := (List.max?_eq_some_iff.mp hmax).1
        obtain ⟨k, hk⟩ := supersedeAll_eq clock (hgroupIds hrep) hgroupIds
        have hids' : (s.memories.map (retire clock group rep)).map Memory.id =
            s.memories.map Memory.id := by
          rw [List.map_map]
          exact List.map_congr_left fun m _ => retire_id clock group rep m
        have hcons : retireAll clock rest ∘ retire clock group rep =
            retireAll clock (group :: rest) := by
          funext m
          rw [retireAll, List.foldl_cons, hmax]
          rfl
        rcases ih (s := { s with memories := s.memories.map (retire clock group rep) }) hgroups
          (hids' ▸ hrestIds) with ⟨texts, e, hfail, he⟩ | ⟨n, hn⟩
        · refine .inl ⟨texts, e, hfail, ?_⟩
          simp only [Option.getD_some, hk, he]
          rfl
        · refine .inr ⟨k + n, ?_⟩
          simp only [Option.getD_some, hk, hn, retired, List.map_map, hcons]
          rfl

end Effect

/-! ## Compaction -/

section Compaction

variable [Blake3]

/-- The active memories, with their texts. -/
theorem mem_activeTexts {s : MemoryStore} {limit : UInt64} {p : ℤ × String}
    (h : p ∈ s.activeTexts limit) :
    ∃ m ∈ s.memories, m.supersededBy = none ∧ m.id = p.1 ∧ s.textOf m.docId = some p.2 := by
  obtain ⟨⟨m, text⟩, hmem, rfl⟩ := List.mem_map.mp h
  have hrow := (List.mergeSort_perm _ _).mem_iff.mp ((sqlLimit_sublist limit _).subset hmem)
  obtain ⟨n, hn, heq⟩ := List.mem_filterMap.mp hrow
  obtain ⟨hmemory, hnone⟩ := List.mem_filter.mp hn
  obtain ⟨text', htext, hpair⟩ := Option.map_eq_some_iff.mp heq
  cases hpair
  exact ⟨m, hmemory, Option.isNone_iff_eq_none.mp hnone, rfl, htext⟩

/-- The limit covers all active memories. -/
def Covered (s : MemoryStore) (limit : UInt64) : Prop :=
  (s.memories.filter fun m => m.supersededBy.isNone).length ≤ limit.toNat

/-- Within the limit, every active memory is looked at. -/
theorem Covered.mem_activeTexts {s : MemoryStore} {limit : UInt64} (h : s.Covered limit)
    {m : Memory} {text : String} (hm : m ∈ s.memories) (hnone : m.supersededBy = none)
    (htext : s.textOf m.docId = some text) : (m.id, text) ∈ s.activeTexts limit := by
  let active := s.memories.filter fun m => m.supersededBy.isNone
  let rows := active.filterMap fun m => (s.textOf m.docId).map (m, ·)
  let sorted := rows.mergeSort fun a b => b.1.updatedTs ≤ a.1.updatedTs
  have hlength : sorted.length ≤ limit.toNat :=
    (List.length_mergeSort rows).trans_le ((List.length_filterMap_le _ _).trans h)
  have hall : sqlLimit limit sorted = sorted := by
    rw [sqlLimit, List.take_of_length_le hlength, ite_self]
  have hrow : (m, text) ∈ sorted := by
    refine (List.mergeSort_perm _ _).mem_iff.mpr (List.mem_filterMap.mpr ⟨m, ?_, ?_⟩)
    · exact List.mem_filter.mpr ⟨hm, Option.isNone_iff_eq_none.mpr hnone⟩
    · rw [htext]
      rfl
  exact List.mem_map.mpr ⟨(m, text), hall.symm ▸ hrow, rfl⟩

variable [Floats] [HashOrder]

theorem clusterForCompact_components {s : MemoryStore} (hids : (s.memories.map Memory.id).Nodup)
    (threshold : F64) (maxRows : UInt64) :
    Components (similarityGraph threshold (s.activeTexts maxRows))
      ((s.activeTexts maxRows).map Prod.fst) (s.clusterForCompact threshold maxRows) :=
  clustersOf_components threshold (activeTexts_ids hids maxRows).1

omit [Floats] [HashOrder] in
/-- The newest memory of each component is active, the others are superseded by it, and what was
not looked at is as before. -/
structure Compacted (G : SimpleGraph ℤ) (scanned : List ℤ) (s s' : MemoryStore) : Prop where
  db : s'.db = s.db
  ids : s'.memories.map Memory.id = s.memories.map Memory.id
  others : ∀ m ∈ s.memories, m.id ∉ scanned → m ∈ s'.memories
  newest : ∀ a ∈ scanned, ∃ r, G.Reachable a r ∧ (∀ b, G.Reachable a b → b ≤ r) ∧
    ∀ b, G.Reachable a b → (s'.Active b ↔ b = r) ∧ (b ≠ r → s'.SupersededBy b r)

omit [Floats] [HashOrder] in
/-- The groups are the components, so their greatest members are left. -/
theorem compacted_retired {G : SimpleGraph ℤ} {ids : List ℤ} {groups : List (List ℤ)}
    (h : Components G ids groups) {s : MemoryStore} (hactive : ∀ i ∈ ids, s.Active i)
    (clock : ℤ → ℤ) : Compacted G ids s (s.retired clock groups) := by
  let f := retireAll clock groups
  refine ⟨rfl, ?_, fun m hm hnot => ?_, fun a ha => ?_⟩
  · rw [retired, List.map_map]
    exact List.map_congr_left fun m _ => retireAll_id clock groups m
  · have hsame : f m = m :=
      retireAll_of_not_mem clock fun g hg hmem => hnot ((h.two g hg).2.2 hmem)
    exact List.mem_map.mpr ⟨m, hm, hsame⟩
  · by_cases hgroup : ∃ g ∈ groups, a ∈ g
    · obtain ⟨g, hg, hag⟩ := hgroup
      cases hmax : g.max? with
      | none => exact absurd (List.max?_eq_none_iff.mp hmax) (List.ne_nil_of_mem hag)
      | some r =>
        obtain ⟨hr, hle⟩ := List.max?_eq_some_iff.mp hmax
        have hf : ∀ m : Memory, m.id ∈ g → f m = retire clock g r m := by
          intro m hm
          have hmem := retireAll_of_mem clock h.disjoint hg hm
          rwa [hmax] at hmem
        have hreach := h.component g hg a hag
        refine ⟨r, (hreach r).mp hr, fun b hb => hle b ((hreach b).mpr hb), fun b hb => ?_⟩
        have hbg := (hreach b).mpr hb
        obtain ⟨m, hm, rfl, hnone⟩ := hactive b ((h.two g hg).2.2 hbg)
        refine ⟨⟨?_, fun heq => ?_⟩, fun hne => ?_⟩
        · rintro ⟨n', hn', hid, hnone'⟩
          obtain ⟨n, hn, rfl⟩ := List.mem_map.mp hn'
          rw [retireAll_id] at hid
          by_contra hne
          have hsome := retire_of_mem clock (hid ▸ hbg) (hid ▸ hne)
          rw [← hf n (hid ▸ hbg)] at hsome
          exact absurd (hnone'.symm.trans hsome) (Option.some_ne_none r).symm
        · have hsame : f m = m := (hf m hbg).trans (retire_rep clock heq)
          exact ⟨m, List.mem_map.mpr ⟨m, hm, hsame⟩, rfl, hnone⟩
        · refine ⟨f m, List.mem_map_of_mem hm, retireAll_id clock groups m, ?_⟩
          rw [hf m hbg]
          exact retire_of_mem clock hbg hne
    · -- a memory that no other is similar to
      have halone : ∀ b, G.Reachable a b → b = a := by
        intro b hb
        by_contra hne
        exact hgroup (h.complete a ha b (Ne.symm hne) hb)
      refine ⟨a, .refl a, fun b hb => (halone b hb).le, fun b hb => ?_⟩
      obtain rfl := halone b hb
      obtain ⟨m, hm, rfl, hnone⟩ := hactive b ha
      have hsame : f m = m :=
        retireAll_of_not_mem clock fun g hg hmem => hgroup ⟨g, hg, hmem⟩
      refine ⟨⟨fun _ => rfl, fun _ => ?_⟩, fun hne => absurd rfl hne⟩
      exact ⟨m, List.mem_map.mpr ⟨m, hm, hsame⟩, rfl, hnone⟩

/-- **What is left is not similar.** -/
theorem clusterForCompact_retired {s : MemoryStore} (hids : (s.memories.map Memory.id).Nodup)
    {threshold : F64} {maxRows : UInt64} (hcovered : s.Covered maxRows) (clock : ℤ → ℤ)
    (limit : UInt64) :
    (s.retired clock (s.clusterForCompact threshold maxRows)).clusterForCompact threshold limit =
      [] := by
  let s' := s.retired clock (s.clusterForCompact threshold maxRows)
  have h := clusterForCompact_components hids threshold maxRows
  have hcompacted := compacted_retired h (activeTexts_ids hids maxRows).2 clock
  have hids' : (s'.memories.map Memory.id).Nodup := hcompacted.ids ▸ hids
  have h' := clusterForCompact_components hids' threshold limit
  -- what is active after was looked at before, with the same text
  have hmem : ∀ p ∈ s'.activeTexts limit, p ∈ s.activeTexts maxRows ∧ s'.Active p.1 := by
    rintro ⟨id, text⟩ hp
    obtain ⟨n, hn, hnone, rfl, htext⟩ := mem_activeTexts hp
    obtain ⟨m, hm, rfl⟩ := List.mem_map.mp hn
    have hsame := retireAll_of_active clock h.disjoint hnone
    rw [hsame] at hnone htext ⊢
    exact ⟨hcovered.mem_activeTexts hm hnone htext, m, hsame ▸ hn, rfl, hnone⟩
  refine List.eq_nil_iff_forall_not_mem.mpr fun g hg => ?_
  obtain ⟨htwo, hnodup, -⟩ := h'.two g hg
  match g with
  | a :: b :: rest =>
    have hne : a ≠ b := fun heq => (List.nodup_cons.mp hnodup).1 (heq ▸ List.mem_cons_self)
    obtain ⟨w⟩ := (h'.component _ hg a List.mem_cons_self b).mp (by simp)
    cases w with
    | nil => exact hne rfl
    | cons hadj _ =>
      obtain ⟨hedge, p, hp, q, hq, rfl, rfl, hle⟩ := hadj
      obtain ⟨hp, hpActive⟩ := hmem p hp
      obtain ⟨hq, hqActive⟩ := hmem q hq
      obtain ⟨r, -, -, hr⟩ := hcompacted.newest p.1 (List.mem_map_of_mem hp)
      have hreach : (similarityGraph threshold (s.activeTexts maxRows)).Reachable p.1 q.1 :=
        SimpleGraph.Adj.reachable ⟨hedge, p, hp, q, hq, rfl, rfl, hle⟩
      exact hedge (((hr _ (.refl _)).1.mp hpActive).trans ((hr _ hreach).1.mp hqActive).symm)

/-- **Compaction computes components.** `cluster_for_compact` returns those of the active memories
it looks at, `compact` leaves the newest memory of each active, and if it looked at all of them the
next compaction changes nothing. -/
theorem compaction [PipelineHooks] {s : MemoryStore} (hids : (s.memories.map Memory.id).Nodup)
    (clock : ℤ → ℤ) (threshold : F64) (maxRows : UInt64) :
    Components (similarityGraph threshold (s.activeTexts maxRows))
        ((s.activeTexts maxRows).map Prod.fst) (s.clusterForCompact threshold maxRows) ∧
      ((∃ texts e, PipelineHooks.summarize texts = .error e ∧
          (s.compact clock threshold maxRows).2 = .error e) ∨
        ∃ s' n, s.compact clock threshold maxRows = (s', .ok n) ∧
          Compacted (similarityGraph threshold (s.activeTexts maxRows))
            ((s.activeTexts maxRows).map Prod.fst) s s' ∧
          (s.Covered maxRows → ∀ (clock' : ℤ → ℤ) (limit : UInt64),
            s'.compact clock' threshold limit = (s', .ok 0))) := by
  have h := clusterForCompact_components hids threshold maxRows
  have hactive := (activeTexts_ids hids maxRows).2
  have hne : ∀ g ∈ s.clusterForCompact threshold maxRows, g ≠ [] := by
    rintro g hg rfl
    exact absurd (h.two [] hg).1 (by decide)
  have hsub : ∀ g ∈ s.clusterForCompact threshold maxRows, g ⊆ s.memories.map Memory.id := by
    intro g hg i hi
    obtain ⟨m, hm, rfl, -⟩ := hactive i ((h.two g hg).2.2 hi)
    exact List.mem_map_of_mem hm
  refine ⟨h, ?_⟩
  rcases compactGroups_cases clock hne hsub with hfail | ⟨n, hn⟩
  · exact .inl hfail
  · refine .inr ⟨_, n, hn, compacted_retired h hactive clock, fun hcovered clock' limit => ?_⟩
    rw [MemoryStore.compact, clusterForCompact_retired hids hcovered]
    rfl

end Compaction

section Foxes

/-- The quotients `0` and `1`, and the order of floats that are not negative. -/
@[reducible] def wholeFloats : Floats where
  ratio a b := if a = b then Memory.full else 0
  toF32 x := if x = Memory.full then 0x3F800000#32 else 0
  le32 a b := a.toNat ≤ b.toNat
  le a b := a.toNat ≤ b.toNat
  lt a b := a.toNat < b.toNat

/-- The keys in the order they came in. -/
@[reducible] def inOrder : HashOrder := ⟨id, .refl⟩

/-- Hooks that keep the longer text. -/
@[reducible] def longest : PipelineHooks where
  merge a b := .ok (if a.length < b.length then b else a)
  summarize texts := .ok (texts.headD "")

/-- Two documents with nearly one text. -/
def foxDocs : Table (@docSchema Blake3.identity) where
  rows := [⟨1, none, none, "red fox", none, 0⟩, ⟨2, none, none, "red fox !", none, 0⟩]
  seq := 2
  seq_nonneg := by decide
  sorted := by decide
  id_pos := by decide
  le_seq := by decide
  key_nodup := by decide
  alt_nodup := by decide

/-- Two memories with the same words. -/
def foxes : @MemoryStore Blake3.identity :=
  @MemoryStore.mk Blake3.identity (@Store.mk Blake3.identity foxDocs [] [] (by decide) (by simp))
    [⟨1, 1, .fact, none, Memory.full, none, 1, none⟩,
      ⟨2, 2, .fact, none, Memory.full, none, 2, none⟩]

/-- Two memories about a fox. The first is superseded, and a second run finds nothing to do. -/
theorem foxes_compacted :
    ∃ s' n, @compact Blake3.identity wholeFloats inOrder longest foxes id Memory.full 10 =
        (s', .ok n) ∧
      @SupersededBy Blake3.identity s' 1 2 ∧ @Active Blake3.identity s' 2 ∧
      @compact Blake3.identity wholeFloats inOrder longest s' id Memory.full 10 = (s', .ok 0) := by
  have hids : ((@memories Blake3.identity foxes).map Memory.id).Nodup := by decide
  have hcovered : @Covered Blake3.identity foxes 10 := Nat.le_of_ble_eq_true rfl
  have hsimilar : @jaccard wholeFloats "red fox" "red fox !" = Memory.full := by decide +kernel
  let _ : Blake3 := Blake3.identity
  obtain ⟨-, ⟨texts, e, hfail, -⟩ | ⟨s', n, hs', hcompacted, hagain⟩⟩ :=
    @compaction Blake3.identity wholeFloats inOrder longest foxes hids id Memory.full 10
  · cases hfail
  · let rows := @activeTexts Blake3.identity foxes 10
    have h1 : (1, "red fox") ∈ rows := hcovered.mem_activeTexts List.mem_cons_self rfl rfl
    have h2 : (2, "red fox !") ∈ rows :=
      hcovered.mem_activeTexts (List.mem_cons_of_mem _ List.mem_cons_self) rfl rfl
    have hreach : (@similarityGraph wholeFloats Memory.full rows).Reachable 1 2 :=
      SimpleGraph.Adj.reachable ⟨by decide, _, h1, _, h2, rfl, rfl, hsimilar ▸ rfl⟩
    obtain ⟨r, hr, hle, hnewest⟩ := hcompacted.newest 1 (List.mem_map_of_mem h1)
    have hactive := (hnewest r hr).1.mpr rfl
    have hge := hle 2 hreach
    have hr : r = 2 := by
      obtain ⟨m, hm, hid, -⟩ := hactive
      have hmem : r ∈ s'.memories.map Memory.id := hid ▸ List.mem_map_of_mem hm
      rw [hcompacted.ids] at hmem
      rcases List.mem_pair.mp hmem with hone | htwo
      · rw [hone] at hge
        exact absurd hge (by decide)
      · exact htwo
    subst hr
    exact ⟨s', n, hs', (hnewest 1 (.refl 1)).2 (by decide), hactive, hagain hcovered id 10⟩

end Foxes

end MemoryStore

end SynapseMemory
