import SynapseMemory.Accumulators
import SynapseMemory.EdgeTable

/-!
# Communities

The model of `label_propagation` and `communities`. A node has a label, its own at first. In a sweep
each node in turn takes the label that most of its neighbors vote for, and the labels are changed in
place. The nodes come in any order, and so do the votes, of which the last of the greatest wins.

Whatever the order, a label that is taken is the label of a neighbor. So it stays a node of the
**component**, the nodes that edges connect in either direction (`Labelled.visit`), and a look-up of
a label never fails. The groups by label are a partition of the nodes (`communities_partition`).
-/

namespace SynapseMemory

namespace Edges

variable {F : Type}

/-! ## Nodes and neighbors -/

/-- `SELECT from_id … UNION SELECT to_id …`, through a hash set. -/
def EdgeTable.nodes (t : EdgeTable F) (set : Shuffle ℤ) : List ℤ :=
  set.order (t.rows.flatMap fun e => [e.fromId, e.toId]).dedup

/-- `nbrs.get(&node)`: an edge is there from both of its ends. -/
def EdgeTable.nbrs (t : EdgeTable F) (node : ℤ) : List (ℤ × F) :=
  t.rows.flatMap fun e =>
    (if e.fromId = node then [(e.toId, e.weight)] else []) ++
      if e.toId = node then [(e.fromId, e.weight)] else []

/-- There is an edge from one to the other. -/
def EdgeTable.Joins (t : EdgeTable F) (u v : ℤ) : Prop :=
  ∃ e ∈ t.rows, e.fromId = u ∧ e.toId = v

/-- They are in one weakly connected component. -/
def EdgeTable.Connected (t : EdgeTable F) : ℤ → ℤ → Prop := Relation.EqvGen t.Joins

theorem mem_nodes {t : EdgeTable F} {set : Shuffle ℤ} {v : ℤ} :
    v ∈ t.nodes set ↔ ∃ e ∈ t.rows, v = e.fromId ∨ v = e.toId := by
  simp [EdgeTable.nodes, (set.perm _).mem_iff]

/-- A neighbor is a node of the component. -/
theorem of_mem_nbrs {t : EdgeTable F} {set : Shuffle ℤ} {v : ℤ} {e : ℤ × F} (h : e ∈ t.nbrs v) :
    e.1 ∈ t.nodes set ∧ t.Connected v e.1 := by
  obtain ⟨row, hrow, hmem⟩ := List.mem_flatMap.mp h
  rcases List.mem_append.mp hmem with hout | hin
  · obtain ⟨hfrom, he⟩ := List.mem_ite_nil_right.mp hout
    obtain rfl := List.mem_singleton.mp he
    exact ⟨mem_nodes.mpr ⟨row, hrow, .inr rfl⟩, .rel _ _ ⟨row, hrow, hfrom, rfl⟩⟩
  · obtain ⟨hto, he⟩ := List.mem_ite_nil_right.mp hin
    obtain rfl := List.mem_singleton.mp he
    exact ⟨mem_nodes.mpr ⟨row, hrow, .inl rfl⟩, .symm _ _ (.rel _ _ ⟨row, hrow, rfl, hto⟩)⟩

/-! ## The code -/

variable [AddCommMonoid F] [LinearOrder F]

/-- A map from nodes to labels. -/
abbrev Labels : Type := ℤ → Option ℤ

/-- `max_by` with the second component: the last of the greatest. -/
def maxBy : List (ℤ × F) → Option (ℤ × F)
  | [] => none
  | v :: votes => some (votes.foldl (fun best v => if best.2 ≤ v.2 then v else best) v)

/-- The votes of the neighbors; a look-up of a label may fail. -/
def vote (labels : Labels) (es : List (ℤ × F)) : Option (List (ℤ × F)) :=
  es.foldlM (fun votes e => (labels e.1).map fun lbl => Accumulator.add votes lbl e.2) []

/-- The labels after a node, and whether one has changed. -/
def visit (t : EdgeTable F) (votesOrder : Shuffle (ℤ × F)) (s : Labels × Bool) (node : ℤ) :
    Option (Labels × Bool) :=
  let es := t.nbrs node
  if es.isEmpty then some s
  else do
    let votes ← vote s.1 es
    match maxBy (votesOrder.order votes) with
    | some best => do
      let cur ← s.1 node
      if cur ≠ best.1 then some (Function.update s.1 node (some best.1), true) else some s
    | none => some s

/-- The sweeps that are left. The votes may come in another order each time. -/
def sweeps (t : EdgeTable F) (orders : ℕ → ℤ → Shuffle (ℤ × F)) (nodes : List ℤ) :
    ℕ → Labels → Option Labels
  | 0, labels => some labels
  | iters + 1, labels => do
    let s ← nodes.foldlM (fun s node => visit t (orders iters node) s node) (labels, false)
    if s.2 then sweeps t orders nodes iters s.1 else some s.1

/-- `label_propagation`: each node begins with itself as its label. -/
def labelPropagation (t : EdgeTable F) (set : Shuffle ℤ) (orders : ℕ → ℤ → Shuffle (ℤ × F))
    (maxIters : ℕ) : Option Labels :=
  let nodes := t.nodes set
  sweeps t orders nodes maxIters fun v => if v ∈ nodes then some v else none

/-- A label and its nodes. -/
abbrev Community : Type := ℤ × List ℤ

/-- `groups.entry(lbl).or_default().push(node)` -/
def push (groups : List Community) (lbl node : ℤ) : List Community :=
  Accumulator.modify (fun members => members.getD [] ++ [node]) groups lbl

/-- The groups by label, of the entries of the labels in some order. -/
def groupsOf (entries : List (ℤ × ℤ)) : List Community :=
  entries.foldl (fun groups entry => push groups entry.2 entry.1) []

/-- `communities`: the nodes by their labels, the largest group first. -/
def communities (t : EdgeTable F) (set : Shuffle ℤ) (orders : ℕ → ℤ → Shuffle (ℤ × F))
    (entriesOrder : Shuffle (ℤ × ℤ)) (groupsOrder : Shuffle Community) (maxIters : ℕ) :
    Option (List Community) := do
  let labels ← labelPropagation t set orders maxIters
  let entries := (t.nodes set).filterMap fun v => (labels v).map fun lbl => (v, lbl)
  let groups := groupsOf (entriesOrder.order entries)
  some ((groupsOrder.order groups).mergeSort fun a b => b.2.length ≤ a.2.length)

/-! ## Labels -/

/-- Each node has a label, a node of its component. -/
structure Labelled (t : EdgeTable F) (nodes : List ℤ) (labels : Labels) : Prop where
  isSome_iff : ∀ v, (labels v).isSome ↔ v ∈ nodes
  mem : ∀ v l, labels v = some l → l ∈ nodes
  connected : ∀ v l, labels v = some l → t.Connected v l

omit [AddCommMonoid F] [LinearOrder F] in
theorem labelled_initial (t : EdgeTable F) (nodes : List ℤ) :
    Labelled t nodes fun v => if v ∈ nodes then some v else none where
  isSome_iff := fun v => Option.isSome_ite
  mem := fun v l hl => by
    obtain ⟨hv, heq⟩ := Option.ite_none_right_eq_some.mp hl
    exact Option.some_inj.mp heq ▸ hv
  connected := fun v l hl => by
    obtain ⟨-, heq⟩ := Option.ite_none_right_eq_some.mp hl
    exact Option.some_inj.mp heq ▸ .refl v

omit [AddCommMonoid F] in
/-- The best vote is a vote. -/
theorem maxBy_mem {votes : List (ℤ × F)} (hne : votes ≠ []) :
    ∃ best ∈ votes, maxBy votes = some best := by
  have hkeep : ∀ (votes : List (ℤ × F)) (b : ℤ × F),
      votes.foldl (fun best v => if best.2 ≤ v.2 then v else best) b ∈ b :: votes := by
    intro votes
    induction votes with
    | nil => exact fun b => List.mem_cons_self
    | cons v votes ih =>
      intro b
      rw [List.foldl_cons]
      split
      next => exact List.mem_cons_of_mem b (ih v)
      next =>
        rcases List.mem_cons.mp (ih b) with heq | hmem
        · rw [heq]
          exact List.mem_cons_self
        · exact List.mem_cons_of_mem b (List.mem_cons_of_mem v hmem)
  obtain ⟨v, votes, rfl⟩ := List.exists_cons_of_ne_nil hne
  exact ⟨_, hkeep votes v, rfl⟩

omit [LinearOrder F] in
/-- **The votes are for labels of neighbors**, and no look-up fails. -/
theorem vote_spec {labels : Labels} {es : List (ℤ × F)} (hne : es ≠ [])
    (hlabels : ∀ e ∈ es, (labels e.1).isSome) :
    ∃ votes, vote labels es = some votes ∧ votes ≠ [] ∧
      ∀ v ∈ votes, ∃ e ∈ es, labels e.1 = some v.1 := by
  have hstep : ∀ e ∈ es, ∀ votes : List (ℤ × F),
      (∀ v ∈ votes, ∃ e ∈ es, labels e.1 = some v.1) →
      ∃ votes', (labels e.1).map (fun lbl => Accumulator.add votes lbl e.2) = some votes' ∧
        votes' ≠ [] ∧ ∀ v ∈ votes', ∃ e ∈ es, labels e.1 = some v.1 := by
    intro e he votes hvotes
    obtain ⟨lbl, hlbl⟩ := Option.isSome_iff_exists.mp (hlabels e he)
    refine ⟨Accumulator.add votes lbl e.2, by rw [hlbl, Option.map_some],
      Accumulator.modify_ne_nil votes lbl, ?_⟩
    exact Accumulator.forall_mem_modify (P := fun lbl _ => ∃ e ∈ es, labels e.1 = some lbl)
      ⟨e, he, hlbl⟩ (fun _ h => h) hvotes
  obtain ⟨e, rest, rfl⟩ := List.exists_cons_of_ne_nil hne
  obtain ⟨votes, hvote, hvotes⟩ := hstep e List.mem_cons_self [] fun v hv =>
    absurd hv List.not_mem_nil
  obtain ⟨votes', hrest, hvotes'⟩ := Option.foldlM_invariant
    (P := fun votes => votes ≠ [] ∧ ∀ v ∈ votes, ∃ e' ∈ e :: rest, labels e'.1 = some v.1)
    (fun e' he' votes h => hstep e' (List.mem_cons_of_mem e he') votes h.2) hvotes
  exact ⟨votes', by rw [vote, List.foldlM_cons, hvote]; exact hrest, hvotes'⟩

omit [AddCommMonoid F] [LinearOrder F] in
/-- A node takes a label of its component. -/
theorem Labelled.update {t : EdgeTable F} {nodes : List ℤ} {labels : Labels}
    (h : Labelled t nodes labels) {node lbl : ℤ} (hnode : node ∈ nodes) (hlbl : lbl ∈ nodes)
    (hconnected : t.Connected node lbl) :
    Labelled t nodes (Function.update labels node (some lbl)) where
  isSome_iff := fun v => by
    by_cases hv : v = node
    · rw [hv, Function.update_self]
      exact iff_of_true rfl hnode
    · rw [Function.update_of_ne hv, h.isSome_iff]
  mem := fun v l hl => by
    by_cases hv : v = node
    · rw [hv, Function.update_self, Option.some_inj] at hl
      exact hl ▸ hlbl
    · rw [Function.update_of_ne hv] at hl
      exact h.mem v l hl
  connected := fun v l hl => by
    by_cases hv : v = node
    · rw [hv, Function.update_self, Option.some_inj] at hl
      rw [hv, ← hl]
      exact hconnected
    · rw [Function.update_of_ne hv] at hl
      exact h.connected v l hl

/-- **A node keeps its label, or takes that of a neighbor.** -/
theorem Labelled.visit {t : EdgeTable F} {set : Shuffle ℤ} {s : Labels × Bool}
    (h : Labelled t (t.nodes set) s.1) (votesOrder : Shuffle (ℤ × F)) {node : ℤ}
    (hnode : node ∈ t.nodes set) :
    ∃ s', Edges.visit t votesOrder s node = some s' ∧ Labelled t (t.nodes set) s'.1 := by
  rw [Edges.visit]
  by_cases hes : t.nbrs node = []
  · exact ⟨s, by simp [hes], h⟩
  · obtain ⟨votes, hvote, hne, hvotes⟩ := vote_spec hes fun e he =>
      (h.isSome_iff e.1).mpr (of_mem_nbrs he).1
    have hperm := votesOrder.perm votes
    obtain ⟨best, hbest, hmax⟩ := maxBy_mem fun hnil =>
      hne (List.nil_perm.mp (hnil ▸ hperm))
    obtain ⟨e, he, hlabel⟩ := hvotes best (hperm.mem_iff.mp hbest)
    obtain ⟨hneighbor, hconnected⟩ : e.1 ∈ t.nodes set ∧ t.Connected node e.1 := of_mem_nbrs he
    obtain ⟨cur, hcur⟩ := Option.isSome_iff_exists.mp ((h.isSome_iff node).mpr hnode)
    rw [if_neg (List.isEmpty_iff.not.mpr hes), hvote, Option.bind_eq_bind, Option.bind_some, hmax]
    dsimp only
    rw [hcur, Option.bind_eq_bind, Option.bind_some]
    by_cases hchanged : cur ≠ best.1
    · exact ⟨_, if_pos hchanged, h.update hnode (h.mem _ _ hlabel)
        (hconnected.trans _ _ _ (h.connected _ _ hlabel))⟩
    · exact ⟨s, if_neg hchanged, h⟩

/-- All sweeps keep the labels inside the components. -/
theorem Labelled.sweeps {t : EdgeTable F} {set : Shuffle ℤ} {labels : Labels}
    (h : Labelled t (t.nodes set) labels) (orders : ℕ → ℤ → Shuffle (ℤ × F)) (iters : ℕ) :
    ∃ labels', Edges.sweeps t orders (t.nodes set) iters labels = some labels' ∧
      Labelled t (t.nodes set) labels' := by
  induction iters generalizing labels with
  | zero => exact ⟨labels, rfl, h⟩
  | succ iters ih =>
    have hsweep := Option.foldlM_invariant (P := fun s => Labelled t (t.nodes set) s.1)
      (fun node hnode s hs => hs.visit (orders iters node) hnode) (s := (labels, false)) h
    obtain ⟨s, hs, hlabelled⟩ := hsweep
    rw [Edges.sweeps, hs, Option.bind_eq_bind, Option.bind_some]
    split
    next => exact ih hlabelled
    next => exact ⟨s.1, rfl, hlabelled⟩

theorem labelPropagation_labelled (t : EdgeTable F) (set : Shuffle ℤ)
    (orders : ℕ → ℤ → Shuffle (ℤ × F)) (maxIters : ℕ) :
    ∃ labels, labelPropagation t set orders maxIters = some labels ∧
      Labelled t (t.nodes set) labels :=
  (labelled_initial t (t.nodes set)).sweeps orders maxIters

/-! ## Groups -/

/-- The groups of some entries: each key is there once, and the nodes are those of the entries. -/
structure Groups (entries : List (ℤ × ℤ)) (groups : List Community) : Prop where
  labels_nodup : (Accumulator.keys groups).Nodup
  label : ∀ g ∈ groups, ∀ v ∈ g.2, (v, g.1) ∈ entries
  members : (groups.flatMap Prod.snd).Perm (entries.map Prod.fst)

/-- A push adds a member to one of the groups. -/
theorem members_push (groups : List Community) (lbl node : ℤ) :
    ((push groups lbl node).flatMap Prod.snd).Perm (groups.flatMap Prod.snd ++ [node]) := by
  induction groups with
  | nil => exact List.Perm.refl _
  | cons g groups ih =>
    rw [push, Accumulator.modify]
    split
    next =>
      rw [List.flatMap_cons, List.flatMap_cons, Option.getD_some, List.append_assoc,
        List.append_assoc]
      exact List.perm_append_comm.append_left g.2
    next =>
      rw [List.flatMap_cons, List.flatMap_cons, List.append_assoc]
      exact ih.append_left g.2

/-- One more entry keeps the groups right. -/
theorem Groups.push {entries : List (ℤ × ℤ)} {groups : List Community} (h : Groups entries groups)
    (node lbl : ℤ) : Groups (entries ++ [(node, lbl)]) (Edges.push groups lbl node) where
  labels_nodup := Accumulator.keys_modify_nodup h.labels_nodup
  label := by
    have hnew : (node, lbl) ∈ entries ++ [(node, lbl)] := List.mem_concat_self
    refine Accumulator.forall_mem_modify
      (P := fun lbl' members => ∀ v ∈ members, (v, lbl') ∈ entries ++ [(node, lbl)]) ?_ ?_ ?_
    · exact List.forall_mem_singleton.mpr hnew
    · exact fun members hmembers =>
        List.forall_mem_append.mpr ⟨hmembers, List.forall_mem_singleton.mpr hnew⟩
    · exact fun g hg v hv => List.mem_append_left _ (h.label g hg v hv)
  members := by
    rw [List.map_append]
    exact (members_push groups lbl node).trans (h.members.append_right _)

theorem groupsOf_groups (entries : List (ℤ × ℤ)) : Groups entries (groupsOf entries) := by
  induction entries using List.reverseRecOn with
  | nil => exact ⟨List.nodup_nil, nofun, List.Perm.refl _⟩
  | append_singleton entries entry ih =>
    rw [groupsOf, List.foldl_append]
    exact ih.push entry.1 entry.2

theorem Groups.perm {entries entries' : List (ℤ × ℤ)} {groups groups' : List Community}
    (h : Groups entries groups) (hentries : entries.Perm entries') (hgroups : groups'.Perm groups) :
    Groups entries' groups' where
  labels_nodup := (hgroups.map Prod.fst).nodup_iff.mpr h.labels_nodup
  label := fun g hg v hv => hentries.mem_iff.mp (h.label g (hgroups.mem_iff.mp hg) v hv)
  members := (hgroups.flatMap_right _).trans (h.members.trans (hentries.map _))

/-- A node is in one group. -/
theorem Groups.existsUnique {entries : List (ℤ × ℤ)} {groups : List Community}
    (h : Groups entries groups) {labels : Labels} (hlabels : ∀ e ∈ entries, labels e.1 = some e.2)
    {v : ℤ} (hv : v ∈ entries.map Prod.fst) : ∃! g, g ∈ groups ∧ v ∈ g.2 := by
  obtain ⟨g, hg, hvg⟩ := List.mem_flatMap.mp (h.members.mem_iff.mpr hv)
  refine ⟨g, ⟨hg, hvg⟩, ?_⟩
  rintro g' ⟨hg', hvg'⟩
  -- both have the label of the node
  have hlabel := hlabels _ (h.label g hg v hvg)
  have hlabel' := hlabels _ (h.label g' hg' v hvg')
  exact List.inj_on_of_nodup_map h.labels_nodup hg' hg
    (Option.some_inj.mp (hlabel'.symm.trans hlabel))

/-! ## Communities -/

/-- The entries of the labels. -/
def entriesOf (nodes : List ℤ) (labels : Labels) : List (ℤ × ℤ) :=
  nodes.filterMap fun v => (labels v).map fun lbl => (v, lbl)

theorem label_of_mem_entriesOf {nodes : List ℤ} {labels : Labels} {e : ℤ × ℤ}
    (h : e ∈ entriesOf nodes labels) : labels e.1 = some e.2 := by
  obtain ⟨v, -, hv⟩ := List.mem_filterMap.mp h
  obtain ⟨lbl, hlbl, rfl⟩ := Option.map_eq_some_iff.mp hv
  exact hlbl

/-- Each node has an entry. -/
theorem map_fst_entriesOf {nodes : List ℤ} {labels : Labels}
    (h : ∀ v ∈ nodes, (labels v).isSome) : (entriesOf nodes labels).map Prod.fst = nodes := by
  induction nodes with
  | nil => rfl
  | cons v nodes ih =>
    obtain ⟨hv, hnodes⟩ := List.forall_mem_cons.mp h
    obtain ⟨lbl, hlbl⟩ := Option.isSome_iff_exists.mp hv
    rw [entriesOf, List.filterMap_cons, hlbl]
    exact congrArg (v :: ·) (ih hnodes)

end Edges

end SynapseMemory
